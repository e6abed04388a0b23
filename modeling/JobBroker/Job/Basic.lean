import JobBroker.Bytes
import JobBroker.Priority

/-!
# Jobs

A job is one submitted piece of work. Its key, the function's name together with a unique id, tells
it from every other live job; its handle is what the broker calls it towards peers.
-/

namespace JobBroker

/-- A unique id is unique within its function only. -/
structure JobKey where
  functionName : String
  uniqueId : String
deriving DecidableEq, Repr

/-- A job is queued, then worked on, then complete or failed. -/
inductive JobState
  | queued
  | working
  | complete
  | failed
deriving DecidableEq, Repr

namespace JobState

def name : JobState → String
  | queued => "queued"
  | working => "working"
  | complete => "complete"
  | failed => "failed"

def all : List JobState := [queued, working, complete, failed]

def isTerminal : JobState → Bool
  | complete | failed => true
  | queued | working => false

end JobState

structure Job where
  functionName : String
  uniqueId : String
  /-- Empty until the broker has taken the job in. -/
  handle : String
  priority : Priority
  background : Bool
  /-- Seconds of the epoch before which the job must not run; below one it may run at once. -/
  timeToRun : Int64
  data : Bytes
  reducer : Option String
  state : JobState
  numerator : UInt32
  denominator : UInt32
deriving DecidableEq, Repr

/-- What a queue keeps of a job. The data stays in the store. -/
structure QueuedJob where
  functionName : String
  uniqueId : String
  handle : String
  priority : Priority
  timeToRun : Int64
deriving DecidableEq, Repr

/-- What the broker tells about a handle. -/
structure JobStatus where
  handle : String
  /-- `none` when the broker holds no job under this handle. -/
  state : Option JobState
  numerator : UInt32
  denominator : UInt32
deriving DecidableEq, Repr

namespace JobKey

def text (k : JobKey) : String := k.functionName ++ "/" ++ k.uniqueId

end JobKey

namespace QueuedJob

def key (q : QueuedJob) : JobKey := ⟨q.functionName, q.uniqueId⟩

/-- A job of normal priority with a time to run is held back until that time. -/
def isHeld (q : QueuedJob) : Bool := q.priority = .normal && decide (0 < q.timeToRun)

end QueuedJob

namespace Job

/-- A job that runs at once, in the foreground and with normal priority. -/
def new (functionName uniqueId : String) (data : Bytes) : Job where
  functionName := functionName
  uniqueId := uniqueId
  handle := ""
  priority := .normal
  background := false
  timeToRun := -1
  data := data
  reducer := none
  state := .queued
  numerator := 0
  denominator := 0

def key (j : Job) : JobKey := ⟨j.functionName, j.uniqueId⟩

def isReady (j : Job) (now : Int64) : Bool := decide (j.timeToRun ≤ now)

/-- The job as it stands before anybody has worked on it. -/
def renewed (j : Job) : Job := { j with state := .queued, numerator := 0, denominator := 0 }

def summary (j : Job) : QueuedJob :=
  ⟨j.functionName, j.uniqueId, j.handle, j.priority, j.timeToRun⟩

def status (j : Job) : JobStatus := ⟨j.handle, some j.state, j.numerator, j.denominator⟩

@[simp] theorem key_summary (j : Job) : j.summary.key = j.key := rfl

@[simp] theorem key_renewed (j : Job) : j.renewed.key = j.key := rfl

@[simp] theorem summary_renewed (j : Job) : j.renewed.summary = j.summary := rfl

end Job

namespace JobStatus

def unknown (handle : String) : JobStatus := ⟨handle, none, 0, 0⟩

def isKnown (s : JobStatus) : Bool := s.state.isSome

def isRunning (s : JobStatus) : Bool := s.state = some .working

/-- Some progress has been reported. -/
def hasProgress (s : JobStatus) : Bool := s.denominator != 0

end JobStatus

end JobBroker
