import JobBroker.Queue.Lanes
import JobBroker.Store.Basic
import JobBroker.Table

/-!
# Queues

The queue of one function. It holds each unique id at most once, counts its jobs by priority, and
refuses new jobs when it is full. A new job is written to the store before it is let in.
-/

namespace JobBroker

/-- One number for each priority. -/
structure Tally where
  high : Nat
  normal : Nat
  low : Nat
deriving DecidableEq, Repr

namespace Tally

def zero : Tally := ⟨0, 0, 0⟩

def get (t : Tally) : Priority → Nat
  | .high => t.high
  | .normal => t.normal
  | .low => t.low

def add (t : Tally) : Priority → Tally
  | .high => { t with high := t.high + 1 }
  | .normal => { t with normal := t.normal + 1 }
  | .low => { t with low := t.low + 1 }

/-- One less; only a number above zero is ever lowered. -/
def remove (t : Tally) : Priority → Tally
  | .high => { t with high := t.high - 1 }
  | .normal => { t with normal := t.normal - 1 }
  | .low => { t with low := t.low - 1 }

def total (t : Tally) : Nat := t.high + t.normal + t.low

@[simp] theorem get_zero (p : Priority) : zero.get p = 0 := by cases p <;> rfl

@[simp] theorem get_add (t : Tally) (p p' : Priority) :
    (t.add p).get p' = t.get p' + if p = p' then 1 else 0 := by
  cases p <;> cases p' <;> rfl

@[simp] theorem get_remove (t : Tally) (p p' : Priority) :
    (t.remove p).get p' = t.get p' - if p = p' then 1 else 0 := by
  cases p <;> cases p' <;> rfl

end Tally

structure Queue where
  functionName : String
  /-- Zero sets no limit. -/
  maxSize : Nat
  lanes : Lanes
  /-- The queued jobs by unique id. -/
  jobs : Table String QueuedJob
  tally : Tally
deriving Repr

namespace Queue

def new (functionName : String) (maxSize : Nat) : Queue :=
  ⟨functionName, maxSize, .empty, .empty, .zero⟩

def find? (q : Queue) (uniqueId : String) : Option QueuedJob := q.jobs.get? uniqueId

def contains (q : Queue) (uniqueId : String) : Bool := q.jobs.contains uniqueId

def toList (q : Queue) : List QueuedJob := q.jobs.values

def count (q : Queue) (p : Priority) : Nat := q.tally.get p

def size (q : Queue) : Nat := q.tally.total

def isEmpty (q : Queue) : Bool := q.size == 0

def isFull (q : Queue) : Bool := decide (0 < q.maxSize) && decide (q.maxSize ≤ q.jobs.size)

def hasReady (q : Queue) (now : Int64) : Bool := q.lanes.hasReady now

/-- Lets a job in whose unique id is not there yet. -/
def accept (q : Queue) (job : QueuedJob) : Queue :=
  { q with
    lanes := q.lanes.push job
    jobs := q.jobs.insert job.uniqueId job
    tally := q.tally.add job.priority }

/-- Lets a job in that is in the store already, even into a full queue. -/
def reinstate (q : Queue) (job : QueuedJob) : Bool × Queue :=
  if q.contains job.uniqueId then (false, q) else (true, q.accept job)

/-- Takes the next ready job out of the queue. -/
def takeNext (q : Queue) (now : Int64) : Option QueuedJob × Queue :=
  match q.lanes.pop? now with
  | none => (none, q)
  | some (uniqueId, lanes) =>
    match q.jobs.get? uniqueId with
    | none => (none, { q with lanes })
    | some job =>
      (some job,
        { q with lanes, jobs := q.jobs.erase uniqueId, tally := q.tally.remove job.priority })

/-- Takes a job out of the queue, wherever it stands. -/
def take (q : Queue) (uniqueId : String) : Option (QueuedJob × Queue) :=
  (q.jobs.get? uniqueId).map fun job =>
    (job,
      { q with
        lanes := q.lanes.drop job
        jobs := q.jobs.erase uniqueId
        tally := q.tally.remove job.priority })

/-- Whole hours until a job is due, none for one that is due already. -/
def hoursUntil (now due : Int64) : Int64 :=
  let hours := (due - now) / 3600
  if hours < 0 then 0 else hours

/-- Counts one more under `hours`, in a list by rising hours. -/
def countHour (hours : Int64) : List (Int64 × Nat) → List (Int64 × Nat)
  | [] => [(hours, 1)]
  | (h, n) :: rest =>
    if hours < h then (hours, 1) :: (h, n) :: rest
    else if hours = h then (h, n + 1) :: rest
    else (h, n) :: countHour hours rest

/-- How many held jobs are how many hours away, by rising hours. -/
def heldByHour (q : Queue) (now : Int64) : List (Int64 × Nat) :=
  q.lanes.held.foldl (fun counts h => countHour (hoursUntil now h.due) counts) []

section Stored

variable {σ : Type} [JobStore σ]

/-- Writes a job to the store and lets it in; `false` when its unique id is queued already. A job
that cannot be stored leaves the queue as it was. -/
def enqueue (q : Queue) (j : Job) (store : σ) : Except JobError Bool × Queue × σ :=
  if q.contains j.uniqueId then (.ok false, q, store)
  else if q.isFull then (.error (.queueFull q.functionName q.maxSize), q, store)
  else
    match JobStore.write j store with
    | (.ok true, store) => (.ok true, q.accept j.summary, store)
    | (.ok false, store) =>
      (.error (.enqueue q.functionName j.uniqueId "rejected by persistence engine"), q, store)
    | (.error e, store) => (.error (.enqueue q.functionName j.uniqueId e.message), q, store)

/-- The record of a job that was taken out. A record that cannot be read counts as lost. -/
def resolve (q : Queue) (job : QueuedJob) (store : σ) : Option Job × σ :=
  match JobStore.find ⟨q.functionName, job.uniqueId⟩ store with
  | (.ok record, store) => (record, store)
  | (.error _, store) => (none, store)

/-- Takes the next ready job and reads its record. -/
def poll (q : Queue) (now : Int64) (store : σ) : Option Job × Queue × σ :=
  match q.takeNext now with
  | (none, q) => (none, q, store)
  | (some job, q) =>
    let (record, store) := q.resolve job store
    (record, q, store)

/-- Takes a job out of the queue and out of the store, if it is queued. The store may fail to
delete it. -/
def remove (q : Queue) (k : JobKey) (store : σ) : Bool × Queue × σ :=
  match q.take k.uniqueId with
  | none => (false, q, store)
  | some (_, q) => (true, q, (JobStore.delete k store).2)

end Stored

end Queue

end JobBroker
