import JobBroker.Job.Basic

/-!
# Lanes

The unique ids of the queued jobs of one function, in the order in which they will be handed out:
one lane for each priority, and the held jobs by the time at which they are due.
-/

namespace JobBroker

/-- A job that waits for its time. -/
structure HeldJob where
  due : Int64
  uniqueId : String
deriving DecidableEq, Repr

structure Lanes where
  high : List String
  normal : List String
  low : List String
  /-- By rising time; jobs due at the same time stand in the order in which they came. -/
  held : List HeldJob
deriving DecidableEq, Repr

namespace Lanes

def empty : Lanes := ⟨[], [], [], []⟩

/-- Puts a held job behind all that are due no later. -/
def hold (h : HeldJob) : List HeldJob → List HeldJob
  | [] => [h]
  | g :: gs => if h.due < g.due then h :: g :: gs else g :: hold h gs

/-- Puts a job last in its lane, or among the held jobs. -/
def push (l : Lanes) (q : QueuedJob) : Lanes :=
  if q.isHeld then { l with held := hold ⟨q.timeToRun, q.uniqueId⟩ l.held }
  else
    match q.priority with
    | .high => { l with high := l.high ++ [q.uniqueId] }
    | .normal => { l with normal := l.normal ++ [q.uniqueId] }
    | .low => { l with low := l.low ++ [q.uniqueId] }

/-- Some held job has come due. -/
def isDue (l : Lanes) (now : Int64) : Bool := l.held.head?.any fun h => decide (h.due ≤ now)

/-- Some job may be handed out. -/
def hasReady (l : Lanes) (now : Int64) : Bool :=
  !l.high.isEmpty || !l.normal.isEmpty || !l.low.isEmpty || l.isDue now

/-- The first of a lane of normal or low jobs, normal ones before low ones. -/
def popPlain (l : Lanes) : Option (String × Lanes) :=
  match l.normal, l.low with
  | u :: rest, _ => some (u, { l with normal := rest })
  | [], u :: rest => some (u, { l with low := rest })
  | [], [] => none

/-- Takes the next job: one of high priority, else a held one that has come due, else a normal one,
else a low one. -/
def pop? (l : Lanes) (now : Int64) : Option (String × Lanes) :=
  match l.high with
  | u :: rest => some (u, { l with high := rest })
  | [] =>
    match l.held with
    | h :: rest => if h.due ≤ now then some (h.uniqueId, { l with held := rest }) else l.popPlain
    | [] => l.popPlain

/-- Takes a job out of the place that `push` has put it in. -/
def drop (l : Lanes) (q : QueuedJob) : Lanes :=
  if q.isHeld then { l with held := l.held.filter (·.uniqueId ≠ q.uniqueId) }
  else
    match q.priority with
    | .high => { l with high := l.high.filter (· ≠ q.uniqueId) }
    | .normal => { l with normal := l.normal.filter (· ≠ q.uniqueId) }
    | .low => { l with low := l.low.filter (· ≠ q.uniqueId) }

/-- `hasReady` tells whether there is a next job. -/
theorem isSome_pop? (l : Lanes) (now : Int64) : (l.pop? now).isSome = l.hasReady now := by
  obtain ⟨high, normal, low, held⟩ := l
  cases high <;> cases held <;> cases normal <;> cases low <;>
    simp [pop?, popPlain, hasReady, isDue] <;> split <;> simp_all

end Lanes

end JobBroker
