import JobBroker.Session

/-!
# Crews

The workers that can do one function, and which of them sleep.
-/

namespace JobBroker

structure Crew where
  workers : List SessionId
  sleepers : List SessionId
deriving DecidableEq, Repr

namespace Crew

def empty : Crew := ⟨[], []⟩

def add (c : Crew) (id : SessionId) : Crew :=
  if id ∈ c.workers then c else { c with workers := c.workers ++ [id] }

def remove (c : Crew) (id : SessionId) : Crew :=
  ⟨c.workers.filter (· ≠ id), c.sleepers.filter (· ≠ id)⟩

def addSleeper (c : Crew) (id : SessionId) : Crew :=
  if id ∈ c.sleepers then c else { c with sleepers := c.sleepers ++ [id] }

def removeSleeper (c : Crew) (id : SessionId) : Crew :=
  { c with sleepers := c.sleepers.filter (· ≠ id) }

/-- Wakes all sleepers, and tells how many of them were indeed asleep. -/
def wakeAll (c : Crew) (ss : Sessions) : Nat × Crew × Sessions :=
  (c.sleepers.countP ss.isAsleep, { c with sleepers := [] }, ss.wake c.sleepers)

end Crew

end JobBroker
