import JobBroker.Store.Basic

/-!
# A store with faults

A store some calls of which fail. A call that fails does nothing else.
-/

namespace JobBroker

/-- How a call fails: with an error, or by declining a record or missing one. -/
inductive Fault
  | refuse
  | decline
deriving DecidableEq, Repr

/-- Which calls fail. -/
structure Faults where
  write : JobKey → Option Fault
  find : JobKey → Option Fault
  delete : JobKey → Bool
  readAll : Bool

namespace Faults

def none : Faults := ⟨fun _ => .none, fun _ => .none, fun _ => false, false⟩

end Faults

structure FaultyStore (σ : Type) where
  store : σ
  faults : Faults

namespace FaultyStore

variable {σ : Type}

def refused {α : Type} (call : String) : Except JobError α :=
  .error (.persistence (call ++ " refused"))

/-- Lets a call through to the store below. -/
def through {α : Type} (call : σ → Except JobError α × σ) (s : FaultyStore σ) :
    Except JobError α × FaultyStore σ :=
  let (answer, store) := call s.store
  (answer, { s with store })

instance [JobStore σ] : JobStore (FaultyStore σ) where
  name s := JobStore.name s.store
  write j s :=
    match s.faults.write j.key with
    | none => s.through (JobStore.write j)
    | some .refuse => (refused "write", s)
    | some .decline => (.ok false, s)
  delete k s := if s.faults.delete k then (refused "delete", s) else s.through (JobStore.delete k)
  deleteAll s := s.through JobStore.deleteAll
  find k s :=
    match s.faults.find k with
    | none => s.through (JobStore.find k)
    | some .refuse => (refused "find", s)
    | some .decline => (.ok none, s)
  readAll s := if s.faults.readAll then (refused "read_all", s) else s.through JobStore.readAll
  ofFunction f s := s.through (JobStore.ofFunction f)

end FaultyStore

end JobBroker
