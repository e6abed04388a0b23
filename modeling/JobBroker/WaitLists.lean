import JobBroker.Session

/-!
# Wait lists

Which sessions wait for the results of the jobs of one function. Several sessions may wait for one
job, and each waits for it once.
-/

namespace JobBroker

/-- By the unique id of the job, the waiting sessions in the order in which they came. -/
structure WaitLists where
  lists : Table String (List SessionId)
deriving Repr

namespace WaitLists

def empty : WaitLists := ⟨.empty⟩

def waiters (w : WaitLists) (uniqueId : String) : List SessionId :=
  (w.lists.get? uniqueId).getD []

/-- Puts a session last in the list of a job; `false` when it stands there already. -/
def register (w : WaitLists) (uniqueId : String) (id : SessionId) : Bool × WaitLists :=
  if id ∈ w.waiters uniqueId then (false, w)
  else (true, ⟨w.lists.insert uniqueId (w.waiters uniqueId ++ [id])⟩)

/-- Nobody waits for the job any more. -/
def release (w : WaitLists) (uniqueId : String) : WaitLists := ⟨w.lists.erase uniqueId⟩

/-- Releases a job, and gives the sessions that have waited for it. -/
def takeWaiters (w : WaitLists) (uniqueId : String) : List SessionId × WaitLists :=
  (w.waiters uniqueId, w.release uniqueId)

/-- Takes a session out of every list, and drops the lists that become empty. The number says by how
much the lists have become shorter. -/
def removeSession (w : WaitLists) (id : SessionId) : Nat × WaitLists :=
  (w.lists.values.foldr (fun ids n => ids.length - (ids.filter (· ≠ id)).length + n) 0,
    ⟨w.lists.filterMap fun ids =>
      match ids.filter (· ≠ id) with
      | [] => none
      | i :: rest => some (i :: rest)⟩)

/-- The number of jobs that somebody waits for. -/
def size (w : WaitLists) : Nat := w.lists.size

theorem waiters_register (w : WaitLists) (u v : String) (id : SessionId) :
    (w.register u id).2.waiters v =
      if u = v ∧ id ∉ w.waiters u then w.waiters u ++ [id] else w.waiters v := by
  unfold register
  split
  · next h => simp [h]
  · next h =>
    show ((w.lists.insert u _).get? v).getD [] = _
    rw [Table.get?_insert]
    by_cases hu : u = v
    · rw [if_pos hu, if_pos ⟨hu, h⟩]; rfl
    · rw [if_neg hu, if_neg fun hv => hu hv.1]; rfl

theorem waiters_release (w : WaitLists) (u v : String) :
    (w.release u).waiters v = if u = v then [] else w.waiters v := by
  by_cases h : u = v <;> simp [release, waiters, h]

theorem waiters_removeSession (w : WaitLists) (id : SessionId) (u : String) :
    (w.removeSession id).2.waiters u = (w.waiters u).filter (· ≠ id) := by
  simp only [waiters, removeSession, Table.get?_filterMap]
  cases w.lists.get? u with
  | none => rfl
  | some ids =>
    simp only [Option.bind_some, Option.getD_some]
    cases ids.filter (· ≠ id) <;> rfl

end WaitLists

end JobBroker
