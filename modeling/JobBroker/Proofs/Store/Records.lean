import JobBroker.Store.Faulty
import JobBroker.Store.Memory
import Mathlib.Data.List.Nodup

/-!
# Stores that keep records

What may be relied on when the calls of a store fail: a call that fails changes no record, and a
record that was written stays until it is deleted or written over.

* `RecordStore` : the laws of such a store.
* `UnreliableStore` : a store in memory each call of which may fail, as a plan says.
* `DeletesRecords.deleteEach` : a record is gone when it was deleted and the store said so.
-/

namespace JobBroker

open Function (update)

/-- A store over a map of records. Finds and deletes may go wrong; the store remembers whether one
has. -/
class RecordStore (σ : Type) [JobStore σ] where
  record? : σ → JobKey → Option Job
  /-- A find has missed a record, or a delete has failed. -/
  hasErred : σ → Prop
  record?_write : ∀ {j : Job} {s s' : σ}, JobStore.write j s = (.ok true, s') →
    record? s' = update (record? s) j.key (some j)
  record?_write_of_ne : ∀ {j : Job} {s s' : σ} {reply}, JobStore.write j s = (reply, s') →
    reply ≠ .ok true → record? s' = record? s
  record?_find : ∀ {k : JobKey} {s s' : σ} {reply}, JobStore.find k s = (reply, s') →
    record? s' = record? s
  record?_of_find : ∀ {k : JobKey} {s s' : σ} {j : Job}, JobStore.find k s = (.ok (some j), s') →
    record? s k = some j
  hasErred_of_find : ∀ {k : JobKey} {s s' : σ} {reply}, JobStore.find k s = (reply, s') →
    (∀ j, reply ≠ .ok (some j)) → record? s k = none ∨ hasErred s'
  record?_delete : ∀ (k : JobKey) (s : σ),
    record? (JobStore.delete k s).2 = update (record? s) k none ∨
      record? (JobStore.delete k s).2 = record? s ∧ hasErred (JobStore.delete k s).2
  hasErred_write : ∀ {j : Job} {s s' : σ} {reply}, JobStore.write j s = (reply, s') →
    hasErred s → hasErred s'
  hasErred_find : ∀ {k : JobKey} {s s' : σ} {reply}, JobStore.find k s = (reply, s') →
    hasErred s → hasErred s'
  hasErred_delete : ∀ (k : JobKey) (s : σ), hasErred s → hasErred (JobStore.delete k s).2

namespace MemoryStore

theorem find?_insert_eq (s : MemoryStore) (j : Job) :
    (s.insert j).find? = update s.find? j.key (some j) := by
  funext k
  rw [find?_insert, Function.update_apply]
  exact if_congr eq_comm rfl rfl

theorem find?_erase_eq (s : MemoryStore) (k : JobKey) :
    (s.erase k).find? = update s.find? k none := by
  funext k'
  rw [find?_erase, Function.update_apply]
  exact if_congr eq_comm rfl rfl

theorem find?_eq_some_iff {s : MemoryStore} {k : JobKey} {j : Job} : s.find? k = some j ↔
    ∃ t, (k.functionName, t) ∈ s.jobs.entries ∧ (k.uniqueId, j) ∈ t.entries := by
  simp only [← Table.get?_eq_some_iff, find?, ofFunction]
  cases s.jobs.get? k.functionName <;> simp

section Listing

variable {s : MemoryStore} (hs : ∀ {k j}, s.find? k = some j → j.key = k)
include hs

/-- The list of all records holds each record of the store. -/
theorem mem_toList {j : Job} : j ∈ s.toList ↔ s.find? j.key = some j := by
  have hlist : j ∈ s.toList ↔ ∃ k, s.find? k = some j := by
    rw [toList, (Text.sortBy_perm _).mem_iff, List.mem_flatMap]
    constructor
    · rintro ⟨t, ht, hj⟩
      obtain ⟨⟨f, _⟩, hf, rfl⟩ := List.mem_map.mp ht
      obtain ⟨⟨u, _⟩, hu, rfl⟩ := List.mem_map.mp hj
      exact ⟨⟨f, u⟩, find?_eq_some_iff.mpr ⟨_, hf, hu⟩⟩
    · rintro ⟨k, hk⟩
      obtain ⟨t, ht, hj⟩ := find?_eq_some_iff.mp hk
      exact ⟨t, List.mem_map_of_mem ht, List.mem_map_of_mem hj⟩
  rw [hlist]
  exact ⟨fun ⟨k, hk⟩ => (hs hk).symm ▸ hk, fun h => ⟨_, h⟩⟩

/-- No two records in the list of all have the same key. -/
theorem nodup_keys_toList : (s.toList.map Job.key).Nodup := by
  have hkeys : (s.jobs.values.flatMap Table.values).map Job.key =
      s.jobs.entries.flatMap fun row => row.2.entries.map fun entry => ⟨row.1, entry.1⟩ := by
    simp only [Table.values, List.flatMap_map, List.map_flatMap, List.map_map]
    refine List.flatMap_congr fun row hrow => List.map_congr_left fun entry hentry => ?_
    exact hs (k := ⟨row.1, entry.1⟩) (find?_eq_some_iff.mpr ⟨row.2, hrow, hentry⟩)
  rw [toList, ((Text.sortBy_perm _).map Job.key).nodup_iff, hkeys, List.nodup_flatMap]
  constructor
  · intro row _
    have hnodup := row.2.nodup.map (f := JobKey.mk row.1) fun _ _ h => congrArg JobKey.uniqueId h
    rwa [List.map_map] at hnodup
  · refine (List.pairwise_map.mp s.jobs.nodup).imp fun hne k hk hk' => hne ?_
    obtain ⟨entry, -, rfl⟩ := List.mem_map.mp hk
    obtain ⟨entry', -, hk'⟩ := List.mem_map.mp hk'
    exact (congrArg JobKey.functionName hk').symm

end Listing

/-- No call on a store in memory goes wrong. -/
instance : RecordStore MemoryStore where
  record? := find?
  hasErred _ := False
  record?_write := by
    rintro j s s' ⟨⟩
    exact find?_insert_eq s j
  record?_write_of_ne := by
    rintro j s s' reply ⟨⟩ h
    exact absurd rfl h
  record?_find := by
    rintro k s s' reply ⟨⟩
    rfl
  record?_of_find := by
    intro k s s' j h
    exact Except.ok.inj (congrArg Prod.fst h)
  hasErred_of_find := by
    rintro k s s' reply ⟨⟩ h
    exact .inl (Option.eq_none_iff_forall_ne_some.mpr fun j hj => h j (congrArg Except.ok hj))
  record?_delete := fun k s => .inl (find?_erase_eq s k)
  hasErred_write := fun _ => id
  hasErred_find := fun _ => id
  hasErred_delete := fun _ _ => id

end MemoryStore

/-! ### A store whose calls fail by a plan -/

/-- A store in memory. The plan says of each call, by its number, whether and how it fails. -/
structure UnreliableStore where
  records : MemoryStore
  plan : Nat → Option Fault
  /-- How many calls there have been. -/
  calls : Nat
  /-- A find has missed a record, or a delete has failed. -/
  hasErred : Bool

namespace UnreliableStore

def new (plan : Nat → Option Fault) : UnreliableStore := ⟨.empty, plan, 0, false⟩

/-- The faults of the next call, whatever it is. -/
def faults (s : UnreliableStore) : Faults :=
  let fault := s.plan s.calls
  ⟨fun _ => fault, fun _ => fault, fun _ => fault.isSome, fault.isSome⟩

/-- One call. `goesWrong` tells by the answer whether the store has erred. -/
def call {α : Type} (s : UnreliableStore)
    (op : FaultyStore MemoryStore → Except JobError α × FaultyStore MemoryStore)
    (goesWrong : Except JobError α → Bool) : Except JobError α × UnreliableStore :=
  let (answer, below) := op ⟨s.records, s.faults⟩
  (answer, { s with
    records := below.store
    calls := s.calls + 1
    hasErred := s.hasErred || goesWrong answer })

/-- A find that does not give the record there is has gone wrong. -/
def misses (record : Option Job) : Except JobError (Option Job) → Bool
  | .ok answer => decide (answer ≠ record)
  | .error _ => true

def fails {α : Type} : Except JobError α → Bool
  | .ok _ => false
  | .error _ => true

instance : JobStore UnreliableStore where
  name s := JobStore.name s.records
  write j s := s.call (JobStore.write j) fun _ => false
  delete k s := s.call (JobStore.delete k) fails
  deleteAll s := s.call JobStore.deleteAll fails
  find k s := s.call (JobStore.find k) (misses (s.records.find? k))
  readAll s := s.call JobStore.readAll fun _ => false
  ofFunction f s := s.call (JobStore.ofFunction f) fun _ => false

theorem write_cases (j : Job) (s : UnreliableStore) :
    JobStore.write j s =
        (.ok true, { s with records := s.records.insert j, calls := s.calls + 1 }) ∨
      ∃ reply, reply ≠ .ok true ∧
        JobStore.write j s = (reply, { s with calls := s.calls + 1 }) := by
  rcases hplan : s.plan s.calls with _ | _ | _
  · exact .inl (by simp [JobStore.write, call, faults, hplan, FaultyStore.through])
  · exact .inr ⟨FaultyStore.refused "write", by simp [FaultyStore.refused],
      by simp [JobStore.write, call, faults, hplan]⟩
  · exact .inr ⟨.ok false, by simp, by simp [JobStore.write, call, faults, hplan]⟩

theorem find_cases (k : JobKey) (s : UnreliableStore) :
    JobStore.find k s = (.ok (s.records.find? k), { s with calls := s.calls + 1 }) ∨
      ∃ reply, (∀ j, reply ≠ .ok (some j)) ∧ JobStore.find k s =
        (reply, { s with
          calls := s.calls + 1
          hasErred := s.hasErred || misses (s.records.find? k) reply }) := by
  rcases hplan : s.plan s.calls with _ | _ | _
  · exact .inl (by simp [JobStore.find, call, faults, hplan, FaultyStore.through, misses])
  · exact .inr ⟨FaultyStore.refused "find", by simp [FaultyStore.refused],
      by simp [JobStore.find, call, faults, hplan]⟩
  · exact .inr ⟨.ok none, by simp, by simp [JobStore.find, call, faults, hplan]⟩

theorem delete_cases (k : JobKey) (s : UnreliableStore) :
    JobStore.delete k s = (.ok (), { s with records := s.records.erase k, calls := s.calls + 1 }) ∨
      ∃ err, JobStore.delete k s =
        (.error err, { s with calls := s.calls + 1, hasErred := true }) := by
  rcases hplan : s.plan s.calls with _ | _ | _
  · exact .inl (by simp [JobStore.delete, call, faults, hplan, FaultyStore.through, fails])
  all_goals
    exact .inr ⟨_, by simp [JobStore.delete, call, faults, hplan, FaultyStore.refused, fails]; rfl⟩

theorem records_readAll (s : UnreliableStore) : (JobStore.readAll s).2.records = s.records := by
  show (if s.faults.readAll then (FaultyStore.refused "read_all", ⟨s.records, s.faults⟩)
    else FaultyStore.through JobStore.readAll ⟨s.records, s.faults⟩).2.store = s.records
  split <;> rfl

/-- A find that gives no record has erred, or there is none. -/
theorem misses_or_eq_none {record : Option Job} {reply : Except JobError (Option Job)}
    (h : ∀ j, reply ≠ .ok (some j)) : record = none ∨ misses record reply = true := by
  rcases reply with err | _ | j
  · exact .inr rfl
  · cases record <;> simp [misses]
  · exact absurd rfl (h j)

instance : RecordStore UnreliableStore where
  record? s := s.records.find?
  hasErred s := s.hasErred = true
  record?_write := by
    intro j s s' h
    rcases write_cases j s with hw | ⟨reply, hne, hw⟩
    · obtain ⟨-, rfl⟩ := Prod.mk.inj (hw.symm.trans h)
      exact MemoryStore.find?_insert_eq s.records j
    · exact absurd (congrArg Prod.fst (hw.symm.trans h)) hne
  record?_write_of_ne := by
    intro j s s' reply h hne
    rcases write_cases j s with hw | ⟨reply, -, hw⟩
    · exact absurd (congrArg Prod.fst (hw.symm.trans h)).symm hne
    · obtain ⟨-, rfl⟩ := Prod.mk.inj (hw.symm.trans h)
      rfl
  record?_find := by
    intro k s s' reply h
    rcases find_cases k s with hf | ⟨reply, -, hf⟩ <;>
      obtain ⟨-, rfl⟩ := Prod.mk.inj (hf.symm.trans h) <;> rfl
  record?_of_find := by
    intro k s s' j h
    rcases find_cases k s with hf | ⟨reply, hne, hf⟩
    · exact Except.ok.inj (congrArg Prod.fst (hf.symm.trans h))
    · exact absurd (congrArg Prod.fst (hf.symm.trans h)) (hne j)
  hasErred_of_find := by
    intro k s s' reply h hmiss
    rcases find_cases k s with hf | ⟨reply, hne, hf⟩
    · obtain ⟨rfl, -⟩ := Prod.mk.inj (hf.symm.trans h)
      exact .inl (Option.eq_none_iff_forall_ne_some.mpr fun j hj => hmiss j (congrArg _ hj))
    · obtain ⟨-, rfl⟩ := Prod.mk.inj (hf.symm.trans h)
      exact (misses_or_eq_none hne).imp_right fun hm => by simp [hm]
  record?_delete := by
    intro k s
    rcases delete_cases k s with hd | ⟨err, hd⟩ <;> rw [hd]
    · exact .inl (MemoryStore.find?_erase_eq s.records k)
    · exact .inr ⟨rfl, rfl⟩
  hasErred_write := by
    intro j s s' reply h herred
    rcases write_cases j s with hw | ⟨reply, -, hw⟩ <;>
      obtain ⟨-, rfl⟩ := Prod.mk.inj (hw.symm.trans h) <;> exact herred
  hasErred_find := by
    intro k s s' reply h herred
    rcases find_cases k s with hf | ⟨reply, -, hf⟩ <;>
      obtain ⟨-, rfl⟩ := Prod.mk.inj (hf.symm.trans h) <;> simp [herred]
  hasErred_delete := by
    intro k s herred
    rcases delete_cases k s with hd | ⟨err, hd⟩ <;> rw [hd]
    exact herred

end UnreliableStore

/-! ### Records that are deleted -/

section Deletes

variable {σ : Type} [JobStore σ]

/-- Deletes some records one after the other. The answers stand with their keys. -/
def deleteEach : List JobKey → σ → List (JobKey × Except JobError Unit) × σ
  | [], s => ([], s)
  | k :: ks, s =>
    let (answer, s) := JobStore.delete k s
    let (answers, s) := deleteEach ks s
    ((k, answer) :: answers, s)

/-- The records are those of a store that means what it says: a delete that is answered with success
has taken out the record of its key, and no delete brings a record in. -/
structure DeletesRecords (record? : σ → JobKey → Option Job) : Prop where
  absent : ∀ {k s} k', record? s k = none → record? (JobStore.delete k' s).2 k = none
  gone : ∀ {k s}, (JobStore.delete k s).1 = .ok () → record? (JobStore.delete k s).2 k = none

variable {record? : σ → JobKey → Option Job} {k : JobKey}

theorem DeletesRecords.deleteEach_of_none (h : DeletesRecords record?) (ks : List JobKey) {s : σ}
    (hk : record? s k = none) : record? (deleteEach ks s).2 k = none := by
  induction ks generalizing s with
  | nil => exact hk
  | cons k' ks ih => exact ih (h.absent k' hk)

theorem DeletesRecords.deleteEach (h : DeletesRecords record?) {ks : List JobKey} {s : σ}
    (hk : (k, .ok ()) ∈ (deleteEach ks s).1) : record? (deleteEach ks s).2 k = none := by
  induction ks generalizing s with
  | nil => exact absurd hk List.not_mem_nil
  | cons k' ks ih =>
    rcases List.mem_cons.mp hk with heq | hk
    · obtain ⟨rfl, hanswer⟩ := Prod.mk.inj heq
      exact h.deleteEach_of_none ks (h.gone hanswer.symm)
    · exact ih hk

theorem MemoryStore.deletesRecords : DeletesRecords MemoryStore.find? where
  absent k' hk := by
    refine (congrFun (MemoryStore.find?_erase_eq _ k') _).trans ?_
    rw [Function.update_apply]
    split
    · rfl
    · exact hk
  gone _ := (congrFun (MemoryStore.find?_erase_eq _ _) _).trans (Function.update_self ..)

end Deletes

end JobBroker
