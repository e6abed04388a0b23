import JobBroker.Store.Basic
import JobBroker.Table
import JobBroker.Text.Order

/-!
# A store in memory

The records of each function stand in a table of their own, and a function without records has
none. No call fails.

* `MemoryStore.find?_insert`, `MemoryStore.find?_erase` : the store is a map from keys to records.
-/

namespace JobBroker

structure MemoryStore where
  jobs : Table String (Table String Job)
deriving Repr

namespace MemoryStore

open Text

def empty : MemoryStore := ⟨.empty⟩

instance : Inhabited MemoryStore := ⟨empty⟩

def ofFunction (s : MemoryStore) (functionName : String) : Table String Job :=
  (s.jobs.get? functionName).getD .empty

def find? (s : MemoryStore) (k : JobKey) : Option Job :=
  (s.ofFunction k.functionName).get? k.uniqueId

def insert (s : MemoryStore) (j : Job) : MemoryStore :=
  ⟨s.jobs.insert j.functionName ((s.ofFunction j.functionName).insert j.uniqueId j)⟩

def erase (s : MemoryStore) (k : JobKey) : MemoryStore :=
  let rest := (s.ofFunction k.functionName).erase k.uniqueId
  if rest.isEmpty then ⟨s.jobs.erase k.functionName⟩ else ⟨s.jobs.insert k.functionName rest⟩

/-- The number of records. -/
def size (s : MemoryStore) : Nat := s.jobs.values.foldr (fun jobs n => jobs.size + n) 0

def isEmpty (s : MemoryStore) : Bool := s.size == 0

/-- Every record, ordered by key. -/
def toList (s : MemoryStore) : List Job :=
  sortBy (fun a b => pairLE (a.functionName, a.uniqueId) (b.functionName, b.uniqueId))
    (s.jobs.values.flatMap Table.values)

instance : JobStore MemoryStore where
  name _ := "memory"
  write j s := (.ok true, s.insert j)
  delete k s := (.ok (), s.erase k)
  deleteAll _ := (.ok (), empty)
  find k s := (.ok (s.find? k), s)
  readAll s := (.ok (s.toList.map Job.summary), s)
  ofFunction f s := (.ok ((sortOn Job.uniqueId (s.ofFunction f).values).map Job.summary), s)

@[simp] theorem find?_empty (k : JobKey) : empty.find? k = none := rfl

theorem ofFunction_insert (s : MemoryStore) (j : Job) (f : String) :
    (s.insert j).ofFunction f =
      if j.functionName = f then (s.ofFunction f).insert j.uniqueId j else s.ofFunction f := by
  by_cases h : j.functionName = f <;> simp [ofFunction, insert, h]

@[simp] theorem find?_insert (s : MemoryStore) (j : Job) (k : JobKey) :
    (s.insert j).find? k = if j.key = k then some j else s.find? k := by
  obtain ⟨f, u⟩ := k
  simp only [find?, ofFunction_insert, Job.key, JobKey.mk.injEq]
  by_cases h : j.functionName = f <;> simp [h]

theorem get?_of_isEmpty {κ α : Type} [DecidableEq κ] {t : Table κ α} (h : t.isEmpty) (k : κ) :
    t.get? k = none := by
  obtain ⟨es, nd⟩ := t
  cases es with
  | nil => rfl
  | cons e es => simp [Table.isEmpty] at h

@[simp] theorem find?_erase (s : MemoryStore) (k k' : JobKey) :
    (s.erase k).find? k' = if k = k' then none else s.find? k' := by
  obtain ⟨f, u⟩ := k
  obtain ⟨f', u'⟩ := k'
  have hf : ∀ v, ((s.ofFunction f).erase u).get? v = if u = v then none
      else (s.ofFunction f).get? v := fun v => Table.get?_erase _ _ _
  simp only [find?, erase, JobKey.mk.injEq]
  by_cases h : f = f'
  · subst h
    split
    · next he =>
      have := get?_of_isEmpty he u'
      rw [hf] at this
      simpa [ofFunction, eq_comm] using this
    · simp [ofFunction]
  · split <;> simp [ofFunction, h]

end MemoryStore

end JobBroker
