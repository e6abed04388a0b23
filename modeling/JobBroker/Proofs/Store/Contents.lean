import JobBroker.Proofs.Store.Agreement

/-!
# What a store in memory holds

A store in memory is a finite map from keys to jobs. After any calls it holds under each key the job
that was written there last and not deleted since, its listings and its size are those of that map,
and no function without jobs stays behind.

* `lastWritten` : that map, read off the calls alone.
* `IsMap` : the store holds and tells what a map says.
* `isMap_afterAll` : it does, after any calls.
-/

namespace JobBroker

/-! ### What the calls say -/

namespace StoreCall

variable {k : JobKey} {j : Job} {c : StoreCall} {cs : List StoreCall}

/-- What a call leaves under a key, if it alters that at all. -/
def leaves? (k : JobKey) : StoreCall → Option (Option Job)
  | .write j => if j.key = k then some (some j) else none
  | .delete j => if j.key = k then some none else none
  | .deleteById k' => if k' = k then some none else none
  | .deleteAll => some none
  | .find _ | .readAll | .ofFunction _ => none

/-- The job that was written last under a key and not deleted since: the last call that alters what
is under the key decides. -/
def lastWritten (cs : List StoreCall) (k : JobKey) : Option Job :=
  (cs.reverse.findSome? (leaves? k)).join

theorem lastWritten_concat (cs : List StoreCall) (c : StoreCall) (k : JobKey) :
    lastWritten (cs ++ [c]) k = (c.leaves? k).getD (lastWritten cs k) := by
  rw [lastWritten, List.reverse_append, List.reverse_singleton, List.singleton_append,
    List.findSome?_cons]
  cases c.leaves? k <;> rfl

/-- Only a write under a key leaves a job there. -/
theorem leaves?_eq_some_some_iff : c.leaves? k = some (some j) ↔ c = .write j ∧ j.key = k := by
  cases c with
  | write i =>
    simp only [leaves?, Option.ite_none_right_eq_some, Option.some.injEq, StoreCall.write.injEq]
    constructor
    · rintro ⟨hkey, rfl⟩
      exact ⟨rfl, hkey⟩
    · rintro ⟨rfl, hkey⟩
      exact ⟨hkey, rfl⟩
  | delete _ | deleteById _ | deleteAll | find _ | readAll | ofFunction _ => simp [leaves?]

theorem lastWritten_eq_some_iff : lastWritten cs k = some j ↔
    ∃ past later, cs = past ++ .write j :: later ∧ j.key = k ∧ ∀ c ∈ later, c.leaves? k = none := by
  rw [lastWritten, Option.join_eq_some_iff, List.findSome?_eq_some_iff]
  constructor
  · rintro ⟨later, c, past, hrev, hc, hlater⟩
    obtain ⟨rfl, hkey⟩ := leaves?_eq_some_some_iff.mp hc
    refine ⟨past.reverse, later.reverse, ?_, hkey, fun c hc => hlater c (List.mem_reverse.mp hc)⟩
    simpa using congrArg List.reverse hrev
  · rintro ⟨past, later, rfl, hkey, hlater⟩
    refine ⟨later.reverse, .write j, past.reverse, by simp, ?_, fun c hc => ?_⟩
    · exact leaves?_eq_some_some_iff.mpr ⟨rfl, hkey⟩
    · exact hlater c (List.mem_reverse.mp hc)

/-- A job that is written again after a delete stands as it was written then. -/
example : lastWritten [.write (.new "f" "u" [1]), .delete (.new "f" "u" []),
    .write (.new "f" "u" [2]), .deleteById ⟨"f", "v"⟩, .readAll] ⟨"f", "u"⟩ =
      some (.new "f" "u" [2]) := by
  decide

theorem key_of_lastWritten (h : lastWritten cs k = some j) : j.key = k := by
  obtain ⟨_, _, -, hkey, -⟩ := lastWritten_eq_some_iff.mp h
  exact hkey

end StoreCall

theorem Table.exists_get?_of_isEmpty_eq_false {κ α : Type} [DecidableEq κ] {t : Table κ α}
    (h : t.isEmpty = false) : ∃ k a, t.get? k = some a := by
  obtain ⟨⟨k, a⟩, hentry⟩ := List.isEmpty_eq_false_iff_exists_mem.mp h
  exact ⟨k, a, get?_eq_some_iff.mpr hentry⟩

namespace MemoryStore

open StoreCall (lastWritten leaves?)

variable {s : MemoryStore}

/-- The store after some calls, one after the other. -/
def afterAll (s : MemoryStore) (cs : List StoreCall) : MemoryStore :=
  cs.foldl (fun s c => (c.run s).2) s

/-! ### One call -/

theorem find?_run (s : MemoryStore) (c : StoreCall) (k : JobKey) :
    (c.run s).2.find? k = (c.leaves? k).getD (s.find? k) := by
  cases c with
  | write j =>
    refine (find?_insert s j k).trans ?_
    by_cases h : j.key = k <;> simp [leaves?, h]
  | delete j =>
    refine (find?_erase s j.key k).trans ?_
    by_cases h : j.key = k <;> simp [leaves?, h]
  | deleteById k' =>
    refine (find?_erase s k' k).trans ?_
    by_cases h : k' = k <;> simp [leaves?, h]
  | deleteAll => rfl
  | find _ => rfl
  | readAll => rfl
  | ofFunction _ => rfl

/-- Every function that has a table has a job in it. -/
def Pruned (s : MemoryStore) : Prop :=
  ∀ f jobs, s.jobs.get? f = some jobs → ∃ u j, jobs.get? u = some j

theorem Pruned.insert (h : s.Pruned) (j : Job) : (s.insert j).Pruned := by
  intro f jobs hjobs
  rw [MemoryStore.insert, Table.get?_insert] at hjobs
  split at hjobs
  · obtain rfl := Option.some.inj hjobs
    exact ⟨j.uniqueId, j, by simp⟩
  · exact h f jobs hjobs

theorem Pruned.erase (h : s.Pruned) (k : JobKey) : (s.erase k).Pruned := by
  intro f jobs hjobs
  simp only [MemoryStore.erase] at hjobs
  split at hjobs
  · rw [Table.get?_erase] at hjobs
    split at hjobs
    · cases hjobs
    · exact h f jobs hjobs
  · next hrest =>
    rw [Table.get?_insert] at hjobs
    split at hjobs
    · obtain rfl := Option.some.inj hjobs
      exact Table.exists_get?_of_isEmpty_eq_false (Bool.eq_false_iff.mpr hrest)
    · exact h f jobs hjobs

theorem Pruned.run (h : s.Pruned) (c : StoreCall) : (c.run s).2.Pruned := by
  cases c with
  | write j => exact h.insert j
  | delete j => exact h.erase j.key
  | deleteById k => exact h.erase k
  | deleteAll => exact fun f jobs hjobs => nomatch hjobs
  | find _ => exact h
  | readAll => exact h
  | ofFunction _ => exact h

/-! ### Any calls -/

theorem find?_afterAll (cs : List StoreCall) : (empty.afterAll cs).find? = lastWritten cs := by
  induction cs using List.reverseRecOn with
  | nil => rfl
  | append_singleton cs c ih =>
    funext k
    rw [StoreCall.lastWritten_concat, ← ih, afterAll, List.foldl_concat]
    exact find?_run _ c k

theorem pruned_afterAll (cs : List StoreCall) : (empty.afterAll cs).Pruned := by
  induction cs using List.reverseRecOn with
  | nil => exact fun f jobs hjobs => nomatch hjobs
  | append_singleton cs c ih =>
    rw [afterAll, List.foldl_concat]
    exact ih.run c

/-! ### What the store tells -/

/-- A list of the jobs that a map has under some of the keys, each once. -/
structure Enumerates (js : List Job) (map : JobKey → Option Job) (ofInterest : JobKey → Prop) :
    Prop where
  nodup : (js.map Job.key).Nodup
  mem_iff : ∀ k j, j ∈ js ∧ j.key = k ↔ ofInterest k ∧ map k = some j

/-- The store holds what the map says, and every call that reads it is answered from the map. -/
structure IsMap (s : MemoryStore) (map : JobKey → Option Job) : Prop where
  get?_jobs : ∀ f u, (s.jobs.get? f).bind (·.get? u) = map ⟨f, u⟩
  exists_of_get?_jobs : ∀ f jobs, s.jobs.get? f = some jobs → ∃ u j, map ⟨f, u⟩ = some j
  find : ∀ k, JobStore.find k s = (.ok (map k), s)
  readAll : ∃ js, Enumerates js map (fun _ => True) ∧
    JobStore.readAll s = (.ok (js.map Job.summary), s)
  ofFunction : ∀ f, ∃ js, Enumerates js map (·.functionName = f) ∧
    JobStore.ofFunction f s = (.ok (js.map Job.summary), s)
  size : ∃ ks : List JobKey, ks.Nodup ∧ (∀ k, k ∈ ks ↔ map k ≠ none) ∧ s.size = ks.length
  isEmpty_iff : s.isEmpty = true ↔ ∀ k, map k = none

theorem get?_jobs_bind (s : MemoryStore) (f u : String) :
    (s.jobs.get? f).bind (·.get? u) = s.find? ⟨f, u⟩ := by
  rw [find?, MemoryStore.ofFunction]
  cases s.jobs.get? f <;> rfl

theorem length_toList (s : MemoryStore) : s.toList.length = s.size := by
  rw [toList, (Text.sortBy_perm _).length_eq, MemoryStore.size]
  induction s.jobs.values with
  | nil => rfl
  | cons jobs rows ih =>
    rw [List.flatMap_cons, List.length_append, ih, List.foldr_cons, Table.values, List.length_map,
      Table.size]

section Listing

variable (hkey : ∀ {k j}, s.find? k = some j → j.key = k)
include hkey

theorem Lists.enumerates {P : String → Prop} {js : List Job} (h : s.Lists P js) :
    Enumerates js s.find? (P ·.functionName) where
  nodup := by
    refine h.1.map_on fun j hj j' hj' heq => ?_
    have hfind := ((h.2 j).mp hj).2
    rw [heq, ((h.2 j').mp hj').2] at hfind
    exact (Option.some.inj hfind).symm
  mem_iff k j := by
    constructor
    · rintro ⟨hj, rfl⟩
      exact (h.2 j).mp hj
    · rintro ⟨hP, hfind⟩
      obtain rfl := hkey hfind
      exact ⟨(h.2 j).mpr ⟨hP, hfind⟩, rfl⟩

theorem exists_keys_size_eq : ∃ ks : List JobKey, ks.Nodup ∧
    (∀ k, k ∈ ks ↔ s.find? k ≠ none) ∧ s.size = ks.length := by
  refine ⟨s.toList.map Job.key, nodup_keys_toList hkey, fun k => ?_, ?_⟩
  · rw [List.mem_map, Option.ne_none_iff_exists']
    constructor
    · rintro ⟨j, hj, rfl⟩
      exact ⟨j, (mem_toList hkey).mp hj⟩
    · rintro ⟨j, hfind⟩
      obtain rfl := hkey hfind
      exact ⟨j, (mem_toList hkey).mpr hfind, rfl⟩
  · rw [List.length_map, length_toList]

theorem isEmpty_iff_find?_eq_none : s.isEmpty = true ↔ ∀ k, s.find? k = none := by
  obtain ⟨ks, -, hks, hsize⟩ := exists_keys_size_eq hkey
  rw [isEmpty, beq_iff_eq, hsize, List.length_eq_zero_iff, List.eq_nil_iff_forall_not_mem]
  exact forall_congr' fun k => by rw [hks, Ne, not_not]

/-- A store that keeps each job under its own key, and no function without jobs, is the map of what
is found in it. -/
theorem Pruned.isMap (h : s.Pruned) : s.IsMap s.find? where
  get?_jobs := s.get?_jobs_bind
  exists_of_get?_jobs f jobs hjobs := by
    obtain ⟨u, j, hj⟩ := h f jobs hjobs
    exact ⟨u, j, by rw [← get?_jobs_bind, hjobs, Option.bind_some, hj]⟩
  find _ := rfl
  readAll := ⟨s.toList, (lists_toList hkey).enumerates hkey, rfl⟩
  ofFunction f := ⟨_, (lists_ofFunction hkey f).enumerates hkey, rfl⟩
  size := exists_keys_size_eq hkey
  isEmpty_iff := isEmpty_iff_find?_eq_none hkey

end Listing

/-- After any calls a store that starts empty is the map of the jobs that were written last and not
deleted since. -/
theorem isMap_afterAll (cs : List StoreCall) : (empty.afterAll cs).IsMap (lastWritten cs) := by
  have hfind := find?_afterAll cs
  have hkey : ∀ {k j}, (empty.afterAll cs).find? k = some j → j.key = k := fun {k j} hk =>
    StoreCall.key_of_lastWritten (congrFun hfind k ▸ hk)
  exact hfind ▸ (pruned_afterAll cs).isMap hkey

end MemoryStore

end JobBroker
