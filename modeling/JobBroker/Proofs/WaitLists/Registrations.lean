import JobBroker.WaitLists
import Mathlib.Data.List.Induction
import Mathlib.Data.List.Nodup

/-!
# Wait lists and registrations

Wait lists hold what the calls on them say: under each job the sessions that were registered for it
and neither released nor removed since, each in the place of the first of these registrations.

* `registered` : those sessions, read off the calls alone.
* `holds_afterAll` : the lists hold them, after any calls.
* `represents_afterAll` : the whole of the lists, and what the next call answers.
-/

namespace JobBroker

/-! ### Lists without what comes again -/

section EraseDups

variable {α : Type} [DecidableEq α]

theorem eraseDups_concat (as : List α) (a : α) :
    (as ++ [a]).eraseDups = if a ∈ as then as.eraseDups else as.eraseDups ++ [a] := by
  rw [List.eraseDups_append]
  split <;> simp_all [List.removeAll, List.eraseDups_cons]

theorem nodup_eraseDups (as : List α) : as.eraseDups.Nodup := by
  induction as using List.reverseRecOn with
  | nil => exact List.nodup_nil
  | append_singleton as a ih =>
    rw [eraseDups_concat]
    split
    · exact ih
    · next h =>
      rw [← List.concat_eq_append]
      exact ih.concat fun hm => h (List.mem_eraseDups.mp hm)

theorem eraseDups_filter (p : α → Bool) (as : List α) :
    (as.filter p).eraseDups = as.eraseDups.filter p := by
  induction as using List.reverseRecOn with
  | nil => rfl
  | append_singleton as a ih =>
    cases hp : p a <;> by_cases ha : a ∈ as <;>
      simp [eraseDups_concat, hp, ha, ih]

end EraseDups

namespace WaitLists

/-- A call that changes the lists. -/
inductive Call
  | register (uniqueId : String) (id : SessionId)
  | release (uniqueId : String)
  | removeSession (id : SessionId)
deriving DecidableEq

def after (w : WaitLists) : Call → WaitLists
  | .register u id => (w.register u id).2
  | .release u => (w.takeWaiters u).2
  | .removeSession id => (w.removeSession id).2

def afterAll (w : WaitLists) (cs : List Call) : WaitLists := cs.foldl after w

/-- The registrations for a job that nothing has undone later, by their sessions. -/
def standing (u : String) : List Call → List SessionId
  | [] => []
  | .register v id :: later =>
    if v = u ∧ .release u ∉ later ∧ .removeSession id ∉ later then id :: standing u later
    else standing u later
  | _ :: later => standing u later

/-- The sessions that are registered for a job, in the order of their first registrations. -/
def registered (cs : List Call) (u : String) : List SessionId := (standing u cs).eraseDups

variable {w : WaitLists} {u v : String} {id : SessionId} {cs : List Call}

/-! ### What a further call changes -/

theorem standing_concat_register : standing u (cs ++ [.register v id]) =
    if v = u then standing u cs ++ [id] else standing u cs := by
  induction cs with
  | nil => by_cases h : v = u <;> simp [standing, h]
  | cons c cs ih => cases c <;> by_cases h : v = u <;> simp_all [standing, apply_ite (· ++ [id])]

theorem standing_concat_release : standing u (cs ++ [.release v]) =
    if v = u then [] else standing u cs := by
  induction cs with
  | nil => simp [standing]
  | cons c cs ih =>
    cases c with
    | register v' i => by_cases h : v = u <;> simp_all [standing, Ne.symm]
    | release v' => exact ih
    | removeSession i => exact ih

theorem standing_concat_removeSession : standing u (cs ++ [.removeSession id]) =
    (standing u cs).filter (· ≠ id) := by
  induction cs with
  | nil => rfl
  | cons c cs ih =>
    cases c with
    | register v i => by_cases hi : i = id <;> simp [standing, ih, hi, apply_ite (List.filter _)]
    | release v => exact ih
    | removeSession i => exact ih

theorem registered_concat_register : registered (cs ++ [.register v id]) u =
    if v = u ∧ id ∉ registered cs u then registered cs u ++ [id] else registered cs u := by
  simp only [registered, standing_concat_register, List.mem_eraseDups]
  by_cases hv : v = u
  · by_cases hid : id ∈ standing u cs <;> simp [hv, hid, eraseDups_concat]
  · simp [hv]

theorem registered_concat_release : registered (cs ++ [.release v]) u =
    if v = u then [] else registered cs u := by
  rw [registered, standing_concat_release]
  split <;> rfl

theorem registered_concat_removeSession : registered (cs ++ [.removeSession id]) u =
    (registered cs u).filter (· ≠ id) := by
  rw [registered, standing_concat_removeSession, eraseDups_filter]
  rfl

/-! ### The lists after any calls -/

/-- Under each job that has some stand the sessions that are registered for it. -/
def Holds (w : WaitLists) (cs : List Call) : Prop :=
  ∀ u, w.lists.get? u = if registered cs u = [] then none else some (registered cs u)

theorem Holds.waiters (h : w.Holds cs) (u : String) : w.waiters u = registered cs u := by
  rw [WaitLists.waiters, h u]
  split
  · next hnil => exact hnil.symm
  · rfl

theorem Holds.register (h : w.Holds cs) (v : String) (id : SessionId) :
    (w.register v id).2.Holds (cs ++ [.register v id]) := by
  intro u
  have hsame : ¬ (v = u ∧ id ∉ registered cs u) →
      registered (cs ++ [.register v id]) u = registered cs u := fun hnot => by
    rw [registered_concat_register, if_neg hnot]
  rw [WaitLists.register, h.waiters v]
  split
  · next hid =>
    rw [hsame fun hnot => hnot.2 (hnot.1 ▸ hid)]
    exact h u
  · next hid =>
    refine (Table.get?_insert w.lists v u _).trans ?_
    by_cases hv : v = u
    · subst hv
      simp [registered_concat_register, hid]
    · rw [if_neg hv, hsame fun hvu => hv hvu.1]
      exact h u

theorem Holds.release (h : w.Holds cs) (v : String) :
    (w.takeWaiters v).2.Holds (cs ++ [.release v]) := by
  intro u
  rw [registered_concat_release]
  refine (Table.get?_erase w.lists v u).trans ?_
  by_cases hv : v = u
  · simp [hv]
  · rw [if_neg hv, if_neg hv]
    exact h u

theorem Holds.removeSession (h : w.Holds cs) (id : SessionId) :
    (w.removeSession id).2.Holds (cs ++ [.removeSession id]) := by
  intro u
  rw [registered_concat_removeSession]
  refine (Table.get?_filterMap w.lists _ u).trans ?_
  rw [h u]
  split
  · next hnil => simp [hnil]
  · rw [Option.bind_some]
    cases (registered cs u).filter (· ≠ id) <;> rfl

theorem holds_afterAll (cs : List Call) : (empty.afterAll cs).Holds cs := by
  induction cs using List.reverseRecOn with
  | nil => exact fun _ => rfl
  | append_singleton cs c ih =>
    rw [afterAll, List.foldl_concat]
    cases c with
    | register v id => exact ih.register v id
    | release v => exact ih.release v
    | removeSession id => exact ih.removeSession id

/-! ### What the lists and the next call tell -/

theorem Holds.eq_of_mem (h : w.Holds cs) {ids : List SessionId} (hids : ids ∈ w.lists.values) :
    ∃ u, ids = registered cs u ∧ ids ≠ [] := by
  obtain ⟨⟨u, _⟩, hentry, rfl⟩ := List.mem_map.mp hids
  refine ⟨u, ?_⟩
  have hget := (h u).symm.trans (Table.get?_eq_some_iff.mpr hentry)
  split at hget
  · cases hget
  · next hne =>
    obtain rfl := Option.some.inj hget
    exact ⟨rfl, hne⟩

theorem Holds.nodup_of_mem (h : w.Holds cs) {ids : List SessionId} (hids : ids ∈ w.lists.values) :
    ids.Nodup := by
  obtain ⟨u, rfl, -⟩ := h.eq_of_mem hids
  exact nodup_eraseDups _

/-- A list without repetition gets shorter by one when it loses one that it has. -/
theorem length_sub_length_filter_ne {ids : List SessionId} (hids : ids.Nodup) (id : SessionId) :
    ids.length - (ids.filter (· ≠ id)).length = if id ∈ ids then 1 else 0 := by
  have herase : ids.filter (· ≠ id) = ids.erase id := by
    rw [hids.erase_eq_filter]
    exact List.filter_congr fun i _ => by by_cases hi : i = id <;> simp [hi]
  rw [herase]
  split
  · next hmem =>
    have := List.length_pos_of_mem hmem
    rw [List.length_erase_of_mem hmem]
    omega
  · next hnot => rw [List.erase_of_not_mem hnot, Nat.sub_self]

theorem foldr_length_sub {rows : List (List SessionId)} (hrows : ∀ ids ∈ rows, ids.Nodup)
    (id : SessionId) :
    rows.foldr (fun ids n => ids.length - (ids.filter (· ≠ id)).length + n) 0 =
      rows.countP (id ∈ ·) := by
  induction rows with
  | nil => rfl
  | cons ids rows ih =>
    rw [List.foldr_cons, ih fun _ h => hrows _ (List.mem_cons_of_mem _ h), List.countP_cons,
      length_sub_length_filter_ne (hrows ids List.mem_cons_self), Nat.add_comm]
    simp

theorem mem_waiters_iff : id ∈ w.waiters u ↔ ∃ ids, (u, ids) ∈ w.lists.entries ∧ id ∈ ids := by
  simp only [waiters, ← Table.get?_eq_some_iff]
  cases w.lists.get? u <;> simp

/-- The lists that become shorter are those that the session stands in. -/
theorem length_waiters_removeSession_lt_iff :
    ((w.removeSession id).2.waiters u).length < (w.waiters u).length ↔ id ∈ w.waiters u := by
  rw [waiters_removeSession, List.length_filter_lt_length_iff_exists]
  simp

theorem Holds.removed_eq (h : w.Holds cs) (id : SessionId) : ∃ us : List String, us.Nodup ∧
    (∀ u, u ∈ us ↔ ((w.removeSession id).2.waiters u).length < (w.waiters u).length) ∧
      (w.removeSession id).1 = us.length := by
  refine ⟨(w.lists.entries.filter (id ∈ ·.2)).map Prod.fst, ?_, fun u => ?_, ?_⟩
  · exact (List.filter_sublist.map _).nodup w.lists.nodup
  · rw [length_waiters_removeSession_lt_iff, mem_waiters_iff]
    simp
  · rw [List.length_map, ← List.countP_eq_length_filter]
    exact (foldr_length_sub (fun _ => h.nodup_of_mem) id).trans List.countP_map

/-! ### Any calls -/

/-- The lists are what the calls say, and the next call answers from them. -/
structure Represents (w : WaitLists) (cs : List Call) : Prop where
  get?_lists : ∀ u,
    w.lists.get? u = if registered cs u = [] then none else some (registered cs u)
  nodup : ∀ ids ∈ w.lists.values, ids ≠ [] ∧ ids.Nodup
  register_eq_true_iff : ∀ u id, (w.register u id).1 = true ↔
    (w.register u id).2.waiters u = w.waiters u ++ [id]
  register_of_false : ∀ u id, (w.register u id).1 = false →
    id ∈ w.waiters u ∧ (w.register u id).2 = w
  waiters : ∀ u, w.waiters u = registered cs u
  takeWaiters : ∀ u, (w.takeWaiters u).1 = registered cs u
  removeSession : ∀ id, ∃ us : List String, us.Nodup ∧
    (∀ u, u ∈ us ↔ ((w.removeSession id).2.waiters u).length < (w.waiters u).length) ∧
      (w.removeSession id).1 = us.length
  waiters_removeSession : ∀ id u,
    (w.removeSession id).2.waiters u = (w.waiters u).filter (· ≠ id)
  size : ∃ us : List String, us.Nodup ∧ (∀ u, u ∈ us ↔ w.waiters u ≠ []) ∧ w.size = us.length

theorem register_eq_true_iff : (w.register u id).1 = true ↔ id ∉ w.waiters u := by
  unfold register
  split <;> simp_all

theorem Holds.mem_keys (h : w.Holds cs) : u ∈ w.lists.keys ↔ w.waiters u ≠ [] := by
  rw [Table.mem_keys, h.waiters, h u]
  split <;> simp_all

theorem Holds.represents (h : w.Holds cs) : w.Represents cs where
  get?_lists := h
  nodup ids hids := by
    obtain ⟨_, -, hne⟩ := h.eq_of_mem hids
    exact ⟨hne, h.nodup_of_mem hids⟩
  register_eq_true_iff u id := by
    rw [WaitLists.register_eq_true_iff, waiters_register]
    by_cases hid : id ∈ w.waiters u <;> simp [hid]
  register_of_false u id := by
    unfold WaitLists.register
    split
    · next hid => exact fun _ => ⟨hid, rfl⟩
    · exact fun hfalse => absurd hfalse (by simp)
  waiters := h.waiters
  takeWaiters := h.waiters
  removeSession := h.removed_eq
  waiters_removeSession id u := WaitLists.waiters_removeSession w id u
  size := ⟨w.lists.keys, w.lists.nodup, fun _ => h.mem_keys, (List.length_map ..).symm⟩

theorem represents_afterAll (cs : List Call) : (empty.afterAll cs).Represents cs :=
  (holds_afterAll cs).represents

/-- A session that was removed and registered again stands behind those that came in between. -/
example : registered [.register "u" 0, .register "u" 1, .removeSession 0, .register "u" 2,
    .register "u" 0, .register "u" 1] "u" = [1, 2, 0] := by
  decide

end WaitLists

end JobBroker
