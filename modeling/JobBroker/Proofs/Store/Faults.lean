import JobBroker.Proofs.Store.Records

/-!
# Stores with faults

A store with faults keeps the records of the store below it. It does not remember whether a call has
gone wrong, so nothing can be said from that; but its faults stay as they are from call to call, and
tell which calls go wrong.

* `FaultyStore.find_eq`, `FaultyStore.delete_eq` : calls that are let through.
-/

namespace JobBroker

namespace FaultyStore

variable {σ : Type} [JobStore σ] {s s' : FaultyStore σ} {k : JobKey}

theorem write_eq {j : Job} (h : s.faults.write j.key = none) :
    JobStore.write j s = ((JobStore.write j s.store).1,
      { s with store := (JobStore.write j s.store).2 }) := by
  simp [JobStore.write, h, through]

theorem write_of_fault {j : Job} (h : s.faults.write j.key ≠ none) :
    ∃ reply, reply ≠ .ok true ∧ JobStore.write j s = (reply, s) := by
  rcases hf : s.faults.write j.key with _ | _ | _
  · exact absurd hf h
  · exact ⟨refused "write", by simp [refused], by simp [JobStore.write, hf]⟩
  · exact ⟨.ok false, by simp, by simp [JobStore.write, hf]⟩

theorem find_eq (h : s.faults.find k = none) :
    JobStore.find k s = ((JobStore.find k s.store).1,
      { s with store := (JobStore.find k s.store).2 }) := by
  simp [JobStore.find, h, through]

theorem find_of_fault (h : s.faults.find k ≠ none) :
    ∃ reply, (∀ j, reply ≠ .ok (some j)) ∧ JobStore.find k s = (reply, s) := by
  rcases hf : s.faults.find k with _ | _ | _
  · exact absurd hf h
  · exact ⟨refused "find", by simp [refused], by simp [JobStore.find, hf]⟩
  · exact ⟨.ok none, by simp, by simp [JobStore.find, hf]⟩

theorem delete_eq (h : s.faults.delete k = false) :
    (JobStore.delete k s).2 = { s with store := (JobStore.delete k s.store).2 } := by
  simp [JobStore.delete, h, through]

theorem delete_of_fault (h : s.faults.delete k = true) : (JobStore.delete k s).2 = s := by
  simp [JobStore.delete, h]

theorem faults_write {j : Job} {reply} (h : JobStore.write j s = (reply, s')) :
    s'.faults = s.faults := by
  by_cases hf : s.faults.write j.key = none
  · obtain ⟨-, rfl⟩ := Prod.mk.inj ((write_eq hf).symm.trans h)
    rfl
  · obtain ⟨_, -, hw⟩ := write_of_fault hf
    obtain ⟨-, rfl⟩ := Prod.mk.inj (hw.symm.trans h)
    rfl

theorem faults_find {reply} (h : JobStore.find k s = (reply, s')) : s'.faults = s.faults := by
  by_cases hf : s.faults.find k = none
  · obtain ⟨-, rfl⟩ := Prod.mk.inj ((find_eq hf).symm.trans h)
    rfl
  · obtain ⟨_, -, hw⟩ := find_of_fault hf
    obtain ⟨-, rfl⟩ := Prod.mk.inj (hw.symm.trans h)
    rfl

theorem faults_delete (k : JobKey) (s : FaultyStore σ) :
    (JobStore.delete k s).2.faults = s.faults := by
  cases hf : s.faults.delete k with
  | false => rw [delete_eq hf]
  | true => rw [delete_of_fault hf]

theorem deletesRecords {record? : σ → JobKey → Option Job} (h : DeletesRecords record?) :
    DeletesRecords fun s : FaultyStore σ => record? s.store where
  absent {k s} k' hk := by
    cases hf : s.faults.delete k' with
    | false => rw [delete_eq hf]; exact h.absent k' hk
    | true => rw [delete_of_fault hf]; exact hk
  gone {k s} hanswer := by
    cases hf : s.faults.delete k with
    | false =>
      rw [delete_eq hf]
      exact h.gone (by simpa [JobStore.delete, hf, through] using hanswer)
    | true => simp [JobStore.delete, hf, refused] at hanswer

instance [RecordStore σ] : RecordStore (FaultyStore σ) where
  record? s := RecordStore.record? s.store
  hasErred _ := True
  record?_write := by
    intro j s s' h
    by_cases hf : s.faults.write j.key = none
    · obtain ⟨hreply, rfl⟩ := Prod.mk.inj ((write_eq hf).symm.trans h)
      exact RecordStore.record?_write (Prod.ext hreply rfl)
    · obtain ⟨_, hne, hw⟩ := write_of_fault hf
      exact absurd (congrArg Prod.fst (hw.symm.trans h)) hne
  record?_write_of_ne := by
    intro j s s' reply h hne
    by_cases hf : s.faults.write j.key = none
    · obtain ⟨hreply, rfl⟩ := Prod.mk.inj ((write_eq hf).symm.trans h)
      exact RecordStore.record?_write_of_ne (Prod.ext hreply rfl) hne
    · obtain ⟨_, -, hw⟩ := write_of_fault hf
      obtain ⟨-, rfl⟩ := Prod.mk.inj (hw.symm.trans h)
      rfl
  record?_find := by
    intro k s s' reply h
    by_cases hf : s.faults.find k = none
    · obtain ⟨hreply, rfl⟩ := Prod.mk.inj ((find_eq hf).symm.trans h)
      exact RecordStore.record?_find (Prod.ext hreply rfl)
    · obtain ⟨_, -, hw⟩ := find_of_fault hf
      obtain ⟨-, rfl⟩ := Prod.mk.inj (hw.symm.trans h)
      rfl
  record?_of_find := by
    intro k s s' j h
    by_cases hf : s.faults.find k = none
    · obtain ⟨hreply, rfl⟩ := Prod.mk.inj ((find_eq hf).symm.trans h)
      exact RecordStore.record?_of_find (Prod.ext hreply rfl)
    · obtain ⟨_, hne, hw⟩ := find_of_fault hf
      exact absurd (congrArg Prod.fst (hw.symm.trans h)) (hne j)
  hasErred_of_find := fun _ _ => .inr trivial
  record?_delete := by
    intro k s
    cases hf : s.faults.delete k with
    | false =>
      rw [delete_eq hf]
      exact (RecordStore.record?_delete k s.store).imp_right fun h => ⟨h.1, trivial⟩
    | true =>
      rw [delete_of_fault hf]
      exact .inr ⟨rfl, trivial⟩
  hasErred_write := fun _ _ => trivial
  hasErred_find := fun _ _ => trivial
  hasErred_delete := fun _ _ _ => trivial

end FaultyStore

end JobBroker
