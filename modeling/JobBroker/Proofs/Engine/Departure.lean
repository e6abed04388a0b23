import JobBroker.Proofs.Engine.Endings
import JobBroker.Proofs.Engine.Presence

/-!
# Departure

* `Keeps.abandon` : a job whose worker is gone is queued again or closed.
* `jobs_of_givenUp` : what becomes of the jobs of a session that is gone.
* `Keeps.disconnect` : a session that disconnects leaves its wait lists, and gives up its jobs.
-/

namespace JobBroker

open Function (update update_apply)
open Ledger (Move Path)

namespace Engine

variable {σ : Type} {e : Engine σ} {l : Ledger}

/-- A job whose worker is gone is queued again, as it was before anybody worked on it. -/
theorem Keeps.requeue (hk : e.Keeps l) (hl : l.Consistent) {handle : String} {live : LiveJob}
    (h : e.jobInState handle .working = .ok live) {id : SessionId} (hw : live.worker = some id)
    (hid : id ∉ e.connected) : (e.requeue handle).Keeps (l.after (.requeue live.job id)) := by
  obtain ⟨hlive, rfl, hstate⟩ := (hk.jobInState_eq_ok_iff hl).mp h
  have hkey : e.live.keyOf? live.job.handle = some live.job.key :=
    hk.keys_eq ▸ hl.keys_handle hlive
  have hfree : ∀ id' ∈ e.connected, live.job.handle ∉ l.assigned id' := by
    intro id' hid' hm
    obtain rfl := Option.some.inj (((hl.mem_assigned hlive).mp hm).symm.trans hw)
    exact hid hid'
  have hf := isSome_establish e live.job.functionName
  have hmodified := ((hk.quiet (.establish e live.job.functionName)).modifyLive hlive
    fun live => ⟨live.job.renewed, none⟩).unassign hfree
  obtain ⟨e₁, he₁⟩ : ∃ e₁, ({ e.establish live.job.functionName with
    live := (e.establish live.job.functionName).live.modify live.job.key
      fun live => ⟨live.job.renewed, none⟩ } : Engine σ) = e₁ := ⟨_, rfl⟩
  rw [he₁] at hmodified
  have hfind : (e₁.workshop live.job.functionName).queue.find? live.job.uniqueId = none := by
    have : e₁.queued live.job.key = none := by
      rw [← hmodified.queued_eq]
      exact (hl.queued_of_worker hlive).trans (by rw [hw]; rfl)
    exact this
  have hrequeued := hmodified.setQueue (he₁ ▸ hf)
    (Queue.accept_inOrder (hmodified.inOrder _) (j := live.job.summary) hfind)
    fun v => Queue.find?_accept _ _ v
  have hwoken : Keeps ((e₁.setQueue live.job.functionName
      ((e₁.workshop live.job.functionName).queue.reinstate live.job.summary).2).wakeCrew
        live.job.functionName) (l.after (.requeue live.job id)) := by
    rw [Queue.reinstate_of_find?_eq_none hfind]
    exact hrequeued.quiet (.wakeCrew _ _)
  simp only [Engine.requeue, hkey, jobInState_establish, h]
  subst he₁
  exact hwoken

theorem undisturbed_requeue {handle : String}
    (h : ∀ live, e.jobInState handle .working ≠ .ok live) : Undisturbed e (e.requeue handle) := by
  unfold Engine.requeue
  split
  · exact .refl e
  · next k _ =>
    simp only [jobInState_establish]
    split
    · exact .establish e _
    · next live hlive => exact absurd hlive (h live)

variable [JobStore σ]

/-- What becomes of a job whose worker, session `id`, is gone. -/
def GivenUp (policy : DisconnectPolicy) (id : SessionId) (m : Move) : Prop :=
  (policy = .requeue ∧ ∃ j, m = .requeue j id) ∨
    policy = .fail ∧ ∃ live : LiveJob, live.worker = some id ∧
      m = .close live fun _ => .workFail live.job.handle

theorem not_givenUp_hand (policy : DisconnectPolicy) (id id' : SessionId) (j : Job) :
    ¬ GivenUp policy id (.hand j id') := by
  rintro (⟨-, j', h⟩ | ⟨-, live, -, h⟩) <;> exact Move.noConfusion h

/-- The jobs of a session are queued again or end, as the policy says, and no other job changes. -/
theorem jobs_of_givenUp {policy : DisconnectPolicy} {id : SessionId} {l' : Ledger} {ms : List Move}
    (hp : l.Path ms l') (hms : ∀ m ∈ ms, GivenUp policy id m) (k : JobKey) :
    l'.jobs k = l.jobs k ∨ ∃ live, l.jobs k = some live ∧ live.worker = some id ∧
      (policy = .requeue ∧ l'.jobs k = some ⟨live.job.renewed, none⟩ ∨
        policy = .fail ∧ l'.jobs k = none) := by
  induction hp with
  | nil => exact .inl rfl
  | @cons l l' m ms hm _ ih =>
    have ih := ih fun m hm => hms m (List.mem_cons_of_mem _ hm)
    rcases hms m List.mem_cons_self with ⟨hpolicy, j, rfl⟩ | ⟨hpolicy, live, hw, rfl⟩
    · by_cases hk : k = j.key
      · subst hk
        have hafter : (l.after (.requeue j id)).jobs j.key = some ⟨j.renewed, none⟩ :=
          Function.update_self ..
        rw [hafter] at ih
        rcases ih with ih | ⟨live, hlive, hw, -⟩
        · exact .inr ⟨_, hm, rfl, .inl ⟨hpolicy, ih⟩⟩
        · exact absurd (Option.some.inj hlive ▸ hw) (by simp)
      · have hafter : (l.after (.requeue j id)).jobs k = l.jobs k := Function.update_of_ne hk ..
        rwa [hafter] at ih
    · by_cases hk : k = live.job.key
      · subst hk
        have hafter : (l.after (.close live fun _ => .workFail live.job.handle)).jobs
            live.job.key = none := Function.update_self ..
        rw [hafter] at ih
        rcases ih with ih | ⟨live', hlive', -⟩
        · exact .inr ⟨live, hm.1, hw, .inr ⟨hpolicy, ih⟩⟩
        · exact absurd hlive' (by simp)
      · have hafter : (l.after (.close live fun _ => .workFail live.job.handle)).jobs k =
            l.jobs k := Function.update_of_ne hk ..
        rwa [hafter] at ih

/-- A handle that nobody but a session that is gone works on is worked on by nobody afterwards. -/
theorem Keeps.abandon (hk : e.Keeps l) (hl : l.Consistent) {id : SessionId}
    (hid : id ∉ e.connected) {handle : String} (hheld : ∀ id', l.Held handle id' → id' = id) :
    ∃ ms l', l.Path ms l' ∧ (e.abandon handle).Keeps l' ∧
      (∀ m ∈ ms, GivenUp e.settings.disconnectPolicy id m) ∧ handle ∉ l'.assigned id := by
  unfold Engine.abandon
  cases hj : e.jobInState handle .working with
  | error err =>
    have hnot : ∀ live, e.jobInState handle .working ≠ .ok live := by
      intro live h
      rw [hj] at h
      exact absurd h (by simp)
    refine ⟨[], l, .nil l, ?_, by simp, fun hm => ?_⟩
    · split
      · exact hk.quiet (undisturbed_requeue hnot)
      · exact hk.quiet (undisturbed_finish hnot .fail)
    · obtain ⟨k, live, hlive, rfl, hw⟩ := hl.assigned_iff.mp hm
      obtain rfl := hl.key_eq hlive
      exact hnot live ((hk.jobInState_eq_ok_iff hl).mpr
        ⟨hlive, rfl, (hl.working_iff hlive).mpr ⟨id, hw⟩⟩)
  | ok live =>
    obtain ⟨hlive, rfl, hstate⟩ := (hk.jobInState_eq_ok_iff hl).mp hj
    obtain ⟨id', hw⟩ := (hl.working_iff hlive).mp hstate
    obtain rfl : id' = id := hheld id' ⟨_, live, hlive, rfl, hw⟩
    have hgone : ∀ l' : Ledger, l'.assigned = l.unassign live.job.handle →
        live.job.handle ∉ l'.assigned id' := by
      intro l' h hm
      rw [h, Ledger.mem_unassign] at hm
      exact hm.2 rfl
    split
    · next hpolicy =>
      have hfits : (Move.requeue live.job id').Fits l := by
        rw [Move.Fits, hlive, ← hw]
      exact ⟨_, _, .single hfits, hk.requeue hl hj hw hid, fun m hm =>
        .inl ⟨hpolicy, _, List.mem_singleton.mp hm⟩, hgone _ rfl⟩
    · next hpolicy =>
      have hfits : (Move.close live fun _ => .workFail live.job.handle).Fits l :=
        ⟨hlive, fun _ => rfl⟩
      exact ⟨_, _, .single hfits, (hk.finish hl hj .fail).2, fun m hm =>
        .inr ⟨hpolicy, live, hw, List.mem_singleton.mp hm⟩, hgone _ rfl⟩

/-- The jobs of a session that is gone are given up one after the other, in whatever order. -/
theorem Keeps.abandonAll (id : SessionId) (handles : List String) (hk : e.Keeps l)
    (hl : l.Consistent) (hid : id ∉ e.connected)
    (hheld : ∀ h ∈ handles, ∀ id', l.Held h id' → id' = id) :
    ∃ ms l', l.Path ms l' ∧ (handles.foldl Engine.abandon e).Keeps l' ∧
      (∀ m ∈ ms, GivenUp e.settings.disconnectPolicy id m) ∧
      (∀ h ∈ handles, h ∉ l'.assigned id) := by
  induction handles generalizing e l with
  | nil => exact ⟨[], l, .nil l, hk, by simp, by simp⟩
  | cons h hs ih =>
    obtain ⟨ms, l₁, hp, hk₁, hms, hfree⟩ :=
      hk.abandon hl hid (hheld h List.mem_cons_self)
    have hsteady := steady_abandon e h
    have hsub : ∀ {h' id'}, h' ∈ l₁.assigned id' → h' ∈ l.assigned id' := fun hm =>
      (hp.mem_assigned hm).resolve_right fun ⟨j, hj⟩ => not_givenUp_hand _ _ _ j (hms _ hj)
    have hl₁ := hp.consistent hl
    obtain ⟨ms', l', hp', hk', hms', hfree'⟩ := ih hk₁ hl₁ (hsteady.connected ▸ hid)
      fun h' hh' id' hw => hheld h' (List.mem_cons_of_mem _ hh') id'
        (hl.assigned_iff.mp (hsub (hl₁.assigned_iff.mpr hw)))
    rw [hsteady.settings] at hms'
    refine ⟨ms ++ ms', l', hp.append hp', hk', fun m hm => ?_, fun h' hh' => ?_⟩
    · rcases List.mem_append.mp hm with hm | hm
      · exact hms m hm
      · exact hms' m hm
    · rcases List.mem_cons.mp hh' with rfl | hh'
      · exact fun hm => hfree ((hp'.mem_assigned hm).resolve_right fun ⟨j, hj⟩ =>
          not_givenUp_hand _ _ _ j (hms' _ hj))
      · exact hfree' h' hh'

/-- A session that disconnects waits for nothing any more, and what it has worked on is given up. -/
theorem Keeps.disconnect (hk : e.Keeps l) (hl : l.Consistent) (id : SessionId)
    (hid : l.assigned id = e.assigned id) :
    ∃ ms l', l.Path (.leave id :: ms) l' ∧ (e.disconnect id).Keeps l' ∧
      (∀ m ∈ ms, GivenUp e.settings.disconnectPolicy id m) ∧ l'.assigned id = [] := by
  have hfits : (Move.leave id).Fits l := trivial
  have hgone := (hk.leaveWorkshops id).disconnectIdle id fun k hm => by
    simpa using (List.mem_filter.mp hm).2
  obtain ⟨ms, l', hp, hk', hms, hfree⟩ := hgone.abandonAll id (e.assigned id) (hl.after hfits)
    (fun hm => by simpa using (List.mem_filter.mp hm).2) fun h hh id' hw => by
      obtain ⟨k, live, hlive, rfl, hw⟩ := hw
      have hlive : l.jobs k = some live := hlive
      rw [← hid, hl.mem_assigned hlive] at hh
      exact Option.some.inj (hw.symm.trans hh)
  refine ⟨ms, l', .cons hfits hp, hk', hms, List.eq_nil_iff_forall_not_mem.mpr fun h hm => ?_⟩
  exact hfree h (hid ▸ (hp.mem_assigned hm).resolve_right fun ⟨j, hj⟩ =>
    not_givenUp_hand _ _ _ j (hms _ hj)) hm

end Engine

end JobBroker
