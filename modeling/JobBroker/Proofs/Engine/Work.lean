import JobBroker.Proofs.Engine.Endings

/-!
# Work on jobs

* `Keeps.takeFrom` : a worker that asks for a job closes jobs whose records are lost, and is handed
  at most one. `lost` : which jobs these are.
* `Keeps.reportProgress` : how far the work has come is noted.
-/

namespace JobBroker

open Function (update update_apply)
open Ledger (Move Path)

namespace Engine

variable {σ : Type} {e : Engine σ} {l : Ledger}

/-- The job that is taken out of its queue is handed out as it stands; its record is not looked
at. -/
theorem Keeps.assignJob {j : Job} {id : SessionId}
    (hk : e.Keeps { l with queued := update l.queued j.key none })
    (hlive : l.jobs j.key = some ⟨j, none⟩) (hid : id ∈ e.connected) (record : Job) :
    (e.assign j.key record id).1 = { j with state := .working } ∧
      (e.assign j.key record id).2.Keeps (l.after (.hand j id)) := by
  have hfind : e.live.find? j.key = some ⟨j, none⟩ := hk.jobs_eq ▸ hlive
  simp only [Engine.assign, hfind, Option.map_some, Option.getD_some, Option.isSome_some, if_true,
    true_and]
  exact (hk.modifyLive hlive fun _ => ⟨{ j with state := .working }, some id⟩).assign hid j.handle

/-- What a worker that asks for a job sets off: jobs whose records are lost are closed, and the job
that is the answer is handed out. -/
structure Handed (id : SessionId) (answer : Option Job) (ms : List Move) : Prop where
  cause : ∀ m ∈ ms,
    (∃ live : LiveJob, live.worker = none ∧
      m = .close live fun _ => .workFail live.job.handle) ∨
    ∃ j, m = .hand j id ∧ answer = some { j with state := .working }
  handed : ∀ j, answer = some j → ∃ j₀, .hand j₀ id ∈ ms ∧ j = { j₀ with state := .working }
  /-- The job is handed out last. -/
  last : ∀ before m later, ms = before ++ m :: later → ∀ j id', .hand j id' ∉ before

/-- How far the work on a job has come is noted, and passed on to those who wait. -/
theorem Keeps.reportProgress (hk : e.Keeps l) (hl : l.Consistent) {handle : String}
    {live : LiveJob} (h : e.jobInState handle .working = .ok live) {id : SessionId}
    (hw : live.worker = some id) (n d : UInt32) :
    (e.reportProgress handle n d).2.Keeps (l.after (.advance live.job id n d)) := by
  obtain ⟨hlive, rfl, -⟩ := (hk.jobInState_eq_ok_iff hl).mp h
  simp only [Engine.reportProgress, h]
  have hmodified := hk.modifyLive hlive fun live =>
    { live with job := { live.job with numerator := n, denominator := d } }
  rw [hw] at hmodified
  exact hmodified.quiet (.notify _ _ rfl)

namespace Handed

variable {id : SessionId} {answer : Option Job} {ms : List Move}

theorem nil (id : SessionId) : Handed id none [] where
  cause := by simp
  handed := by simp
  last := by simp

theorem hand (j : Job) (id : SessionId) :
    Handed id (some { j with state := .working }) [.hand j id] where
  cause m hm := .inr ⟨j, List.mem_singleton.mp hm, rfl⟩
  handed j' hj' := ⟨j, List.mem_singleton_self _, (Option.some.inj hj').symm⟩
  last before m later hms := by
    cases before with
    | nil => simp
    | cons _ before => exact absurd (List.cons.inj hms).2 (by simp)

/-- A job whose record is lost is closed, and the search goes on. -/
theorem close (h : Handed id answer ms) {live : LiveJob} (hw : live.worker = none) :
    Handed id answer (.close live (fun _ => .workFail live.job.handle) :: ms) where
  cause m hm := by
    rcases List.mem_cons.mp hm with rfl | hm
    · exact .inl ⟨live, hw, rfl⟩
    · exact h.cause m hm
  handed j hj := by
    obtain ⟨j₀, hj₀, rfl⟩ := h.handed j hj
    exact ⟨j₀, List.mem_cons_of_mem _ hj₀, rfl⟩
  last before m later hms j id' hj := by
    cases before with
    | nil => exact absurd hj (by simp)
    | cons m' before =>
      obtain ⟨rfl, hrest⟩ := List.cons.inj hms
      rcases List.mem_cons.mp hj with h' | hj
      · exact Move.noConfusion h'
      · exact h.last before m later hrest j id' hj

end Handed

variable [JobStore σ]

/-- The handles of the queued jobs whose records are not found while a worker looks for a job among
some functions. -/
def lost (e : Engine σ) : List String → List String
  | [] => []
  | f :: fs =>
    match e.workshop? f with
    | none => e.lost fs
    | some w =>
      match w.queue.takeNext e.now with
      | (none, queue) => (e.setQueue f queue).lost fs
      | (some queued, queue) =>
        match queue.resolve queued e.store with
        | (none, store) =>
          queued.handle :: ({ e.setQueue f queue with store }.dropLost queued.key).lost fs
        | (some _, _) => []

/-- A worker that looks for a job among some functions closes the lost ones that it comes to, and no
others, and is handed at most one. -/
theorem Keeps.takeFrom {id : SessionId} (fs : List String) (hk : e.Keeps l) (hl : l.Consistent)
    (hid : id ∈ e.connected) :
    ∃ ms l', l.Path ms l' ∧ (e.takeFrom id fs).2.Keeps l' ∧ Handed id (e.takeFrom id fs).1 ms ∧
      ∀ h, h ∈ e.lost fs ↔ l.keys h ≠ none ∧ l'.keys h = none := by
  induction fs generalizing e l with
  | nil => exact ⟨[], l, .nil l, hk, .nil id, fun h => by simp [lost]⟩
  | cons f fs ih =>
    unfold Engine.takeFrom lost
    cases hw : e.workshop? f with
    | none => exact ih hk hl hid
    | some w =>
      obtain rfl : e.workshop f = w := by rw [workshop, hw, Option.getD_some]
      dsimp only
      have hf : (e.workshop? f).isSome := Option.isSome_iff_exists.mpr ⟨_, hw⟩
      rcases Queue.takeNext_cases (hk.inOrder f) e.now with
        hnone | ⟨q, queue, hsome, hq, hin, hfind⟩
      · rw [hnone]
        exact ih (hk.quiet (.setQueue_self e f)) hl hid
      · rw [hsome]
        obtain ⟨live, hlive, hwork, rfl, hkey⟩ := hk.live_of_queued hl (k := ⟨f, q.uniqueId⟩) hq
        obtain rfl : live.job.functionName = f := congrArg JobKey.functionName hkey
        have hlive : l.jobs live.job.key = some live := hkey ▸ hlive
        have hk := hk.setQueue hf hin hfind
        have hf := (isSome_modifyWorkshop e live.job.functionName live.job.functionName
          fun w => { w with queue }).trans hf
        dsimp only
        rcases queue.resolve live.job.summary e.store with ⟨_ | record, store⟩
        · -- the record is lost: the job is closed, and the search goes on
          have hfits : (Move.close live fun _ => .workFail live.job.handle).Fits l :=
            ⟨hlive, fun _ => rfl⟩
          obtain ⟨ms, l', hp, hk', hm, hlost⟩ := ih
            (Keeps.dropLost hl (hk.withStore store) hlive hwork hf) (hl.after hfits)
            (by rw [(steady_dropLost _ _).connected]; exact hid)
          have hspent := (hl.spent_of_close hfits).path hp
          refine ⟨_ :: ms, l', .cons hfits hp, hk', hm.close hwork, fun h => ?_⟩
          rw [List.mem_cons]
          by_cases hh : h = live.job.handle
          · subst hh
            exact iff_of_true (.inl rfl) ⟨by rw [hl.keys_handle hlive]; simp, hspent.2⟩
          · have hkeys : (l.after (.close live fun _ => .workFail live.job.handle)).keys h =
                l.keys h := Function.update_of_ne hh ..
            exact (or_iff_right hh).trans (hkeys ▸ hlost h)
        · obtain ⟨j, worker⟩ := live
          obtain rfl : worker = none := hwork
          obtain ⟨hanswer, hk'⟩ := Keeps.assignJob (hk.withStore store) hlive hid record
          refine ⟨[.hand j id], _, .single hlive, hk', ?_, fun h => ?_⟩
          · exact Eq.subst (motive := fun j' => Handed id (some j') [.hand j id]) hanswer.symm
              (.hand j id)
          · exact iff_of_false List.not_mem_nil fun h => h.1 h.2

end Engine

end JobBroker
