import JobBroker.Proofs.Engine.Crews
import JobBroker.Proofs.Queue.Counts

/-!
# Queued jobs are live

A job that is queued is noted twice, among the live jobs and in the queue of its function. The two
are written by different statements, and every record that a queue gives out belongs to a live job.

* `Core.Filed` : a queue holds the live jobs of its function that are queued.
* `Core.Filed.shift`, `Core.Filed.admission` : whatever happens to a core, it stays so.
* `Engine.Filed.act` : so does an engine, and it knows the functions of its live jobs.
-/

namespace JobBroker

open Function (update update_apply)
open Relation (ReflTransGen)

/-- What belongs into a queue under a key: the live job, if it is queued. -/
def LiveJobs.waiting (l : LiveJobs) (k : JobKey) : Option QueuedJob :=
  (l.find? k).bind fun live => if live.job.state = .queued then some live.job.summary else none

theorem LiveJobs.waiting_eq_some_iff {l : LiveJobs} {k : JobKey} {j : QueuedJob} :
    l.waiting k = some j ↔
      ∃ live, l.find? k = some live ∧ live.job.state = .queued ∧ live.job.summary = j := by
  simp only [waiting, Option.bind_eq_some_iff, Option.ite_none_right_eq_some, Option.some.injEq]

theorem LiveJobs.waiting_congr {l l' : LiveJobs} {k : JobKey} (h : l'.find? k = l.find? k) :
    l'.waiting k = l.waiting k := by
  rw [waiting, h, waiting]

namespace Core

variable {σ : Type} {c c' : Core σ} {f u : String} {k : JobKey} {j : QueuedJob} {q : Queue}

/-! ### What a queue has after a change -/

theorem find?_update_of_yields (h : (c.queues f).Yields u j q) (f' u' : String) :
    (update c.queues f q f').find? u' =
      if (⟨f, u⟩ : JobKey) = ⟨f', u'⟩ then none else (c.queues f').find? u' := by
  rw [update_apply]
  by_cases hf : f' = f
  · subst hf
    simp [h.rest]
  · simp [hf, Ne.symm hf]

theorem find?_update_accept (j : QueuedJob) (f' u' : String) :
    (update c.queues j.functionName ((c.queues j.functionName).accept j) f').find? u' =
      if j.key = ⟨f', u'⟩ then some j else (c.queues f').find? u' := by
  rw [update_apply]
  by_cases hf : f' = j.functionName
  · subst hf
    simp [QueuedJob.key]
  · simp [hf, Ne.symm hf, QueuedJob.key]

theorem find?_update_reinstate (j : QueuedJob) (f' u' : String) :
    (update c.queues j.functionName ((c.queues j.functionName).reinstate j).2 f').find? u' =
      if j.key = ⟨f', u'⟩ ∧ (c.queues j.functionName).find? j.uniqueId = none then some j
      else (c.queues f').find? u' := by
  unfold Queue.reinstate
  split
  · next hin =>
    have hsome : ((c.queues j.functionName).find? j.uniqueId).isSome := hin
    have hne := Option.isSome_iff_ne_none.mp hsome
    simp only [hne, and_false, if_false, update_apply]
    split
    · next hf => rw [hf]
    · rfl
  · next hout =>
    have hnone : (c.queues j.functionName).find? j.uniqueId = none :=
      Option.not_isSome_iff_eq_none.mp hout
    simp only [find?_update_accept, hnone, and_true]

/-! ### Live jobs and queues agree -/

/-- Every live job is queued or worked on, and the queues hold those that are queued. -/
structure Filed (c : Core σ) : Prop where
  key_eq : ∀ {k live}, c.live.find? k = some live → live.job.key = k
  state : ∀ {k live}, c.live.find? k = some live →
    live.job.state = .queued ∨ live.job.state = .working
  find?_eq : ∀ f u, (c.queues f).find? u = c.live.waiting ⟨f, u⟩

namespace Filed

/-- Something happens under one key. -/
theorem of_update (h : c.Filed) (k : JobKey)
    (hlive : ∀ k', k ≠ k' → c'.live.find? k' = c.live.find? k')
    (hqueue : ∀ f u, k ≠ ⟨f, u⟩ → (c'.queues f).find? u = (c.queues f).find? u)
    (hat : ∀ live, c'.live.find? k = some live →
      live.job.key = k ∧ (live.job.state = .queued ∨ live.job.state = .working))
    (hwaits : (c'.queues k.functionName).find? k.uniqueId = c'.live.waiting k) : c'.Filed where
  key_eq := by
    intro k' live hl
    by_cases hk : k = k'
    · subst hk
      exact (hat live hl).1
    · exact h.key_eq (hlive k' hk ▸ hl)
  state := by
    intro k' live hl
    by_cases hk : k = k'
    · subst hk
      exact (hat live hl).2
    · exact h.state (hlive k' hk ▸ hl)
  find?_eq := by
    intro f u
    by_cases hk : k = ⟨f, u⟩
    · subst hk
      exact hwaits
    · rw [hqueue f u hk, h.find?_eq, LiveJobs.waiting_congr (hlive _ hk)]

/-- What a queue gives out is a live job. -/
theorem live_of_yields (h : c.Filed) (hq : (c.queues f).Yields u j q) :
    j.key = ⟨f, u⟩ ∧ ∃ live, c.live.find? j.key = some live := by
  obtain ⟨live, hlive, -, rfl⟩ :=
    LiveJobs.waiting_eq_some_iff.mp ((h.find?_eq f u).symm.trans hq.find?)
  have hkey : live.job.summary.key = ⟨f, u⟩ := h.key_eq hlive
  exact ⟨hkey, live, hkey ▸ hlive⟩

/-- A job leaves its queue and is live no more. -/
theorem erase (h : c.Filed) (hq : (c.queues f).Yields u j q)
    (hlive : c'.live = c.live.erase ⟨f, u⟩) (hqueues : c'.queues = update c.queues f q) :
    c'.Filed := by
  refine h.of_update ⟨f, u⟩ (fun k' hk => ?_) (fun f' u' hk => ?_) (fun live hl => ?_) ?_
  · rw [hlive, LiveJobs.find?_erase, if_neg hk]
  · rw [hqueues, find?_update_of_yields hq, if_neg hk]
  · simp [hlive] at hl
  · rw [hqueues, find?_update_of_yields hq, if_pos rfl]
    simp [LiveJobs.waiting, hlive]

variable [JobStore σ]

theorem shift (h : c.Filed) (hs : c.Shift c') : c'.Filed := by
  cases hs with
  | @adjust f q _ hjobs =>
    refine { h with find?_eq := fun f' u => ?_ }
    rw [← h.find?_eq]
    show (update c.queues f q f').find? u = _
    rw [update_apply]
    split
    · next hf => rw [Queue.find?, hjobs, hf, Queue.find?]
    · rfl
  | lose hq _ _ =>
    exact h.erase hq (congrArg c.live.erase (h.live_of_yields hq).1) rfl
  | @hand f u j q _ _ live id hq _ hlive =>
    obtain ⟨hkey, -⟩ := h.live_of_yields hq
    rw [hkey] at hlive ⊢
    refine h.of_update ⟨f, u⟩ (fun k' hk => ?_) (fun f' u' hk => ?_) (fun live' hl => ?_) ?_
    · simp [hk]
    · exact (find?_update_of_yields hq f' u').trans (if_neg hk)
    · obtain rfl : _ = live' := by simpa [hlive] using hl
      have hjob : live.job.key = ⟨f, u⟩ := h.key_eq hlive
      exact ⟨hjob, .inr rfl⟩
    · refine (find?_update_of_yields hq f u).trans ?_
      simp [LiveJobs.waiting, hlive]
  | adopt hq _ hnone =>
    obtain ⟨-, live, hlive⟩ := h.live_of_yields hq
    exact absurd (hnone.symm.trans hlive) (by simp)
  | @requeue k live hlive =>
    obtain rfl := h.key_eq hlive
    refine h.of_update live.job.key (fun k' hk => ?_) (fun f' u' hk => ?_) (fun live' hl => ?_) ?_
    · simp [hk]
    · exact (find?_update_reinstate live.job.summary f' u').trans (if_neg fun hk' => hk hk'.1)
    · obtain rfl : _ = live' := by simpa [hlive] using hl
      exact ⟨rfl, .inl rfl⟩
    · refine (find?_update_reinstate live.job.summary _ _).trans ?_
      have hwaits : (c.live.modify live.job.key fun l => ⟨l.job.renewed, none⟩).waiting
          live.job.key = some live.job.summary :=
        LiveJobs.waiting_eq_some_iff.mpr
          ⟨⟨live.job.renewed, none⟩, by simp [hlive], rfl, rfl⟩
      refine Eq.trans ?_ hwaits.symm
      -- a job that is queued already stays there as it is
      split
      · rfl
      · next hin =>
        obtain ⟨j, hj⟩ := Option.ne_none_iff_exists'.mp fun hnone => hin ⟨rfl, hnone⟩
        obtain ⟨live', hlive', -, rfl⟩ :=
          LiveJobs.waiting_eq_some_iff.mp ((h.find?_eq _ _).symm.trans hj)
        obtain rfl := Option.some.inj (hlive.symm.trans hlive')
        exact hj
  | @advance k n d =>
    cases hlive : c.live.find? k with
    | none =>
      have hsame : ∀ k', (c.live.modify k fun l =>
          { l with job := { l.job with numerator := n, denominator := d } }).find? k' =
            c.live.find? k' := fun k' => by
        rw [LiveJobs.find?_modify]
        split
        · next hk => rw [← hk, hlive]; rfl
        · rfl
      exact ⟨fun hl => h.key_eq (hsame _ ▸ hl), fun hl => h.state (hsame _ ▸ hl), fun f u =>
        (h.find?_eq f u).trans (LiveJobs.waiting_congr (hsame _)).symm⟩
    | some live =>
      refine h.of_update k (fun k' hk => ?_) (fun _ _ _ => rfl) (fun live' hl => ?_) ?_
      · simp [hk]
      · obtain rfl : _ = live' := by simpa [hlive] using hl
        have hjob : live.job.key = k := h.key_eq hlive
        have hstate := h.state hlive
        exact ⟨hjob, hstate⟩
      · refine (h.find?_eq k.functionName k.uniqueId).trans ?_
        simp [LiveJobs.waiting, hlive, Job.summary]
  | @finish k live hlive hstate =>
    refine h.of_update k (fun k' hk => ?_) (fun _ _ _ => rfl) (fun live' hl => ?_) ?_
    · simp [hk]
    · simp at hl
    · refine (h.find?_eq k.functionName k.uniqueId).trans ?_
      simp [LiveJobs.waiting, hlive, hstate]
  | remove hq => exact h.erase hq rfl rfl

/-- No shift brings a job in. -/
theorem isSome_of_shift (h : c.Filed) (hs : c.Shift c') (hk : (c'.live.find? k).isSome) :
    (c.live.find? k).isSome := by
  have herase : ∀ k', ((c.live.erase k').find? k).isSome → (c.live.find? k).isSome := by
    intro k' hk'
    rw [LiveJobs.find?_erase] at hk'
    split at hk'
    · exact absurd hk' Bool.false_ne_true
    · exact hk'
  have hmodify : ∀ k' change, ((c.live.modify k' change).find? k).isSome →
      (c.live.find? k).isSome := by
    intro k' change hk'
    rw [LiveJobs.find?_modify] at hk'
    split at hk'
    · rwa [Option.isSome_map] at hk'
    · exact hk'
  cases hs with
  | adjust _ _ => exact hk
  | lose _ _ _ | finish _ _ | remove _ => exact herase _ hk
  | hand _ _ _ | requeue _ | advance => exact hmodify _ _ hk
  | adopt hq _ hnone =>
    obtain ⟨-, live, hlive⟩ := h.live_of_yields hq
    exact absurd (hnone.symm.trans hlive) (by simp)

theorem shifts (h : c.Filed) (hs : ReflTransGen Shift c c') :
    c'.Filed ∧ ∀ k, (c'.live.find? k).isSome → (c.live.find? k).isSome := by
  induction hs with
  | refl => exact ⟨h, fun _ hk => hk⟩
  | tail _ hs ih => exact ⟨ih.1.shift hs, fun k hk => ih.2 k (ih.1.isSome_of_shift hs hk)⟩

/-- A job that is let in is queued. -/
theorem admission (h : c.Filed) (ha : c.Admission c') :
    c'.Filed ∧ ∀ k live, c'.live.find? k = some live →
      (c.live.find? k).isSome ∨ live.job.state = .queued := by
  cases ha with
  | refused _ => exact ⟨{ h with }, fun k live hl => .inl (Option.isSome_of_eq_some hl)⟩
  | @letIn j _ hnone _ hrenewed _ =>
    have hstate : j.state = .queued := congrArg Job.state hrenewed.symm
    have haccept := find?_update_accept (c := c) j.summary
    refine ⟨h.of_update j.key (fun k hk => ?_) (fun f u hk => ?_) (fun live hl => ?_) ?_,
      fun k live hl => ?_⟩
    · simp [hk]
    · exact (haccept f u).trans (if_neg hk)
    · obtain rfl : _ = live := by simpa using hl
      exact ⟨rfl, .inl hstate⟩
    · refine (haccept _ _).trans ?_
      simp [LiveJobs.waiting, hstate, Job.key]
    · rw [LiveJobs.find?_insert] at hl
      split at hl
      · exact .inr (Option.some.inj hl ▸ hstate)
      · exact .inl (Option.isSome_of_eq_some hl)

end Filed

end Core

/-! ### Engines -/

namespace Engine

variable {σ : Type} {e : Engine σ}

/-- The queues hold the live jobs that are queued, and the functions of all live jobs are known. -/
structure Filed (e : Engine σ) : Prop extends Core.Filed e.core where
  known : ∀ {k}, (e.live.find? k).isSome → (e.workshop? k.functionName).isSome

theorem Filed.start (settings : EngineSettings) (store : σ) (now : Int64) (newId : Nat → String)
    (isLinked : Bool) : (start settings store now newId isLinked).Filed where
  key_eq h := absurd h (by simp [core, Engine.start, new, LiveJobs.find?, LiveJobs.empty])
  state h := absurd h (by simp [core, Engine.start, new, LiveJobs.find?, LiveJobs.empty])
  find?_eq _ _ := rfl
  known h := absurd h Bool.false_ne_true

/-- Whatever is done to an engine, legal or not. -/
theorem Filed.act [JobStore σ] (he : e.Filed) (a : Action σ) : (e.act a).Filed := by
  by_cases ha : ∃ change, a = .alterStore change
  · obtain ⟨change, rfl⟩ := ha
    exact { he with }
  rcases core_act e fun change h => ha ⟨change, h⟩ with h | h
  · obtain ⟨hfiled, hlive⟩ := he.toFiled.admission h
    refine { hfiled with known := fun {k} hk => ?_ }
    obtain ⟨live, hl⟩ := Option.isSome_iff_exists.mp hk
    rcases hlive k live hl with hold | hstate
    · exact known_act e a (he.known hold)
    · have hqueued := hfiled.find?_eq k.functionName k.uniqueId
      exact isSome_workshop?_of_find? (hqueued.trans
        (LiveJobs.waiting_eq_some_iff.mpr ⟨live, hl, hstate, rfl⟩))
  · obtain ⟨hfiled, hlive⟩ := he.toFiled.shifts h
    exact { hfiled with known := fun {k} hk => known_act e a (he.known (hlive k hk)) }

/-- A queue lists the live jobs of its function that are queued. -/
theorem Filed.mem_toList_iff (he : e.Filed) {f : String} (hqueue : (e.workshop f).queue.Orderly)
    {j : QueuedJob} : j ∈ (e.workshop f).queue.toList ↔
      e.live.waiting ⟨f, j.uniqueId⟩ = some j := by
  obtain ⟨r, hr⟩ := hqueue
  have hfind : (e.workshop f).queue.find? j.uniqueId = _ := he.find?_eq f j.uniqueId
  rw [show e.live.waiting _ = _ from hfind.symm, hr.find?_eq_some_iff]
  simp

theorem Filed.run [JobStore σ] (he : e.Filed) (as : List (Action σ)) : (e.run as).Filed := by
  induction as generalizing e with
  | nil => exact he
  | cons a as ih => exact ih (he.act a)

end Engine

end JobBroker
