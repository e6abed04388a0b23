import JobBroker.Proofs.Engine.Crews
import JobBroker.Proofs.Engine.Mail
import JobBroker.Proofs.Queue.Following
import JobBroker.Proofs.Store.Records

/-!
# Giving up jobs

The jobs of a session that has gone are given up one after the other. As the policy says they are
queued again, and the store is left alone, or they fail, and the queues are left alone.

* `toList_requeueAll`, `store_requeueAll`, `failed_failAll` : what becomes of the queues and of
  the store.
* `adds_requeueAll`, `posts_failAll` : what is sent meanwhile.
-/

namespace JobBroker

open Function (update_apply)
open Ledger (Move)

/-! ### Jobs that fail -/

namespace Core

variable {σ : Type} [JobStore σ] {c c' : Core σ} {k : JobKey}

/-- Some live jobs have failed: they are live no more, and each is deleted from the store once. -/
structure Failed (ks : List JobKey) (c c' : Core σ) : Prop where
  queues_eq : c'.queues = c.queues
  live_of_live : ∀ {k}, (c'.live.find? k).isSome → (c.live.find? k).isSome
  nodup : ks.Nodup
  mem_iff : ∀ {k}, k ∈ ks ↔ (c.live.find? k).isSome ∧ c'.live.find? k = none
  store_eq : c'.store = (deleteEach ks c.store).2

theorem Failed.nil (c : Core σ) : Failed [] c c where
  queues_eq := rfl
  live_of_live := id
  nodup := List.nodup_nil
  mem_iff {k} := by cases c.live.find? k <;> simp
  store_eq := rfl

/-- One job fails, and then others. -/
theorem Failed.cons {ks : List JobKey} (hk : (c.live.find? k).isSome)
    (h : Failed ks { c with live := c.live.erase k, store := (JobStore.delete k c.store).2 } c') :
    Failed (k :: ks) c c' := by
  have hold : ∀ {k'}, ((c.live.erase k).find? k').isSome → k ≠ k' ∧ (c.live.find? k').isSome :=
    fun {k'} hk' => by
      rw [LiveJobs.find?_erase] at hk'
      split at hk'
      · exact absurd hk' Bool.false_ne_true
      · next hne => exact ⟨hne, hk'⟩
  refine {
    queues_eq := h.queues_eq
    live_of_live := fun hk' => (hold (h.live_of_live hk')).2
    nodup := List.nodup_cons.mpr ⟨fun hmem => (hold (h.mem_iff.mp hmem).1).1 rfl, h.nodup⟩
    mem_iff := fun {k'} => ?_
    store_eq := h.store_eq }
  rw [List.mem_cons, h.mem_iff]
  by_cases heq : k = k'
  · subst heq
    have hgone : c'.live.find? k = none :=
      Option.not_isSome_iff_eq_none.mp fun hk' => (hold (h.live_of_live hk')).1 rfl
    simp [hk, hgone]
  · simp [LiveJobs.find?_erase, heq, Ne.symm heq]

end Core

namespace Engine

variable {σ : Type} {e : Engine σ} {id : SessionId}

/-! ### What becomes of queues and of the store -/

theorem toList_requeue (e : Engine σ) (handle f : String) : ∃ back,
    ((e.requeue handle).workshop f).queue.toList = (e.workshop f).queue.toList ++ back := by
  have hnothing : ∃ back, (e.workshop f).queue.toList = (e.workshop f).queue.toList ++ back :=
    ⟨[], (List.append_nil _).symm⟩
  cases h : e.jobInState handle .working with
  | error err =>
    have hcore : (e.requeue handle).core = e.core :=
      core_requeue_idle fun live hlive => nomatch h.symm.trans hlive
    rw [show ((e.requeue handle).workshop f).queue = (e.workshop f).queue from
      congrArg (Core.queues · f) hcore]
    exact hnothing
  | ok live =>
    obtain ⟨k, hkey, -, -⟩ := find?_of_jobInState h
    rw [show ((e.requeue handle).workshop f).queue = _ from
      congrArg (Core.queues · f) (core_requeue hkey h)]
    dsimp only
    rw [update_apply]
    split
    · next hf => exact hf ▸ Queue.toList_reinstate _ _
    · exact hnothing

variable [JobStore σ]

/-- Jobs that are queued again come in behind those that are queued already. -/
theorem toList_requeueAll (handles : List String) (e : Engine σ)
    (hpolicy : e.settings.disconnectPolicy = .requeue) (f : String) : ∃ back,
      ((handles.foldl abandon e).workshop f).queue.toList =
        (e.workshop f).queue.toList ++ back := by
  induction handles generalizing e with
  | nil => exact ⟨[], (List.append_nil _).symm⟩
  | cons handle handles ih =>
    have hrequeue : e.abandon handle = e.requeue handle := by simp only [abandon, hpolicy]
    obtain ⟨back, hback⟩ := toList_requeue e handle f
    obtain ⟨back', hback'⟩ :=
      ih (e.abandon handle) ((steady_abandon e handle).settings ▸ hpolicy)
    exact ⟨back ++ back', by
      rw [List.foldl_cons, hback', hrequeue, hback, List.append_assoc]⟩

theorem store_requeueAll (handles : List String) (e : Engine σ)
    (hpolicy : e.settings.disconnectPolicy = .requeue) :
    (handles.foldl abandon e).store = e.store := by
  induction handles generalizing e with
  | nil => rfl
  | cons handle handles ih =>
    have hrequeue : e.abandon handle = e.requeue handle := by simp only [abandon, hpolicy]
    refine (ih _ ((steady_abandon e handle).settings ▸ hpolicy)).trans ?_
    rw [hrequeue]
    cases h : e.jobInState handle .working with
    | error err =>
      exact congrArg Core.store (core_requeue_idle fun live hlive => nomatch h.symm.trans hlive)
    | ok live =>
      obtain ⟨k, hkey, -, -⟩ := find?_of_jobInState h
      exact congrArg Core.store (core_requeue hkey h)

/-- Those of the jobs that are worked on fail. -/
theorem failed_failAll (handles : List String) (e : Engine σ)
    (hpolicy : e.settings.disconnectPolicy = .fail) :
    ∃ ks, Core.Failed ks e.core (handles.foldl abandon e).core := by
  induction handles generalizing e with
  | nil => exact ⟨[], .nil _⟩
  | cons handle handles ih =>
    obtain ⟨ks, hks⟩ := ih (e.abandon handle) ((steady_abandon e handle).settings ▸ hpolicy)
    have hfail : e.abandon handle = (e.finish handle .fail).2 := by simp only [abandon, hpolicy]
    rw [List.foldl_cons]
    cases h : e.jobInState handle .working with
    | error err =>
      have hcore : (e.abandon handle).core = e.core :=
        hfail ▸ core_finish_idle (fun live hlive => nomatch h.symm.trans hlive) .fail
      exact ⟨ks, hcore ▸ hks⟩
    | ok live =>
      obtain ⟨k, hkey, hfind, -⟩ := find?_of_jobInState h
      rw [hfail, core_finish hkey h] at hks
      exact ⟨k :: ks, hfail ▸ hks.cons (Option.isSome_of_eq_some hfind)⟩

/-! ### What is sent meanwhile -/

omit [JobStore σ] in
theorem adds_wakeCrew {f : String} (h : id ∉ (e.workshop f).crew.sleepers) :
    e.sessions.Adds (fun i _ => i ≠ id) (e.wakeCrew f).sessions := by
  unfold wakeCrew
  split
  · exact .refl _
  · next w hw =>
    refine .wake (fun i hi hid => h ?_) e.sessions
    rw [workshop, hw]
    exact hid ▸ hi

omit [JobStore σ] in
theorem crew_setQueue (e : Engine σ) (f g : String) (q : Queue) :
    ((e.setQueue f q).workshop g).crew = (e.workshop g).crew := by
  have hcrew : ∀ w : Workshop, { w with queue := q }.crew = w.crew := fun _ => rfl
  exact workshop_modifyWorkshop_of_eq Workshop.crew hcrew e f g

omit [JobStore σ] in
theorem adds_requeue (h : ∀ f, id ∉ (e.workshop f).crew.sleepers) (handle : String) :
    e.sessions.Adds (fun i _ => i ≠ id) (e.requeue handle).sessions := by
  unfold requeue
  split
  · exact .refl _
  · next k _ =>
    dsimp only
    split
    · exact .refl _
    · next live _ =>
      obtain ⟨e₁, he₁⟩ : ∃ e₁, ({ e.establish k.functionName with
        live := (e.establish k.functionName).live.modify k fun l => ⟨l.job.renewed, none⟩ } :
          Engine σ) = e₁ := ⟨_, rfl⟩
      have hsessions : e₁.sessions = e.sessions := he₁ ▸ rfl
      have hworkshop : e₁.workshop = (e.establish k.functionName).workshop := he₁ ▸ rfl
      rw [he₁, ← hsessions]
      refine adds_wakeCrew (e := e₁.setQueue k.functionName _) ?_
      rw [crew_setQueue, hworkshop, workshop_establish]
      exact h _

/-- Who can do nothing is not woken when jobs are queued again. -/
theorem adds_requeueAll (handles : List String) (htended : e.watch.Tended)
    (hable : e.abilities id = []) (hpolicy : e.settings.disconnectPolicy = .requeue) :
    e.sessions.Adds (fun i _ => i ≠ id) (handles.foldl abandon e).sessions := by
  induction handles generalizing e with
  | nil => exact .refl _
  | cons handle handles ih =>
    have hawake : ∀ f, id ∉ (e.workshop f).crew.sleepers := fun f hid => by
      have hable' : f ∈ e.abilities id := htended.able_of_listed hid
      exact absurd (hable ▸ hable') List.not_mem_nil
    have hrequeue : e.abandon handle = e.requeue handle := by simp only [abandon, hpolicy]
    refine .trans (hrequeue ▸ adds_requeue hawake handle) (ih ?_ ?_ ?_)
    · exact hrequeue ▸ htended.turns (turns_requeue e handle)
    · rw [hrequeue, (SameCrews.requeue e handle).abilities, hable]
    · rw [(steady_abandon e handle).settings, hpolicy]

theorem posts_failAll (handles : List String) (e : Engine σ)
    (hpolicy : e.settings.disconnectPolicy = .fail) :
    Posts (fun p => ∃ handle, p = .response (.workFail handle)) e (handles.foldl abandon e) := by
  induction handles generalizing e with
  | nil => exact .refl _
  | cons handle handles ih =>
    have hfail : e.abandon handle = (e.finish handle .fail).2 := by simp only [abandon, hpolicy]
    refine .trans (hfail ▸ Posts.finish e handle fun _ => ⟨handle, rfl⟩) (ih _ ?_)
    rw [(steady_abandon e handle).settings, hpolicy]

end Engine

end JobBroker
