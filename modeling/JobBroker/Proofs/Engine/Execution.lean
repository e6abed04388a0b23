import JobBroker.Proofs.Engine.Conclusion
import JobBroker.Proofs.Engine.Run
import JobBroker.Store.Memory

/-!
# One execution of a job

While a job is live, submissions with its key join it, and one worker at a time works on it.

* `oneExecution_run` : a handle is handed out again only after its worker has disconnected and the
  job was queued again, and never after the job has ended.
-/

namespace JobBroker

open Text (decimal)

open Function (update)
open Ledger (Move)

namespace Engine

variable {σ : Type} {e e' : Engine σ}

/-- The engine has changed in one thing only: a client in the foreground has joined those that wait
for a job. -/
structure Joined (e e' : Engine σ) (k : JobKey) (background : Bool) (client : Option SessionId) :
    Prop where
  rest : e' = { e with workshops := e'.workshops }
  known : ∀ f, (e'.workshop? f).isSome = (e.workshop? f).isSome
  queue : ∀ f, (e'.workshop f).queue = (e.workshop f).queue
  crew : ∀ f, (e'.workshop f).crew = (e.workshop f).crew
  waiters : e'.waiters =
    match background, client with
    | false, some id => update e.waiters k (Ledger.adjoin id (e.waiters k))
    | _, _ => e.waiters

theorem joined_await {j : Job} (hf : (e.workshop? j.functionName).isSome)
    (client : Option SessionId) :
    Joined e ((e.establish j.functionName).await j client) j.key j.background client := by
  have hestablish : ∀ f, ((e.establish j.functionName).workshop? f).isSome =
      (e.workshop? f).isSome := by
    intro f
    show ((e.workshops.insert j.functionName _).get? f).isSome = _
    rw [Table.get?_insert]
    split
    · next h => exact (h ▸ hf).symm
    · rfl
  have hwaiters : (e.establish j.functionName).waiters = e.waiters := by
    funext k
    rw [waiters, workshop_establish, waiters]
  refine ⟨?_, fun f => (isSome_await ..).trans (hestablish f), fun f => ?_, fun f => ?_, ?_⟩
  · rw [await_eq_withWorkshops]
    rfl
  · rw [workshop_await Workshop.queue fun _ _ => rfl, workshop_establish]
  · rw [workshop_await Workshop.crew fun _ _ => rfl, workshop_establish]
  · rcases client with _ | id
    · cases j.background <;> exact hwaiters
    · cases hj : j.background with
      | false => rw [waiters_await ((hestablish _).trans hf) hj, hwaiters]
      | true => simpa [await, hj] using hwaiters

variable [JobStore σ]

/-- A submission with the key of a live job has that job as its answer and joins it. -/
theorem InOrder.submit_of_live (he : e.InOrder) {j : Job} {live : LiveJob}
    (h : e.live.find? (e.identify j).1.key = some live) (client : Option SessionId) :
    (e.submit j client).1 = .ok live.job ∧
      Joined { e with uniqueIds := (e.identify j).2.uniqueIds } (e.submit j client).2
        (e.identify j).1.key j.background client := by
  have hidentify : (e.identify j).2 = { e with uniqueIds := (e.identify j).2.uniqueIds } ∧
      (e.identify j).1.background = j.background := by
    unfold identify
    split <;> exact ⟨rfl, rfl⟩
  rcases hi : e.identify j with ⟨j₁, e₁⟩
  rw [hi] at h hidentify
  dsimp only at h hidentify ⊢
  obtain ⟨hrest, hbackground⟩ := hidentify
  have hlive : (e₁.establish j₁.functionName).live.find? j₁.key = some live := by
    rw [hrest]
    exact h
  have hf : (e₁.workshop? j₁.functionName).isSome := by
    rw [hrest]
    exact he.keeps.known h
  simp only [submit, hi, hlive, true_and, ← hbackground]
  rw [← hrest]
  exact joined_await hf client

/-- A worker is not handed a job that has ended, or one that another still works on. -/
theorem InOrder.not_handed (he : e.InOrder) {id : SessionId} (hid : id ∈ e.connected) {j : Job}
    (h : (e.nextJob id).1 = some j) :
    ¬ e.ledger.Spent j.handle ∧ ∀ id', ¬ e.ledger.Held j.handle id' := by
  obtain ⟨ms, l', hp, -, hms, -⟩ := he.keeps.takeFrom (e.abilities id) he.consistent hid
  obtain ⟨j₀, hj₀, rfl⟩ := hms.handed j h
  refine ⟨fun hs => hs.not_hand he.consistent hp hj₀ rfl, fun id' hh => ?_⟩
  obtain ⟨j', hj'⟩ := hh.requeue_of_hand he.consistent hp hj₀ rfl
  rcases hms.cause _ hj' with ⟨_, -, hm⟩ | ⟨_, hm, -⟩ <;> exact Move.noConfusion hm

/-- Through a run a worker keeps a job, unless the job ends or the worker disconnects and the job is
queued again. -/
theorem IsRun.held {as : List (Action σ)} (h : e.IsRun as) (he : e.InOrder) {handle : String}
    {id : SessionId} (hh : e.ledger.Held handle id) :
    (e.run as).ledger.Held handle id ∨ (e.run as).ledger.Spent handle ∨
      .disconnect id ∈ as ∧ e.settings.disconnectPolicy = .requeue := by
  obtain ⟨ms, hp, hcause⟩ := h.path he
  rcases hh.path he.consistent hp with hh | hs | ⟨j, hj⟩
  · exact .inl hh
  · exact .inr (.inl hs)
  · obtain ⟨past, a, later, rfl, hrequeue⟩ := hcause _ hj
    cases hrequeue with
    | requeue _ _ hpolicy =>
      rw [settings_run] at hpolicy
      exact .inr (.inr ⟨List.mem_append_right _ List.mem_cons_self, hpolicy⟩)

theorem IsRun.spent {as : List (Action σ)} (h : e.IsRun as) (he : e.InOrder) {handle : String}
    (hs : e.ledger.Spent handle) : (e.run as).ledger.Spent handle := by
  obtain ⟨ms, hp, -⟩ := h.path he
  exact hs.path hp

/-- What a run `as` from `e` says about the executions of a job. -/
structure OneExecution (e : Engine σ) (as : List (Action σ)) : Prop where
  /-- A submission with the key of a live job changes nothing but the wait list of that job. -/
  joined : ∀ {j : Job} {live : LiveJob},
    (e.run as).live.find? ((e.run as).identify j).1.key = some live → ∀ client,
      ((e.run as).submit j client).1 = .ok live.job ∧
        Joined { e.run as with uniqueIds := ((e.run as).identify j).2.uniqueIds }
          ((e.run as).submit j client).2 ((e.run as).identify j).1.key j.background client
  held_once : ∀ {handle id id'}, handle ∈ (e.run as).assigned id →
    handle ∈ (e.run as).assigned id' → id = id'
  /-- A handle that was handed out before is handed out after its worker has disconnected. -/
  requeued : ∀ {past between id id' j j'}, as = past ++ .grab id :: between →
    ((e.run past).nextJob id).1 = some j → id' ∈ (e.run as).connected →
    ((e.run as).nextJob id').1 = some j' → j'.handle = j.handle →
    .disconnect id ∈ between ∧ e.settings.disconnectPolicy = .requeue
  /-- A handle whose job has ended is never handed out again, however the job has ended. -/
  ended : ∀ {past later a handle id j}, as = past ++ a :: later →
    (e.run past).Concludes handle a → id ∈ (e.run as).connected →
    ((e.run as).nextJob id).1 = some j → j.handle ≠ handle

theorem IsRun.oneExecution {as : List (Action σ)} (h : e.IsRun as) (he : e.InOrder) :
    e.OneExecution as where
  joined := fun hlive client => (h.inOrder he).submit_of_live hlive client
  held_once := by
    intro handle id id' hh hh'
    obtain ⟨k, live, hlive, rfl, hw⟩ := (h.inOrder he).consistent.assigned_iff.mp hh
    exact Option.some.inj (hw.symm.trans (((h.inOrder he).consistent.mem_assigned hlive).mp hh'))
  requeued := by
    intro past between id id' j j' has hj hid' hj' hhandle
    subst has
    obtain ⟨-, he₁, ha, hroom, he₂, hbetween⟩ := h.split he
    obtain ⟨ms, hms, hp, -⟩ := he₁.act ha hroom
    rw [run_append] at hid' hj'
    obtain ⟨hspent, hheld⟩ := (hbetween.inOrder he₂).not_handed hid' hj'
    rw [hhandle] at hspent hheld
    obtain ⟨j₀, hj₀, rfl⟩ := Handed.handed hms j hj
    rcases hp.held_of_hand he₁.consistent hj₀ with hh | hs | ⟨_, hrequeue⟩
    · rcases hbetween.held he₂ hh with hh | hs | ⟨hd, hpolicy⟩
      · exact absurd hh (hheld id)
      · exact absurd hs hspent
      · rw [settings_act, settings_run] at hpolicy
        exact ⟨hd, hpolicy⟩
    · exact absurd (hbetween.spent he₂ hs) hspent
    · nomatch hms.cause hrequeue
  ended := by
    intro past later a handle id j has hends hid hj
    subst has
    obtain ⟨-, he₁, ha, hroom, he₂, hlater⟩ := h.split he
    rw [run_append] at hid hj
    have hspent := hends.spent he₁ ha hroom
    intro hh
    rw [← hh] at hspent
    exact ((hlater.inOrder he₂).not_handed hid hj).1 (hlater.spent he₂ hspent)

/-- Submissions with one key are executed once, and by one worker at a time. -/
theorem oneExecution_run (settings : EngineSettings) (store : σ) (now : Int64)
    (newId : Nat → String) (isLinked : Bool) (as : List (Action σ))
    (h : (start settings store now newId isLinked).IsRun as) :
    (start settings store now newId isLinked).OneExecution as :=
  h.oneExecution (start_inOrder settings store now newId isLinked)

/-- One worker leaves its job, to which a second client has come, and another worker ends it. A
second job is removed meanwhile. -/
theorem oneExecution_run_two_workers :
    ∃ past later : List (Action MemoryStore),
      (start .default MemoryStore.empty 0 decimal true).IsRun
        (past ++ .remove "H:localhost:2" :: later) ∧
      ((start .default MemoryStore.empty 0 decimal true).run past).Concludes "H:localhost:2"
        (.remove "H:localhost:2") ∧
      ((start .default MemoryStore.empty 0 decimal true).run
        (past ++ .remove "H:localhost:2" :: later)).live.find? ⟨"f", "u"⟩ = none ∧
      (start .default MemoryStore.empty 0 decimal true).OneExecution
        (past ++ .remove "H:localhost:2" :: later) := by
  refine ⟨[.arrive "1.1.1.1:1", .arrive "1.1.1.1:2", .connect 0, .connect 1, .canDo 0 "f" none,
    .canDo 1 "f" none, .submit (.new "f" "u" []) (some 1), .grab 0,
    .submit (.new "f" "u" []) (some 0), .submit (.new "f" "v" []) (some 1)],
    [.disconnect 0, .grab 1, .finish "H:localhost:1" .fail], ?_, .removed ?_, ?_,
    oneExecution_run .default MemoryStore.empty 0 decimal true _ ?_⟩ <;> decide +kernel

end Engine

end JobBroker
