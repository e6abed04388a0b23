import JobBroker.Engine.Recovery
import JobBroker.Proofs.Engine.Run
import JobBroker.Proofs.Engine.Turns
import JobBroker.Store.Memory

/-!
# Sleeping workers and ready jobs

A worker goes to sleep for what it can do then. While the clock stands, it is not left asleep beside
a job of such a function that may be handed out. What it learns in its sleep it is not woken for.

* `Watch.Tended`, `tended_run` : who is listed for a function can do it, whatever the clock does.
* `Watch.Wakeful` : nobody who is listed for a function sleeps while there is something ready.
* `not_ready_of_asleep` : so it is after every run.
* `asleep_beside_ready` : a function that was learned in sleep has to be left out.
-/

namespace JobBroker

open Text (decimal)

open Relation (ReflTransGen)

namespace Watch

variable {w w' : Watch} {id : SessionId} {f : String}

/-- Sessions are numbered as they come, queues hold what they list, and who is listed for a function
can do it. -/
structure Tended (w : Watch) : Prop where
  roll_lt : ∀ i ∈ w.roll, i < w.roll.length
  orderly : ∀ f, (w.queues f).Orderly
  able_of_listed : ∀ {f i}, w.listed f i → w.able i f

structure Wakeful (w : Watch) : Prop extends Tended w where
  idle : ∀ {f i}, w.listed f i → w.asleep i → (w.queues f).hasReady w.now = false

theorem Turn.now_eq (h : w.Turn w') : w'.now = w.now := by
  cases h <;> rfl

theorem Tended.turn (hw : w.Tended) (h : w.Turn w') : w'.Tended := by
  cases h with
  | arrive =>
    refine { hw with roll_lt := fun i hi => ?_ }
    rw [arrive, List.length_append]
    rcases List.mem_append.mp hi with hi | hi
    · exact Nat.lt_succ_of_lt (hw.roll_lt i hi)
    · exact List.mem_singleton.mp hi ▸ Nat.lt_succ_self _
  | doze =>
    refine { hw with able_of_listed := ?_ }
    rintro f i (h | ⟨rfl, h⟩)
    · exact hw.able_of_listed h
    · exact h
  | rouse => exact { hw with able_of_listed := fun h => hw.able_of_listed h.1 }
  | forget => exact { hw with able_of_listed := fun h => ⟨hw.able_of_listed h.1, h.2⟩ }
  | @supply f q hq =>
    refine { hw with orderly := fun g => ?_, able_of_listed := fun h => hw.able_of_listed h.1 }
    by_cases hg : g = f
    · subst hg
      simpa [alarm, setQueue] using hq (hw.orderly g)
    · simpa [alarm, setQueue, hg] using hw.orderly g
  | @withdraw f q hq =>
    refine { hw with orderly := fun g => ?_ }
    by_cases hg : g = f
    · subst hg
      simpa [setQueue] using hq.orderly (hw.orderly g)
    · simpa [setQueue, hg] using hw.orderly g

theorem Tended.turns (hw : w.Tended) (h : ReflTransGen Turn w w') : w'.Tended := by
  induction h with
  | refl => exact hw
  | tail _ h ih => exact ih.turn h

theorem Tended.learn (hw : w.Tended) (id : SessionId) (f : String) : (w.learn id f).Tended :=
  { hw with able_of_listed := fun h => .inl (hw.able_of_listed h) }

theorem Wakeful.turn (hw : w.Wakeful) (h : w.Turn w') : w'.Wakeful := by
  refine ⟨hw.toTended.turn h, ?_⟩
  cases h with
  | arrive => exact hw.idle
  | doze hready =>
    rintro f i hlisted (hasleep | rfl)
    · rcases hlisted with h | ⟨rfl, h⟩
      · exact hw.idle h hasleep
      · exact hready f h
    · exact hready f (hlisted.elim hw.able_of_listed And.right)
  | rouse => exact fun h hasleep => hw.idle h.1 hasleep.1
  | forget => exact fun h => hw.idle h.1
  | supply hq => exact fun h hasleep => by simpa [alarm, setQueue, h.2] using hw.idle h.1 hasleep.1
  | @withdraw f q hq =>
    intro g i h hasleep
    have hidle := hw.idle h hasleep
    by_cases hg : g = f
    · subst hg
      refine Bool.eq_false_iff.mpr fun hready => Bool.eq_false_iff.mp hidle ?_
      exact hq.hasReady (hw.orderly g) (by simpa [setQueue] using hready)
    · simpa [setQueue, hg] using hidle

theorem Wakeful.turns (hw : w.Wakeful) (h : ReflTransGen Turn w w') :
    w'.Wakeful ∧ w'.now = w.now := by
  induction h with
  | refl => exact ⟨hw, rfl⟩
  | tail _ h ih => exact ⟨ih.1.turn h, h.now_eq.trans ih.2⟩

theorem Wakeful.learn (hw : w.Wakeful) (id : SessionId) (f : String) : (w.learn id f).Wakeful :=
  { hw.toTended.learn id f with idle := hw.idle }

/-- If the session sleeps, it is woken when a job of the function comes in. -/
def Minds (w : Watch) (id : SessionId) (f : String) : Prop := w.asleep id → w.listed f id

theorem Turn.able (h : w.Turn w') (hable : w'.able id f) : w.able id f := by
  cases h with
  | forget => exact hable.1
  | _ => exact hable

/-- A session that still can do a function still is woken for it, if it sleeps. -/
theorem Minds.turn (hm : w.Minds id f) (h : w.Turn w') (hable : w'.able id f) : w'.Minds id f := by
  cases h with
  | doze =>
    rintro (hasleep | rfl)
    · exact .inl (hm hasleep)
    · exact .inr ⟨rfl, hable⟩
  | rouse => exact fun hasleep => ⟨hm hasleep.1, fun h => hasleep.2 h.1⟩
  | forget => exact fun hasleep => ⟨hm hasleep, hable.2⟩
  | supply _ =>
    refine fun hasleep => ⟨hm hasleep.1, ?_⟩
    rintro rfl
    exact hasleep.2 (hm hasleep.1)
  | _ => exact hm

theorem Minds.turns (hm : w.Minds id f) (h : ReflTransGen Turn w w') (hable : w'.able id f) :
    w'.Minds id f := by
  induction h with
  | refl => exact hm
  | tail _ h ih => exact (ih (h.able hable)).turn h hable

end Watch

namespace Engine

variable {σ : Type} [JobStore σ] {e : Engine σ} {a : Action σ} {id : SessionId} {f : String}

/-! ### Actions and runs -/

theorem tended_act (he : e.watch.Tended) (a : Action σ) : (e.act a).watch.Tended := by
  by_cases hlearn : ∃ id f timeout, a = .canDo id f timeout
  · obtain ⟨id, f, timeout, rfl⟩ := hlearn
    have hwatch : (e.act (.canDo id f timeout)).watch = _ := watch_addAbility e id f timeout
    rw [hwatch]
    split
    · exact he.learn id f
    · exact he
  by_cases hclock : ∃ now, a = .setClock now
  · obtain ⟨now, rfl⟩ := hclock
    exact { he with }
  · exact he.turns (turns_act he.roll_lt (fun now h => absurd ⟨now, h⟩ hclock)
      fun id f timeout h => hlearn ⟨id, f, timeout, h⟩)

theorem tended_run (he : e.watch.Tended) (as : List (Action σ)) : (e.run as).watch.Tended := by
  induction as generalizing e with
  | nil => exact he
  | cons a as ih => exact ih (tended_act he a)

theorem wakeful_act (he : e.watch.Wakeful) (hclock : ∀ now, a = .setClock now → now = e.now) :
    (e.act a).watch.Wakeful ∧ (e.act a).now = e.now := by
  by_cases hlearn : ∃ id f timeout, a = .canDo id f timeout
  · obtain ⟨id, f, timeout, rfl⟩ := hlearn
    have hwatch : (e.act (.canDo id f timeout)).watch = _ := watch_addAbility e id f timeout
    refine ⟨?_, rfl⟩
    rw [hwatch]
    split
    · exact he.learn id f
    · exact he
  · exact he.turns (turns_act he.roll_lt hclock fun id f timeout h => hlearn ⟨id, f, timeout, h⟩)

theorem minds_act (he : e.watch.Wakeful) (hclock : ∀ now, a = .setClock now → now = e.now)
    (hm : e.watch.Minds id f) (hable : f ∈ (e.act a).abilities id) :
    (e.act a).watch.Minds id f := by
  by_cases hlearn : ∃ id f timeout, a = .canDo id f timeout
  · obtain ⟨i, g, timeout, rfl⟩ := hlearn
    have hwatch : (e.act (.canDo i g timeout)).watch = _ := watch_addAbility e i g timeout
    rw [hwatch]
    split <;> exact hm
  · have hturns := turns_act he.roll_lt hclock fun id f timeout h => hlearn ⟨id, f, timeout, h⟩
    exact hm.turns hturns hable

/-- A session that goes to sleep is woken for all it can do. -/
theorem minds_sleep (hable : f ∈ (e.act (.sleep id)).abilities id) :
    (e.act (.sleep id)).watch.Minds id f := by
  cases hs : e.session? id with
  | none =>
    have hwatch : (e.act (.sleep id)).watch = e.watch := sleep_of_none hs
    rw [hwatch]
    exact fun hasleep => absurd hasleep (by simp [watch, isAsleep_eq, hs])
  | some s =>
    have hwatch : (e.act (.sleep id)).watch = _ := watch_sleep e (by rw [hs]; rfl)
    have hable : e.watch.able id f := by
      have hable : (e.act (.sleep id)).watch.able id f := hable
      rw [hwatch] at hable
      split at hable <;> exact hable
    rw [hwatch]
    split
    · exact fun hasleep => absurd rfl hasleep.2
    · exact fun _ => .inr ⟨rfl, hable⟩

theorem wakeful_run {as : List (Action σ)} (he : e.watch.Wakeful)
    (hclock : ∀ now, .setClock now ∈ as → now = e.now) :
    (e.run as).watch.Wakeful ∧ (e.run as).now = e.now := by
  induction as generalizing e with
  | nil => exact ⟨he, rfl⟩
  | cons a as ih =>
    obtain ⟨he', hnow⟩ := wakeful_act (a := a) he fun now h => hclock now (h ▸ List.mem_cons_self)
    obtain ⟨hrun, hnow'⟩ := ih he' fun now h =>
      (hclock now (List.mem_cons_of_mem a h)).trans hnow.symm
    exact ⟨hrun, hnow'.trans hnow⟩

/-- The session can do the function, and could at any time since it has last gone to sleep. -/
def AbleSinceSleep (e : Engine σ) (as : List (Action σ)) (id : SessionId) (f : String) : Prop :=
  ∃ past later, as = past ++ .sleep id :: later ∧
    ∀ n ≤ later.length, f ∈ (e.run (past ++ .sleep id :: later.take n)).abilities id

/-- A session that stays able to do a function is still woken for it. -/
theorem minds_run {as : List (Action σ)} (he : e.watch.Wakeful)
    (hclock : ∀ now, .setClock now ∈ as → now = e.now) (hm : e.watch.Minds id f)
    (hable : ∀ n ≤ as.length, f ∈ (e.run (as.take n)).abilities id) :
    (e.run as).watch.Minds id f := by
  induction as generalizing e with
  | nil => exact hm
  | cons a as ih =>
    have hclock' : ∀ now, a = .setClock now → now = e.now := fun now h =>
      hclock now (h ▸ List.mem_cons_self)
    obtain ⟨he', hnow⟩ := wakeful_act he hclock'
    refine ih he' (fun now h => (hclock now (List.mem_cons_of_mem a h)).trans hnow.symm)
      (minds_act he hclock' hm (hable 1 (by simp))) fun n hn => ?_
    exact hable (n + 1) (Nat.succ_le_succ hn)

theorem AbleSinceSleep.minds {as : List (Action σ)} (h : e.AbleSinceSleep as id f)
    (he : e.watch.Wakeful) (hclock : ∀ now, .setClock now ∈ as → now = e.now) :
    (e.run as).watch.Minds id f := by
  obtain ⟨past, later, rfl, hable⟩ := h
  have hsplit : ∀ bs, e.run (past ++ .sleep id :: bs) = ((e.run past).act (.sleep id)).run bs :=
    fun bs => run_append e past _
  simp only [hsplit] at hable ⊢
  obtain ⟨hpast, hnow⟩ := wakeful_run he fun now (h : .setClock now ∈ past) =>
    hclock now (List.mem_append_left _ h)
  obtain ⟨hslept, hnow'⟩ := wakeful_act (a := .sleep id) hpast (by simp)
  exact minds_run hslept (fun now h => (hclock now (by simp [h])).trans (hnow'.trans hnow).symm)
    (minds_sleep (hable 0 (Nat.zero_le _))) hable

/-! ### How a run begins -/

/-- No session has begun yet. -/
structure Unmanned (w : Watch) : Prop where
  roll_eq : w.roll = []
  not_asleep : ∀ i, ¬ w.asleep i
  not_listed : ∀ f i, ¬ w.listed f i
  orderly : ∀ f, (w.queues f).Orderly

theorem Unmanned.wakeful {w : Watch} (h : Unmanned w) : w.Wakeful where
  roll_lt := by simp [h.roll_eq]
  orderly := h.orderly
  able_of_listed := fun hi => absurd hi (h.not_listed _ _)
  idle := fun hi => absurd hi (h.not_listed _ _)

omit [JobStore σ] in
theorem unmanned_start (settings : EngineSettings) (store : σ) (now : Int64) (newId : Nat → String)
    (isLinked : Bool) : Unmanned (start settings store now newId isLinked).watch where
  roll_eq := rfl
  not_asleep := fun _ => Bool.false_ne_true
  not_listed := fun _ _ => List.not_mem_nil
  orderly := fun f => .new f _

theorem watch_readRecords (qs : List QueuedJob) (e : Engine σ) :
    (e.readRecords qs).2.watch = e.watch := by
  induction qs generalizing e with
  | nil => rfl
  | cons q qs ih =>
    unfold readRecords
    split
    · exact ih _
    · exact ih _

omit [JobStore σ] in
theorem Unmanned.reinstate (he : Unmanned e.watch) (f : String) (j : QueuedJob) :
    Unmanned ((e.establish f).setQueue f
      (((e.establish f).workshop f).queue.reinstate j).2).watch := by
  rw [watch_setQueue (isSome_establish e f), watch_establish, workshop_establish]
  refine { he with orderly := fun g => ?_ }
  by_cases hg : g = f
  · subst hg
    have hqueue : ((e.workshop g).queue.reinstate j).2.Orderly := (he.orderly g).reinstate j
    simpa [Watch.setQueue] using hqueue
  · simpa [Watch.setQueue, hg] using he.orderly g

omit [JobStore σ] in
theorem Unmanned.restore (he : Unmanned e.watch) (j : Job) :
    Unmanned (e.restore j).2.watch ∧ (e.restore j).2.now = e.now := by
  unfold Engine.restore
  rcases (if j.handle = "" then e.handles.next else (j.handle, e.handles)) with ⟨handle, handles⟩
  have he₁ : Unmanned ({ e with handles } : Engine σ).watch := he
  dsimp only
  split
  · exact ⟨he₁.reinstate j.functionName _, rfl⟩
  · exact ⟨(watch_establish { e with handles } j.functionName).symm ▸ he₁, rfl⟩

omit [JobStore σ] in
theorem Unmanned.restoreAll (js : List Job) (he : Unmanned e.watch) :
    Unmanned (e.restoreAll js).2.watch ∧ (e.restoreAll js).2.now = e.now := by
  induction js generalizing e with
  | nil => exact ⟨he, rfl⟩
  | cons j js ih =>
    obtain ⟨he', hnow⟩ := he.restore j
    obtain ⟨hrest, hnow'⟩ := ih he'
    exact ⟨hrest, hnow'.trans hnow⟩

theorem Unmanned.load (he : Unmanned e.watch) :
    Unmanned e.load.2.watch ∧ e.load.2.now = e.now := by
  unfold Engine.load
  rcases JobStore.readAll e.store with ⟨err | queued, store⟩
  · exact ⟨he, rfl⟩
  · have hread := watch_readRecords queued { e with store }
    have he₁ : Unmanned ({ e with store }.readRecords queued).2.watch := hread ▸ he
    obtain ⟨he', hnow⟩ := he₁.restoreAll ({ e with store }.readRecords queued).1
    exact ⟨he', hnow.trans (congrArg Watch.now hread)⟩

/-- While the clock stands, nothing is ready that a sleeping session could do ever since it has gone
to sleep, whether the engine has taken up stored jobs before the run or not. -/
theorem not_ready_of_asleep (settings : EngineSettings) (store : σ) (now : Int64)
    (newId : Nat → String) (isLinked : Bool)
    (he : e = start settings store now newId isLinked ∨
      e = (start settings store now newId isLinked).load.2)
    {as : List (Action σ)} (hclock : ∀ t, .setClock t ∈ as → t = now)
    (hable : e.AbleSinceSleep as id f) (hasleep : (e.run as).sessions.isAsleep id) :
    ∀ j ∈ ((e.run as).workshop f).queue.toList, ¬ j.isReady (e.run as).now := by
  have hstart := unmanned_start settings store now newId isLinked
  obtain ⟨hwakeful, hnow⟩ : e.watch.Wakeful ∧ e.now = now := by
    rcases he with rfl | rfl
    · exact ⟨hstart.wakeful, rfl⟩
    · exact ⟨hstart.load.1.wakeful, hstart.load.2⟩
  have hclock : ∀ t, .setClock t ∈ as → t = e.now := fun t h => (hclock t h).trans hnow.symm
  have hrun := (wakeful_run hwakeful hclock).1
  have hidle := hrun.idle (hable.minds hwakeful hclock hasleep) hasleep
  intro j hj hready
  exact Bool.eq_false_iff.mp hidle ((hrun.orderly f).hasReady_iff.mpr ⟨j, hj, hready⟩)

/-- A worker sleeps beside a job that is held; it learns something in its sleep. -/
theorem not_ready_of_asleep_held :
    ∃ as : List (Action MemoryStore),
      let e := start .default MemoryStore.empty 0 decimal false
      (∀ t, .setClock t ∈ as → t = 0) ∧ e.AbleSinceSleep as 0 "f" ∧
        (e.run as).sessions.isAsleep 0 ∧ ((e.run as).workshop "f").queue.toList.length = 1 ∧
        ∀ j ∈ ((e.run as).workshop "f").queue.toList, ¬ j.isReady (e.run as).now := by
  refine ⟨[.arrive "1.1.1.1:1", .connect 0, .canDo 0 "f" none,
      .submit { Job.new "f" "u" [] with timeToRun := 100 } none] ++ .sleep 0 ::
    [.canDo 0 "g" none, .submit (.new "g" "v" []) none], ?_, ⟨_, _, rfl, ?_⟩, ?_, ?_,
    not_ready_of_asleep .default MemoryStore.empty 0 decimal false (.inl rfl) ?_ ⟨_, _, rfl, ?_⟩ ?_⟩
  any_goals decide +kernel
  all_goals simp

/-- What a worker learns in its sleep it is not woken for, even when there is a job already. -/
theorem asleep_beside_ready :
    ∃ as : List (Action MemoryStore),
      let e := (start .default MemoryStore.empty 0 decimal false).run as
      (start .default MemoryStore.empty 0 decimal false).IsRun as ∧ (∀ t, .setClock t ∉ as) ∧
        0 ∈ e.connected ∧ e.sessions.isAsleep 0 ∧ "g" ∈ e.abilities 0 ∧
        ∃ j ∈ (e.workshop "g").queue.toList, j.isReady e.now := by
  refine ⟨[.arrive "1.1.1.1:1", .connect 0, .canDo 0 "f" none, .sleep 0,
    .submit (.new "g" "u" []) none, .canDo 0 "g" none], ?_, by simp, ?_, ?_, ?_, ?_⟩ <;>
      decide +kernel

end Engine

end JobBroker
