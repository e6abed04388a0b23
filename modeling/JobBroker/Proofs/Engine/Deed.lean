import JobBroker.Proofs.Engine.Filed
import JobBroker.Proofs.Engine.Recovery
import JobBroker.Proofs.Engine.Wakefulness

/-!
# Deeds

A broker takes up stored jobs when it starts, but nothing keeps an engine from doing so later, among
its actions. A deed is an action or the taking up of all stored jobs; none of what follows asks
whether the actions are legal.

* `Core.Revival`, `core_restore` : what becomes of the core when a stored job is taken up.
* `restoreAll_of_restore`, `loaded_snd` : what holds of one job that is taken up holds of all.
* `Filed.performAll`, `tended_performAll` : queues agree with the live jobs, and with themselves.
* `named_performAll` : each queue has the name of its function.
* `Calm.load` : nobody is called for stored jobs.
-/

namespace JobBroker

open Function (update update_apply)

/-- Whatever may be done to an engine at any time. -/
inductive Deed (σ : Type)
  | act (a : Action σ)
  /-- All stored jobs are taken up. -/
  | load

/-! ### Stored jobs that are taken up -/

namespace Core

variable {σ : Type} {c c' : Core σ} {j : Job} {handles : HandleFactory}

/-- A stored job is queued, and is live again, unless its unique id is queued already. A live job
with its key that is worked on makes way for it. -/
inductive Revival (c : Core σ) (j : Job) (handles : HandleFactory) : Core σ → Prop
  | skipped : Revival c j handles { c with handles }
  | queued : (c.queues j.functionName).find? j.uniqueId = none →
    Revival c j handles
      { live := c.live.insert j none
        queues := update c.queues j.functionName ((c.queues j.functionName).accept j.summary)
        store := c.store
        handles }

theorem Revival.of_handles {handles' : HandleFactory}
    (h : Revival { c with handles := handles' } j handles c') : c.Revival j handles c' := by
  cases h with
  | skipped => exact .skipped
  | queued hnone => exact .queued hnone

theorem Filed.revival (hc : c.Filed) (hj : j.state = .queued) (h : c.Revival j handles c') :
    c'.Filed ∧ ∀ k, (c'.live.find? k).isSome → j.key = k ∨ (c.live.find? k).isSome := by
  cases h with
  | skipped => exact ⟨{ hc with }, fun _ hk => .inr hk⟩
  | queued _ =>
    have haccept := find?_update_accept (c := c) j.summary
    constructor
    · refine hc.of_update j.key (fun k hk => ?_) (fun f u hk => ?_) (fun live hl => ?_) ?_
      · simp [hk]
      · exact (haccept f u).trans (if_neg hk)
      · obtain rfl : _ = live := by simpa using hl
        exact ⟨rfl, .inl hj⟩
      · refine (haccept _ _).trans ?_
        simp [LiveJobs.waiting, hj, Job.key]
    · intro k hk
      rw [LiveJobs.find?_insert] at hk
      split at hk
      · next hkey => exact .inl hkey
      · exact .inr hk

/-- Each queue is that of its function. -/
def Named (c : Core σ) : Prop := ∀ f, (c.queues f).functionName = f

namespace Named

theorem update (hc : c.Named) {f : String} {q : Queue}
    (hq : q.functionName = (c.queues f).functionName) (live : LiveJobs) (store : σ)
    (handles : HandleFactory) : Named ⟨live, update c.queues f q, store, handles⟩ := by
  intro g
  show (Function.update c.queues f q g).functionName = g
  rw [update_apply]
  split
  · next hg => rw [hq, hc, hg]
  · exact hc g

theorem revival (hc : c.Named) (h : c.Revival j handles c') : c'.Named := by
  cases h with
  | skipped => exact hc
  | queued _ => exact hc.update (q := (c.queues j.functionName).accept j.summary) rfl _ _ _

variable [JobStore σ]

theorem admission (hc : c.Named) (h : c.Admission c') : c'.Named := by
  cases h with
  | refused _ => exact hc
  | @letIn j _ _ _ _ _ =>
    exact hc.update (q := (c.queues j.functionName).accept j.summary) rfl _ _ _

theorem shift (hc : c.Named) (h : c.Shift c') : c'.Named := by
  cases h with
  | adjust hname _ => exact hc.update hname _ _ _
  | lose hq _ _ | hand hq _ _ | adopt hq _ _ | remove hq => exact hc.update hq.functionName _ _ _
  | requeue _ =>
    refine hc.update ?_ _ _ _
    unfold Queue.reinstate
    split <;> rfl
  | advance | finish _ _ => exact hc

theorem shifts (hc : c.Named) (h : Relation.ReflTransGen Shift c c') : c'.Named := by
  induction h with
  | refl => exact hc
  | tail _ hs ih => exact ih.shift hs

end Named

end Core

theorem Watch.Tended.setQueue {w : Watch} (hw : w.Tended) {f : String} {q : Queue}
    (hq : q.Orderly) : (w.setQueue f q).Tended := by
  refine { hw with orderly := fun g => ?_ }
  show (update w.queues f q g).Orderly
  rw [update_apply]
  split
  · exact hq
  · exact hw.orderly g

namespace Engine

variable {σ : Type} {e : Engine σ}

/-- What an engine is after it has taken up the job `j`, which has a handle now. -/
def revive (e : Engine σ) (j : Job) : Engine σ :=
  let q := (e.workshop j.functionName).queue
  if q.contains j.uniqueId then e
  else { e.setQueue j.functionName (q.accept j.summary) with live := e.live.insert j none }

theorem restore_snd (e : Engine σ) (j : Job) :
    (e.restore j).2 =
      let h := if j.handle = "" then e.handles.next else (j.handle, e.handles)
      revive ({ e with handles := h.2 }.establish j.functionName)
        { j.renewed with handle := h.1 } := by
  simp only [Engine.restore, revive, Queue.reinstate]
  split <;> split <;> simp_all [Job.renewed, Job.summary]

/-- What is kept when a function becomes known, and when its queue and the live jobs change, is kept
when a job is taken up. -/
theorem restore_of_steps {P : Engine σ → Prop} {j : Job}
    (hknown : ∀ handles, P (establish { e with handles } j.functionName))
    (hqueue : ∀ e' q live, P e' → P { e'.setQueue j.functionName q with live }) :
    P (e.restore j).2 := by
  have hrevive : ∀ e' j', j'.functionName = j.functionName → P e' → P (revive e' j') := by
    intro e' j' hname he'
    unfold revive
    dsimp only
    split
    · exact he'
    · exact hname ▸ hqueue e' _ _ he'
  rw [restore_snd]
  exact hrevive _ _ rfl (hknown _)

theorem core_revive {j : Job} (hf : (e.workshop? j.functionName).isSome) :
    e.core.Revival j e.handles (e.revive j).core := by
  unfold revive
  dsimp only
  split
  · exact .skipped
  · next hnew =>
    have hnone : (e.core.queues j.functionName).find? j.uniqueId = none :=
      Queue.find?_of_contains_eq_false (Bool.eq_false_iff.mpr hnew)
    have hcore := core_setQueue hf ((e.workshop j.functionName).queue.accept j.summary)
    have hlive := congrArg (fun c : Core σ => { c with live := e.live.insert j none }) hcore
    exact Eq.subst (motive := e.core.Revival j e.handles) hlive.symm (.queued hnone)

/-- A stored job is taken up under its own handle, or under the next one if it has none. -/
theorem core_restore (e : Engine σ) (j : Job) :
    e.core.Revival
      { j.renewed with handle := if j.handle = "" then e.handles.next.1 else j.handle }
      (if j.handle = "" then e.handles.next.2 else e.handles) (e.restore j).2.core := by
  obtain ⟨h, hh⟩ : ∃ h, (if j.handle = "" then e.handles.next else (j.handle, e.handles)) = h :=
    ⟨_, rfl⟩
  have hhandle : (if j.handle = "" then e.handles.next.1 else j.handle) = h.1 := by
    rw [← hh]
    split <;> rfl
  have hhandles : (if j.handle = "" then e.handles.next.2 else e.handles) = h.2 := by
    rw [← hh]
    split <;> rfl
  have hrevive := core_revive (j := { j.renewed with handle := h.1 })
    (isSome_establish { e with handles := h.2 } j.functionName)
  rw [restore_snd, hhandle, hhandles, hh]
  rw [core_establish] at hrevive
  exact hrevive.of_handles

theorem known_restore {f : String} {j : Job}
    (hf : f = j.functionName ∨ (e.workshop? f).isSome) : ((e.restore j).2.workshop? f).isSome := by
  apply restore_of_steps (P := fun e' : Engine σ => (e'.workshop? f).isSome)
  · intro handles
    rcases hf with rfl | hf
    · exact isSome_establish _ _
    · exact isSome_establish_of_isSome hf _
  · exact fun e' q live hf' => (isSome_modifyWorkshop e' _ f _).trans hf'

theorem Filed.restore (he : e.Filed) (j : Job) : (e.restore j).2.Filed := by
  obtain ⟨hfiled, hlive⟩ := he.toFiled.revival rfl (core_restore e j)
  refine { hfiled with known := fun {k} hk => known_restore ?_ }
  rcases hlive k hk with rfl | hold
  · exact .inl rfl
  · exact .inr (he.known hold)

theorem tended_restore (he : e.watch.Tended) (j : Job) : (e.restore j).2.watch.Tended := by
  have hrevive : ∀ e' : Engine σ, e'.watch.Tended → ∀ j' : Job,
      (e'.workshop? j'.functionName).isSome → (e'.revive j').watch.Tended := by
    intro e' he' j' hf
    unfold revive
    dsimp only
    split
    · exact he'
    · next hnew =>
      have hqueue : (e'.workshop j'.functionName).queue.Orderly := he'.orderly j'.functionName
      have haccept := hqueue.accept (j := j'.summary)
        (Queue.find?_of_contains_eq_false (Bool.eq_false_iff.mpr hnew))
      have hset := he'.setQueue (f := j'.functionName) haccept
      rw [← watch_setQueue hf] at hset
      exact { hset with }
  rw [restore_snd]
  exact hrevive _ ((watch_establish _ j.functionName).symm ▸ { he with }) _ (isSome_establish _ _)

theorem Calm.restore (e : Engine σ) (j : Job) : Calm e (e.restore j).2 := by
  apply restore_of_steps (P := Calm e)
  · exact fun _ => (Calm.establish _ _).after ((Calm.refl e).same rfl)
  · exact fun e' q _ he' => ((Calm.setQueue e' _ q).after he').same rfl

/-! ### Taking up all stored jobs -/

/-- What each job that is taken up keeps, all of them keep. -/
theorem restoreAll_of_restore {P : Engine σ → Prop} {js : List Job}
    (hP : ∀ e, ∀ j ∈ js, P e → P (e.restore j).2) (he : P e) : P (e.restoreAll js).2 := by
  induction js generalizing e with
  | nil => exact he
  | cons j js ih =>
    exact ih (fun e i hi => hP e i (List.mem_cons_of_mem j hi)) (hP e j List.mem_cons_self he)

variable [JobStore σ]

/-- Reading what is stored concerns the store and the handles. -/
theorem loaded_snd (e : Engine σ) : ∃ store handles, e.loaded.2 = { e with store, handles } := by
  unfold loaded
  split
  · next store _ => exact ⟨store, e.handles, rfl⟩
  · next queued store _ =>
    obtain ⟨store', hsnd⟩ := readRecords_snd queued { e with store }
    exact ⟨store', _, hsnd⟩

theorem Filed.load (he : e.Filed) : e.load.2.Filed := by
  obtain ⟨store, handles, hloaded⟩ := loaded_snd e
  rw [load_snd]
  apply restoreAll_of_restore (P := Filed) fun e' j _ he' => he'.restore j
  rw [hloaded]
  exact { he with }

theorem tended_load (he : e.watch.Tended) : e.load.2.watch.Tended := by
  obtain ⟨store, handles, hloaded⟩ := loaded_snd e
  rw [load_snd]
  apply restoreAll_of_restore (P := (·.watch.Tended)) fun e' j _ he' => tended_restore he' j
  rw [hloaded]
  exact { he with }

theorem fixed_load (e : Engine σ) : e.load.2.fixed = e.fixed := by
  obtain ⟨store, handles, hloaded⟩ := loaded_snd e
  rw [load_snd]
  apply restoreAll_of_restore (P := (·.fixed = e.fixed))
  · intro e' j _ he'
    exact restore_of_steps (P := (·.fixed = e.fixed)) (fun _ => he') fun _ _ _ h => h
  · rw [hloaded]
    rfl

theorem Calm.load (e : Engine σ) : Calm e e.load.2 := by
  obtain ⟨store, handles, hloaded⟩ := loaded_snd e
  rw [load_snd]
  apply restoreAll_of_restore (P := Calm e) fun e' j _ he' => (Calm.restore e' j).after he'
  rw [hloaded]
  exact (Calm.refl e).same rfl

/-! ### Deeds -/

def perform (e : Engine σ) : Deed σ → Engine σ
  | .act a => e.act a
  | .load => e.load.2

def performAll (e : Engine σ) (ds : List (Deed σ)) : Engine σ := ds.foldl perform e

theorem Filed.perform (he : e.Filed) (d : Deed σ) : (e.perform d).Filed := by
  cases d with
  | act a => exact he.act a
  | load => exact he.load

theorem Filed.performAll (he : e.Filed) (ds : List (Deed σ)) : (e.performAll ds).Filed := by
  induction ds generalizing e with
  | nil => exact he
  | cons d ds ih => exact ih (he.perform d)

theorem named_perform (he : e.core.Named) (d : Deed σ) : (e.perform d).core.Named := by
  cases d with
  | load =>
    obtain ⟨store, handles, hloaded⟩ := loaded_snd e
    show e.load.2.core.Named
    rw [load_snd]
    apply restoreAll_of_restore (P := (·.core.Named)) fun e' j _ he' =>
      he'.revival (core_restore e' j)
    rw [hloaded]
    exact he
  | act a =>
    by_cases ha : ∃ change, a = .alterStore change
    · obtain ⟨change, rfl⟩ := ha
      exact he
    · rcases core_act e fun change h => ha ⟨change, h⟩ with h | h
      · exact he.admission h
      · exact he.shifts h

theorem named_performAll (he : e.core.Named) (ds : List (Deed σ)) :
    (e.performAll ds).core.Named := by
  induction ds generalizing e with
  | nil => exact he
  | cons d ds ih => exact ih (named_perform he d)

theorem tended_perform (he : e.watch.Tended) (d : Deed σ) : (e.perform d).watch.Tended := by
  cases d with
  | act a => exact tended_act he a
  | load => exact tended_load he

theorem tended_performAll (he : e.watch.Tended) (ds : List (Deed σ)) :
    (e.performAll ds).watch.Tended := by
  induction ds generalizing e with
  | nil => exact he
  | cons d ds ih => exact ih (tended_perform he d)

end Engine

end JobBroker
