import JobBroker.Proofs.Engine.Action
import Mathlib.Logic.Relation

/-!
# The core of an engine

What jobs an engine has and what becomes of them shows in its core: the live jobs, the queues, the
store and the handle factory. Sessions, crews, wait lists and packets are no part of it, so most of
what an engine does leaves its core alone, whether it is legal or not.

* `Core.Admission`, `Core.Shift` : all that happens to a core.
* `Core.Tidy` : a shift after which no job has left that was not deleted from the store.
* `taken_submit` : how a submission is answered, and what becomes of the core.
* `core_act` : an action admits a job, or refuses one, or makes some shifts.
* `tidy_act` : all shifts are tidy but those of a grab.
* `handles_act` : an action uses up one handle at most.
-/

namespace JobBroker

open Function (update update_apply)
open Relation (ReflTransGen)

namespace Queue

/-- `q'` is what is left of `q` when the job `j`, which was queued under `u`, has been taken out. -/
structure Yields (q : Queue) (u : String) (j : QueuedJob) (q' : Queue) : Prop where
  functionName : q'.functionName = q.functionName
  find? : q.find? u = some j
  rest : ∀ v, q'.find? v = if u = v then none else q.find? v

theorem Yields.find?_of_find? {q q' : Queue} {u v : String} {j i : QueuedJob} (h : q.Yields u j q')
    (hi : q'.find? v = some i) : q.find? v = some i := by
  rw [h.rest] at hi
  split at hi
  · exact absurd hi (by simp)
  · exact hi

/-- What a queue gives out it held, and it keeps the rest. -/
theorem yields_takeNext {q q' : Queue} {now : Int64} {answer : Option QueuedJob}
    (h : q.takeNext now = (answer, q')) :
    answer = none ∧ q'.functionName = q.functionName ∧ q'.jobs = q.jobs ∨
      ∃ u j, answer = some j ∧ q.Yields u j q' := by
  unfold takeNext at h
  split at h
  · obtain ⟨rfl, rfl⟩ := Prod.mk.inj h
    exact .inl ⟨rfl, rfl, rfl⟩
  · next u lanes _ =>
    split at h
    · obtain ⟨rfl, rfl⟩ := Prod.mk.inj h
      exact .inl ⟨rfl, rfl, rfl⟩
    · next j hj =>
      obtain ⟨rfl, rfl⟩ := Prod.mk.inj h
      exact .inr ⟨u, j, rfl, rfl, hj, fun v => find?_without q u v lanes _⟩

theorem yields_remove {σ : Type} [JobStore σ] {q q' : Queue} {k : JobKey} {store store' : σ}
    (h : q.remove k store = (true, q', store')) :
    store' = (JobStore.delete k store).2 ∧ ∃ j, q.Yields k.uniqueId j q' := by
  cases hj : q.find? k.uniqueId with
  | none =>
    rw [remove_of_find?_eq_none hj] at h
    exact absurd (congrArg Prod.fst h) (by simp)
  | some j =>
    rw [remove_of_find? hj] at h
    obtain ⟨rfl, rfl⟩ := Prod.mk.inj (Prod.mk.inj h).2
    exact ⟨rfl, j, rfl, hj, fun v => find?_without q _ v _ _⟩

theorem remove_eq_false {σ : Type} [JobStore σ] {q q' : Queue} {k : JobKey} {store store' : σ}
    (h : q.remove k store = (false, q', store')) : q' = q ∧ store' = store := by
  cases hj : q.find? k.uniqueId with
  | none =>
    rw [remove_of_find?_eq_none hj] at h
    obtain ⟨rfl, rfl⟩ := Prod.mk.inj (Prod.mk.inj h).2
    exact ⟨rfl, rfl⟩
  | some j =>
    rw [remove_of_find? hj] at h
    exact absurd (congrArg Prod.fst h) (by simp)

theorem resolve_cases {σ : Type} [JobStore σ] {q : Queue} {j : QueuedJob}
    {answer : Option Job} {store store' : σ} (h : q.resolve j store = (answer, store')) :
    ∃ reply, JobStore.find ⟨q.functionName, j.uniqueId⟩ store = (reply, store') ∧
      (answer = none ∧ (∀ record, reply ≠ .ok (some record)) ∨
        ∃ record, answer = some record ∧ reply = .ok (some record)) := by
  unfold resolve at h
  split at h
  · next record _ hfind =>
    obtain ⟨rfl, rfl⟩ := Prod.mk.inj h
    refine ⟨_, hfind, ?_⟩
    cases record with
    | none => exact .inl ⟨rfl, by simp⟩
    | some record => exact .inr ⟨record, rfl, rfl⟩
  · next hfind =>
    obtain ⟨rfl, rfl⟩ := Prod.mk.inj h
    exact ⟨_, hfind, .inl ⟨rfl, by simp⟩⟩

end Queue

/-! ### What happens to a core -/

structure Core (σ : Type) where
  live : LiveJobs
  queues : String → Queue
  store : σ
  handles : HandleFactory

namespace Core

variable {σ : Type} [JobStore σ]

/-- A submission that no live job is in the way of. Whether the job is let in or not, a handle is
used up. -/
inductive Admission (c : Core σ) : Core σ → Prop
  | refused {j : Job} {store : σ} :
    (store = c.store ∨ ∃ reply, JobStore.write j c.store = (reply, store) ∧ reply ≠ .ok true) →
    Admission c { c with store, handles := c.handles.next.2 }
  | letIn {j : Job} {store : σ} : c.live.find? j.key = none → j.handle = c.handles.next.1 →
    j.renewed = j → JobStore.write j c.store = (.ok true, store) →
    Admission c
      { live := c.live.insert j none
        queues := update c.queues j.functionName ((c.queues j.functionName).accept j.summary)
        store
        handles := c.handles.next.2 }

/-- One thing that happens to the jobs of an engine after they are let in. -/
inductive Shift (c : Core σ) : Core σ → Prop
  /-- A queue has another limit. -/
  | adjust {f : String} {q : Queue} : q.functionName = (c.queues f).functionName →
    q.jobs = (c.queues f).jobs → Shift c { c with queues := update c.queues f q }
  /-- The next job of a queue is given up, as its record is not found. -/
  | lose {f u : String} {j : QueuedJob} {q : Queue} {reply : Except JobError (Option Job)}
      {store : σ} : (c.queues f).Yields u j q →
    JobStore.find ⟨q.functionName, j.uniqueId⟩ c.store = (reply, store) →
    (∀ record, reply ≠ .ok (some record)) →
    Shift c { c with live := c.live.erase j.key, queues := update c.queues f q, store }
  /-- The next job of a queue is handed to a worker. -/
  | hand {f u : String} {j : QueuedJob} {q : Queue} {record : Job} {store : σ} {live : LiveJob}
      {id : SessionId} : (c.queues f).Yields u j q →
    JobStore.find ⟨q.functionName, j.uniqueId⟩ c.store = (.ok (some record), store) →
    c.live.find? j.key = some live →
    Shift c { c with
      live := c.live.modify j.key fun _ => ⟨{ live.job with state := .working }, some id⟩
      queues := update c.queues f q
      store }
  /-- The next job of a queue is not live; its record is handed to a worker. -/
  | adopt {f u : String} {j : QueuedJob} {q : Queue} {record : Job} {store : σ} {id : SessionId} :
    (c.queues f).Yields u j q →
    JobStore.find ⟨q.functionName, j.uniqueId⟩ c.store = (.ok (some record), store) →
    c.live.find? j.key = none →
    Shift c { c with
      live := c.live.insert { record with state := .working } (some id)
      queues := update c.queues f q
      store }
  /-- A job whose worker is gone is queued again. -/
  | requeue {k : JobKey} {live : LiveJob} : c.live.find? k = some live →
    Shift c { c with
      live := c.live.modify k fun l => ⟨l.job.renewed, none⟩
      queues := update c.queues k.functionName
        ((c.queues k.functionName).reinstate live.job.renewed.summary).2 }
  | advance {k : JobKey} {n d : UInt32} :
    Shift c { c with
      live := c.live.modify k fun l =>
        { l with job := { l.job with numerator := n, denominator := d } } }
  /-- The work on a job has ended. -/
  | finish {k : JobKey} {live : LiveJob} : c.live.find? k = some live →
    live.job.state = .working →
    Shift c { c with live := c.live.erase k, store := (JobStore.delete k c.store).2 }
  /-- A job is taken out of its queue for good. -/
  | remove {k : JobKey} {j : QueuedJob} {q : Queue} :
    (c.queues k.functionName).Yields k.uniqueId j q →
    Shift c
      { c with
        live := c.live.erase k
        queues := update c.queues k.functionName q
        store := (JobStore.delete k c.store).2 }

/-- A shift in which a job that ends is deleted from the store. -/
structure Tidy (c c' : Core σ) : Prop where
  shift : c.Shift c'
  deleted : ∀ {k}, c.live.find? k ≠ none → c'.live.find? k = none →
    c'.store = (JobStore.delete k c.store).2

/-- No job ends. -/
theorem Tidy.stay {c c' : Core σ} (h : c.Shift c')
    (hlive : ∀ {k}, c'.live.find? k = none → c.live.find? k = none) : c.Tidy c' :=
  ⟨h, fun hk hk' => absurd (hlive hk') hk⟩

theorem Tidy.modify {c c' : Core σ} (h : c.Shift c') {k : JobKey} {change : LiveJob → LiveJob}
    (hlive : c'.live = c.live.modify k change) : c.Tidy c' := by
  refine .stay h fun {k'} hk => ?_
  rw [hlive, LiveJobs.find?_modify] at hk
  split at hk
  · next hkk =>
    subst hkk
    exact Option.map_eq_none_iff.mp hk
  · exact hk

/-- One job ends. -/
theorem Tidy.erase {c c' : Core σ} (h : c.Shift c') {k : JobKey} (hlive : c'.live = c.live.erase k)
    (hstore : c'.store = (JobStore.delete k c.store).2) : c.Tidy c' := by
  refine ⟨h, fun {k'} hk hk' => ?_⟩
  rw [hlive, LiveJobs.find?_erase] at hk'
  split at hk'
  · next hkk => exact hkk ▸ hstore
  · exact absurd hk' hk

theorem Admission.handles_eq {c c' : Core σ} (h : c.Admission c') :
    c'.handles = c.handles.next.2 := by
  cases h <;> rfl

theorem Shift.handles_eq {c c' : Core σ} (h : c.Shift c') : c'.handles = c.handles := by
  cases h <;> rfl

theorem handles_eq_of_shifts {c c' : Core σ} (h : ReflTransGen Shift c c') :
    c'.handles = c.handles := by
  induction h with
  | refl => rfl
  | tail _ hs ih => exact hs.handles_eq.trans ih

end Core

namespace Engine

variable {σ : Type} {e e' : Engine σ}

def core (e : Engine σ) : Core σ := ⟨e.live, fun f => (e.workshop f).queue, e.store, e.handles⟩

/-! ### What leaves the core alone -/

@[simp] theorem core_establish (e : Engine σ) (f : String) : (e.establish f).core = e.core := by
  show Core.mk e.live (fun f' => ((e.establish f).workshop f').queue) e.store e.handles = e.core
  simp only [workshop_establish, core]

theorem core_modifyWorkshop (e : Engine σ) (f : String) {change : Workshop → Workshop}
    (h : ∀ w, (change w).queue = w.queue) : (e.modifyWorkshop f change).core = e.core :=
  congrArg (Core.mk e.live · e.store e.handles)
    (funext (workshop_modifyWorkshop_of_eq (·.queue) h e f))

@[simp] theorem core_modifyCrew (e : Engine σ) (f : String) (change : Crew → Crew) :
    (e.modifyCrew f change).core = e.core :=
  core_modifyWorkshop e f fun _ => rfl

@[simp] theorem core_releaseWaiters (e : Engine σ) (k : JobKey) :
    (e.releaseWaiters k).core = e.core :=
  core_modifyWorkshop e _ fun _ => rfl

@[simp] theorem core_modifySession (e : Engine σ) (id : SessionId) (change : Session → Session) :
    (e.modifySession id change).core = e.core := rfl

@[simp] theorem core_dismiss (e : Engine σ) (k : JobKey) (packet : Session → Packet) :
    (e.dismiss k packet).core = e.core := core_releaseWaiters e k

@[simp] theorem core_publish (e : Engine σ) (event : PeerEvent) :
    (e.publish event).core = e.core := by
  unfold publish
  split <;> rfl

@[simp] theorem core_connect (e : Engine σ) (id : SessionId) : (e.connect id).core = e.core := by
  unfold connect
  split <;> rfl

@[simp] theorem core_wakeCrew (e : Engine σ) (f : String) : (e.wakeCrew f).core = e.core := by
  unfold wakeCrew
  split
  · rfl
  · next w _ => exact core_modifyCrew e f fun _ => (w.crew.wakeAll e.sessions).2.1

@[simp] theorem core_await (e : Engine σ) (j : Job) (client : Option SessionId) :
    (e.await j client).core = e.core := by
  unfold await
  split
  · rfl
  · split
    · rfl
    · exact core_modifyWorkshop e _ fun _ => rfl

@[simp] theorem core_identify (e : Engine σ) (j : Job) : (e.identify j).2.core = e.core := by
  unfold identify
  split <;> rfl

theorem core_foldl {α : Type} {op : Engine σ → α → Engine σ} (hop : ∀ e a, (op e a).core = e.core)
    (as : List α) (e : Engine σ) : (as.foldl op e).core = e.core := by
  induction as generalizing e with
  | nil => rfl
  | cons a as ih => exact (ih (op e a)).trans (hop e a)

theorem core_addAbility (e : Engine σ) (id : SessionId) (f : String) (timeout : Option UInt32) :
    (e.addAbility id f timeout).core = e.core := by
  simp [addAbility]

theorem core_removeAbility (e : Engine σ) (id : SessionId) (f : String) :
    (e.removeAbility id f).core = e.core := by
  simp [removeAbility]

theorem core_resetAbilities (e : Engine σ) (id : SessionId) :
    (e.resetAbilities id).core = e.core :=
  (core_foldl (fun e f => core_modifyCrew e f _) _ _).trans (core_modifySession e id _)

@[simp] theorem core_wake (e : Engine σ) (id : SessionId) : (e.wake id).core = e.core :=
  (core_modifySession _ id _).trans (core_foldl (fun e f => core_modifyCrew e f _) _ _)

theorem core_sleep (e : Engine σ) (id : SessionId) : (e.sleep id).core = e.core := by
  have hasleep := (core_foldl (fun (e : Engine σ) f =>
    (core_modifyCrew (e.establish f) f (·.addSleeper id)).trans (core_establish e f))
      (e.abilities id) (e.modifySession id _)).trans
    (core_modifySession e id (·.sleepUntil (e.uptime + e.settings.longPollSeconds)))
  simp only [sleep]
  split
  · rw [core_wake, hasleep]
  · exact hasleep

@[simp] theorem core_depart (e : Engine σ) (id : SessionId) : (e.depart id).core = e.core := by
  refine congrArg (Core.mk e.live · e.store e.handles) (funext fun f => ?_)
  rw [workshop, workshop?_depart, workshop]
  cases e.workshop? f <;> rfl

theorem core_reportData (e : Engine σ) (handle : String) (data : Bytes) :
    (e.reportData handle data).2.core = e.core := by
  unfold reportData
  split
  · rfl
  · exact core_publish e _

theorem core_reportWarning (e : Engine σ) (handle : String) (data : Bytes) :
    (e.reportWarning handle data).2.core = e.core := by
  unfold reportWarning
  split <;> rfl

/-! ### What changes a queue -/

theorem core_modifyWorkshop_of_isSome {f : String} (hf : (e.workshop? f).isSome)
    (change : Workshop → Workshop) : (e.modifyWorkshop f change).core =
      { e.core with queues := update e.core.queues f (change (e.workshop f)).queue } := by
  refine congrArg (Core.mk e.live · e.store e.handles) (funext fun f' => ?_)
  rw [workshop_modifyWorkshop hf, update_apply]
  by_cases h : f = f'
  · simp [h]
  · simp [h, Ne.symm h, core]

theorem core_setQueue {f : String} (hf : (e.workshop? f).isSome) (q : Queue) :
    (e.setQueue f q).core = { e.core with queues := update e.core.queues f q } :=
  core_modifyWorkshop_of_isSome hf _

theorem core_setQueue_store {f : String} (hf : (e.workshop? f).isSome) (q : Queue) (store : σ) :
    ({ e.setQueue f q with store } : Engine σ).core =
      { e.core with queues := update e.core.queues f q, store } :=
  congrArg (fun c : Core σ => { c with store }) (core_setQueue hf q)

theorem core_setQueue_self (e : Engine σ) (f : String) :
    (e.setQueue f (e.workshop f).queue).core = e.core :=
  congrArg (Core.mk e.live · e.store e.handles)
    (funext fun f' => congrArg Workshop.queue (workshop_setQueue_self e f f'))

/-- Only workshops that are known have queued jobs. -/
theorem isSome_workshop?_of_find? {f u : String} {j : QueuedJob}
    (h : (e.workshop f).queue.find? u = some j) : (e.workshop? f).isSome := by
  unfold workshop at h
  cases hf : e.workshop? f with
  | none =>
    rw [hf] at h
    exact absurd h (by simp [Workshop.new, Queue.new, Queue.find?])
  | some w => rfl

theorem find?_of_jobInState {handle : String} {state : JobState} {live : LiveJob}
    (h : e.jobInState handle state = .ok live) : ∃ k, e.live.keyOf? handle = some k ∧
      e.live.find? k = some live ∧ live.job.state = state := by
  unfold jobInState at h
  split at h
  · exact absurd h (by simp)
  · next live' hlive =>
    obtain ⟨k, hkey, hfind⟩ := Option.bind_eq_some_iff.mp hlive
    split at h
    · next hstate =>
      obtain rfl := Except.ok.inj h
      exact ⟨k, hkey, hfind, hstate⟩
    · exact absurd h (by simp)

/-! ### What shifts the core -/

theorem core_dropLost (e : Engine σ) (k : JobKey) :
    (e.dropLost k).core = { e.core with live := e.live.erase k } := by
  unfold dropLost
  split
  · next h => rw [LiveJobs.erase, h]; rfl
  · exact core_dismiss _ k _

variable [JobStore σ]

theorem tidy_setMaxQueue (e : Engine σ) (f : String) (size : Nat) :
    ReflTransGen Core.Tidy e.core (e.setMaxQueue f size).core := by
  rw [setMaxQueue, core_modifyWorkshop_of_isSome (isSome_establish e f), core_establish,
    workshop_establish]
  exact .single (.stay (.adjust rfl rfl) id)

theorem tidy_reportProgress (e : Engine σ) (handle : String) (n d : UInt32) :
    ReflTransGen Core.Tidy e.core (e.reportProgress handle n d).2.core := by
  unfold reportProgress
  split
  · exact .refl
  · exact .single (.modify .advance rfl)

omit [JobStore σ] in
/-- A job whose worker is gone is queued again as it was before. -/
theorem core_requeue {handle : String} {k : JobKey} {live : LiveJob}
    (hkey : e.live.keyOf? handle = some k) (h : e.jobInState handle .working = .ok live) :
    (e.requeue handle).core =
      { e.core with
        live := e.live.modify k fun l => ⟨l.job.renewed, none⟩
        queues := update e.core.queues k.functionName
          ((e.core.queues k.functionName).reinstate live.job.renewed.summary).2 } := by
  obtain ⟨e₁, he₁⟩ : ∃ e₁, ({ e.establish k.functionName with
    live := (e.establish k.functionName).live.modify k fun l => ⟨l.job.renewed, none⟩ } :
      Engine σ) = e₁ := ⟨_, rfl⟩
  have hf : (e₁.workshop? k.functionName).isSome := he₁ ▸ isSome_establish e k.functionName
  have hcore : e₁.core =
      { e.core with live := e.live.modify k fun l => ⟨l.job.renewed, none⟩ } := by
    rw [← core_establish e k.functionName, ← he₁]
    rfl
  simp only [requeue, hkey, jobInState_establish, h, he₁]
  rw [core_wakeCrew, core_setQueue hf]
  show ({ e₁.core with
    queues := update e₁.core.queues k.functionName
      ((e₁.core.queues k.functionName).reinstate live.job.renewed.summary).2 } : Core σ) = _
  rw [hcore]

omit [JobStore σ] in
theorem core_requeue_idle {handle : String}
    (h : ∀ live, e.jobInState handle .working ≠ .ok live) : (e.requeue handle).core = e.core := by
  unfold requeue
  split
  · rfl
  · simp only [jobInState_establish]
    split
    · exact core_establish e _
    · next live hlive => exact absurd hlive (h live)

theorem tidy_requeue (e : Engine σ) (handle : String) :
    ReflTransGen Core.Tidy e.core (e.requeue handle).core := by
  cases h : e.jobInState handle .working with
  | error err =>
    rw [core_requeue_idle fun live hlive => nomatch h.symm.trans hlive]
  | ok live =>
    obtain ⟨k, hkey, hfind, -⟩ := find?_of_jobInState h
    rw [core_requeue hkey h]
    exact .single (.modify (.requeue hfind) rfl)

omit [JobStore σ] in
theorem core_releaseWorker (e : Engine σ) (worker : Option SessionId) (handle : String) :
    (match worker with
      | some id => if id ∈ e.connected then e.modifySession id (·.release handle) else e
      | none => e).core = e.core := by
  split
  · split <;> rfl
  · rfl

/-- The end of the work on a job erases the job and deletes its record. -/
theorem core_finish {handle : String} {k : JobKey} {live : LiveJob}
    (hkey : e.live.keyOf? handle = some k) (h : e.jobInState handle .working = .ok live)
    (o : Outcome) : (e.finish handle o).2.core =
      { e.core with live := e.live.erase k, store := (JobStore.delete k e.store).2 } := by
  have herased : ({ e.establish k.functionName with live := e.live.erase k } : Engine σ).core =
      { e.core with live := e.live.erase k } := by
    rw [← core_establish e k.functionName]
    rfl
  have hdeleted : ∀ (e₁ : Engine σ) (packet : Session → Packet),
      e₁.core = { e.core with live := e.live.erase k } →
      ({ e₁.dismiss k packet with
        store := (JobStore.delete k (e₁.dismiss k packet).store).2 } : Engine σ).core =
          { e.core with live := e.live.erase k, store := (JobStore.delete k e.store).2 } := by
    intro e₁ packet h₁
    show { (e₁.dismiss k packet).core with
      store := (JobStore.delete k (e₁.dismiss k packet).core.store).2 } = _
    rw [core_dismiss, h₁]
    rfl
  have hended := hdeleted _ (o.packet handle)
    ((core_releaseWorker _ live.worker handle).trans herased)
  simp only [finish, hkey, jobInState_establish, h]
  cases o with
  | complete data => exact (core_publish _ _).trans hended
  | _ => exact hended

theorem core_finish_idle {handle : String}
    (h : ∀ live, e.jobInState handle .working ≠ .ok live) (o : Outcome) :
    (e.finish handle o).2.core = e.core := by
  unfold finish
  split
  · rfl
  · simp only [jobInState_establish]
    split
    · exact core_establish e _
    · next live hlive => exact absurd hlive (h live)

theorem tidy_finish (e : Engine σ) (handle : String) (o : Outcome) :
    ReflTransGen Core.Tidy e.core (e.finish handle o).2.core := by
  cases h : e.jobInState handle .working with
  | error err =>
    rw [core_finish_idle fun live hlive => nomatch h.symm.trans hlive]
  | ok live =>
    obtain ⟨k, hkey, hfind, hstate⟩ := find?_of_jobInState h
    rw [core_finish hkey h]
    exact .single (.erase (.finish hfind hstate) rfl rfl)

theorem tidy_abandonAll (handles : List String) (e : Engine σ) :
    ReflTransGen Core.Tidy e.core (handles.foldl abandon e).core := by
  induction handles generalizing e with
  | nil => exact .refl
  | cons handle handles ih =>
    refine .trans ?_ (ih (e.abandon handle))
    unfold abandon
    split
    · exact tidy_requeue e handle
    · exact tidy_finish e handle .fail

theorem tidy_disconnect (e : Engine σ) (id : SessionId) :
    ReflTransGen Core.Tidy e.core (e.disconnect id).core := by
  have h := tidy_abandonAll (e.assigned id) (e.depart id)
  rwa [core_depart] at h

/-- A job that is taken out of its queue for good leaves the live jobs too. -/
theorem core_remove_queued {k : JobKey} {q : Queue} {store : σ}
    (h : (e.workshop k.functionName).queue.remove k e.store = (true, q, store)) :
    e.core.Tidy ({ e.setQueue k.functionName q with store, live := e.live.erase k } :
      Engine σ).core := by
  obtain ⟨rfl, j, hj⟩ := Queue.yields_remove h
  have hcore : ({ e.setQueue k.functionName q with
      store := (JobStore.delete k e.store).2, live := e.live.erase k } : Engine σ).core =
        { e.core with
          live := e.live.erase k
          queues := update e.core.queues k.functionName q
          store := (JobStore.delete k e.store).2 } :=
    congrArg (fun c : Core σ => { c with
      live := e.live.erase k, store := (JobStore.delete k e.store).2 })
      (core_setQueue (isSome_workshop?_of_find? hj.find?) q)
  exact hcore ▸ .erase (.remove hj) rfl rfl

theorem core_remove_idle {f : String} {k : JobKey} {q : Queue} {store : σ}
    (h : (e.workshop f).queue.remove k e.store = (false, q, store)) :
    ({ e.setQueue f q with store } : Engine σ).core = e.core := by
  obtain ⟨rfl, rfl⟩ := Queue.remove_eq_false h
  exact core_setQueue_self e f

omit [JobStore σ] in
theorem core_assign_of_some {k : JobKey} {live : LiveJob} (h : e.live.find? k = some live)
    (record : Job) (id : SessionId) : (e.assign k record id).2.core =
      { e.core with
        live := e.live.modify k fun _ => ⟨{ live.job with state := .working }, some id⟩ } := by
  simp only [assign, h]
  rfl

omit [JobStore σ] in
theorem core_assign_of_none {k : JobKey} (h : e.live.find? k = none) (record : Job)
    (id : SessionId) : (e.assign k record id).2.core =
      { e.core with live := e.live.insert { record with state := .working } (some id) } := by
  simp only [assign, h]
  rfl

theorem tidy_remove (e : Engine σ) (handle : String) :
    ReflTransGen Core.Tidy e.core (e.remove handle).2.core := by
  cases h : e.jobInState handle .queued with
  | error err =>
    simp only [remove, h]
    exact .refl
  | ok live =>
    rw [← core_establish e live.job.key.functionName]
    simp only [remove, h]
    rcases hremove : ((e.establish live.job.key.functionName).workshop
      live.job.key.functionName).queue.remove live.job.key
        (e.establish live.job.key.functionName).store with ⟨_ | _, q, store⟩
    · exact (core_remove_idle hremove).symm ▸ .refl
    · exact (core_dismiss _ _ _).symm ▸ .single (core_remove_queued hremove)

theorem tidy_settle (e : Engine σ) (live : LiveJob) (data : Bytes) :
    ReflTransGen Core.Tidy e.core (e.settle live data).core := by
  simp only [settle, core_dismiss]
  rcases hremove : (e.workshop live.job.key.functionName).queue.remove live.job.key e.store with
    ⟨_ | _, q, store⟩
  · exact (core_remove_idle hremove).symm ▸ .refl
  · exact .single (core_remove_queued hremove)

theorem tidy_hear (e : Engine σ) (event : PeerEvent) :
    ReflTransGen Core.Tidy e.core (e.hear event).core := by
  unfold hear
  dsimp only
  split
  · exact .refl
  · exact (core_wakeCrew e _).symm ▸ .refl
  · exact .refl
  · exact .refl
  · split
    · exact .refl
    · exact tidy_settle e _ _

/-- The next job of a queue, its record read, is handed to a session. -/
theorem shift_assign {f u : String} {j : QueuedJob} {q : Queue} {record : Job} {store : σ}
    (hq : (e.workshop f).queue.Yields u j q)
    (hfind : JobStore.find ⟨q.functionName, j.uniqueId⟩ e.store = (.ok (some record), store))
    (id : SessionId) :
    e.core.Shift (assign { e.setQueue f q with store } j.key record id).2.core := by
  have hcore := core_setQueue_store (isSome_workshop?_of_find? hq.find?) q store
  cases hlive : e.live.find? j.key with
  | none =>
    rw [core_assign_of_none (e := { e.setQueue f q with store }) hlive, hcore]
    exact .adopt hq hfind hlive
  | some live =>
    rw [core_assign_of_some (e := { e.setQueue f q with store }) hlive, hcore]
    exact .hand hq hfind hlive

/-- The next job of a queue is given up, as its record is not found. -/
theorem shift_dropLost {f u : String} {j : QueuedJob} {q : Queue}
    {reply : Except JobError (Option Job)} {store : σ} (hq : (e.workshop f).queue.Yields u j q)
    (hfind : JobStore.find ⟨q.functionName, j.uniqueId⟩ e.store = (reply, store))
    (hlost : ∀ record, reply ≠ .ok (some record)) :
    e.core.Shift (dropLost { e.setQueue f q with store } j.key).core := by
  have hcore := core_setQueue_store (isSome_workshop?_of_find? hq.find?) q store
  rw [core_dropLost, hcore]
  exact .lose hq hfind hlost

theorem shifts_takeFrom (id : SessionId) (fs : List String) (e : Engine σ) :
    ReflTransGen Core.Shift e.core (e.takeFrom id fs).2.core := by
  induction fs generalizing e with
  | nil => exact .refl
  | cons f fs ih =>
    unfold takeFrom
    split
    · exact ih e
    · next w hw =>
      obtain rfl : e.workshop f = w := by rw [workshop, hw, Option.getD_some]
      split
      · next q hq =>
        rcases Queue.yields_takeNext hq with ⟨-, hname, hjobs⟩ | ⟨u, j, hj, -⟩
        · refine .head ?_ (ih _)
          rw [core_setQueue (Option.isSome_iff_exists.mpr ⟨_, hw⟩)]
          exact .adjust hname hjobs
        · exact absurd hj (by simp)
      · next j q hq =>
        rcases Queue.yields_takeNext hq with ⟨hj, -⟩ | ⟨u, j', hj, hyields⟩
        · exact absurd hj (by simp)
        obtain rfl := Option.some.inj hj
        split
        · next store hresolve =>
          obtain ⟨reply, hfind, ⟨-, hlost⟩ | ⟨record, hrecord, -⟩⟩ := Queue.resolve_cases hresolve
          · exact .head (shift_dropLost hyields hfind hlost) (ih _)
          · exact absurd hrecord (by simp)
        · next record store hresolve =>
          obtain ⟨reply, hfind, ⟨hrecord, -⟩ | ⟨record', hrecord, rfl⟩⟩ :=
            Queue.resolve_cases hresolve
          · exact absurd hrecord (by simp)
          obtain rfl := Option.some.inj hrecord
          exact .single (shift_assign hyields hfind id)

omit [JobStore σ] in
theorem live_of_assign (e : Engine σ) (k : JobKey) (record : Job) (id : SessionId) :
    ∃ k', (e.assign k record id).2.live.find? k' = some ⟨(e.assign k record id).1, some id⟩ := by
  cases hk : e.live.find? k with
  | none => exact ⟨record.key, by simp [assign, hk, modifySession, Job.key]⟩
  | some live => exact ⟨k, by simp [assign, hk, modifySession]⟩

/-- A job that is handed out is live. -/
theorem live_of_takeFrom {id : SessionId} {fs : List String} {j : Job}
    (h : (e.takeFrom id fs).1 = some j) :
    ∃ k, (e.takeFrom id fs).2.live.find? k = some ⟨j, some id⟩ := by
  induction fs generalizing e with
  | nil => exact absurd h (by simp [takeFrom])
  | cons f fs ih =>
    unfold takeFrom at h ⊢
    split at h
    · exact ih h
    · split at h
      · exact ih h
      · split at h
        · exact ih h
        · obtain rfl := Option.some.inj h
          exact live_of_assign _ _ _ id

/-! ### Admissions -/

/-- How a submission is answered, and what becomes of the core. -/
inductive Taken (c : Core σ) (j : Job) : Except JobError Job → Core σ → Prop
  | joined {live : LiveJob} : c.live.find? j.key = some live → Taken c j (.ok live.job) c
  | refused {err : JobError} {store : σ} :
    (store = c.store ∨ ∃ i reply, JobStore.write i c.store = (reply, store) ∧ reply ≠ .ok true) →
    Taken c j (.error err) { c with store, handles := c.handles.next.2 }
  | letIn {j' : Job} {store : σ} : c.live.find? j.key = none →
    j' = { j.renewed with handle := c.handles.next.1 } →
    JobStore.write j' c.store = (.ok true, store) →
    Taken c j (.ok j')
      { live := c.live.insert j' none
        queues := update c.queues j'.functionName ((c.queues j'.functionName).accept j'.summary)
        store
        handles := c.handles.next.2 }

theorem Taken.admission {c c' : Core σ} {j : Job} {answer : Except JobError Job}
    (h : Taken c j answer c') : c' = c ∨ c.Admission c' := by
  cases h with
  | joined _ => exact .inl rfl
  | refused hstore =>
    refine .inr (hstore.elim (fun h => ?_) fun ⟨i, reply, hwrite⟩ => ?_)
    · exact .refused (j := j) (.inl h)
    · exact .refused (.inr ⟨reply, hwrite⟩)
  | letIn hnew hj hwrite => exact .inr (.letIn (hj ▸ hnew) (hj ▸ rfl) (hj ▸ rfl) hwrite)

/-- A submission that is answered with a job has joined that job, or none was in its way. -/
theorem Taken.joined_or_free {c c' : Core σ} {j j' : Job} (h : Taken c j (.ok j') c') :
    (∃ live, c.live.find? j.key = some live ∧ j' = live.job) ∨ c.live.find? j.key = none := by
  cases h with
  | joined hlive => exact .inl ⟨_, hlive, rfl⟩
  | letIn hfree => exact .inr hfree

theorem taken_letIn {j : Job} (hf : (e.workshop? j.functionName).isSome)
    (hnew : e.live.find? j.key = none) (client : Option SessionId) :
    Taken e.core j (e.letIn j client).1 (e.letIn j client).2.core := by
  obtain ⟨j₁, hj₁⟩ : ∃ j₁, ({ j.renewed with handle := e.handles.next.1 } : Job) = j₁ := ⟨_, rfl⟩
  have hf : (e.workshop? j₁.functionName).isSome := hj₁ ▸ hf
  have hcore : ∀ q store, ({ e.setQueue j₁.functionName q with
      handles := e.handles.next.2, store } : Engine σ).core =
        { e.core with
          queues := update e.core.queues j₁.functionName q
          handles := e.handles.next.2
          store } := fun q store =>
    congrArg (fun c : Core σ => { c with handles := e.handles.next.2, store }) (core_setQueue hf q)
  rcases Queue.enqueue_cases (e.workshop j₁.functionName).queue j₁ e.store with
    ⟨store, henqueue, -, hwrite⟩ | ⟨answer, store, henqueue, hanswer, hstore⟩
  · have hadmitted := congrArg (fun c : Core σ => { c with live := e.live.insert j₁ none })
      (hcore ((e.workshop j₁.functionName).queue.accept j₁.summary) store)
    have hadmit := Taken.letIn (c := e.core) hnew hj₁.symm hwrite
    subst hj₁
    simp only [letIn, henqueue, core_publish, core_wakeCrew, core_await]
    exact Eq.subst (motive := Taken e.core j _) hadmitted.symm hadmit
  · have hrefused := congrArg (fun c : Core σ => { c with handles := e.handles.next.2, store })
      (core_setQueue_self e j₁.functionName)
    have hrefuse : ∀ err, Taken e.core j (.error err)
        { e.core with store, handles := e.handles.next.2 } := fun err =>
      .refused (hstore.imp_right (Exists.intro j₁))
    subst hj₁
    simp only [letIn, henqueue]
    rcases answer with err | _ | _
    · exact Eq.subst (motive := Taken e.core j _) hrefused.symm (hrefuse _)
    · exact Eq.subst (motive := Taken e.core j _) hrefused.symm (hrefuse _)
    · exact absurd rfl hanswer

/-- A submission joins a live job, or is let in, or refused, under its own unique id or one that is
made up for it. -/
theorem taken_submit (e : Engine σ) (j : Job) (client : Option SessionId) :
    Taken e.core (e.identify j).1 (e.submit j client).1 (e.submit j client).2.core := by
  rcases hi : e.identify j with ⟨j₁, e₁⟩
  have hcore : (e₁.establish j₁.functionName).core = e.core := by
    rw [core_establish, ← core_identify e j, hi]
  simp only [submit, hi]
  split
  · next live hlive =>
    rw [core_await, hcore]
    exact .joined (hcore ▸ hlive)
  · next hnew => exact hcore ▸ taken_letIn (isSome_establish e₁ _) hnew client

/-- A submission joins a live job, or is an admission. -/
theorem core_submit (e : Engine σ) (j : Job) (client : Option SessionId) :
    (e.submit j client).2.core = e.core ∨ e.core.Admission (e.submit j client).2.core :=
  (taken_submit e j client).admission

/-! ### Actions -/

theorem tidy_of_no_submission (e : Engine σ) {a : Action σ} (ha : ∀ change, a ≠ .alterStore change)
    (hgrab : ∀ id, a ≠ .grab id) (hsubmit : ∀ j client, a ≠ .submit j client) :
    ReflTransGen Core.Tidy e.core (e.act a).core := by
  have hsame : ∀ {e' : Engine σ}, e'.core = e.core → ReflTransGen Core.Tidy e.core e'.core :=
    fun h => h ▸ .refl
  cases a with
  | arrive peer => exact hsame rfl
  | connect id => exact hsame (core_connect e id)
  | disconnect id => exact tidy_disconnect e id
  | setClientId id clientId => exact hsame rfl
  | wantExceptions id wants => exact hsame rfl
  | canDo id f timeout => exact hsame (core_addAbility e id f timeout)
  | cantDo id f => exact hsame (core_removeAbility e id f)
  | resetAbilities id => exact hsame (core_resetAbilities e id)
  | sleep id => exact hsame (core_sleep e id)
  | wake id => exact hsame (core_wake e id)
  | grab id => exact absurd rfl (hgrab id)
  | submit j client => exact absurd rfl (hsubmit j client)
  | finish handle o => exact tidy_finish e handle o
  | progress handle n d => exact tidy_reportProgress e handle n d
  | data handle data => exact hsame (core_reportData e handle data)
  | warning handle data => exact hsame (core_reportWarning e handle data)
  | remove handle => exact tidy_remove e handle
  | setMaxQueue f size => exact tidy_setMaxQueue e f size
  | hear event => exact tidy_hear e event
  | setClock now => exact hsame rfl
  | elapse seconds => exact hsame rfl
  | alterStore change => exact absurd rfl (ha change)

/-- All shifts are tidy but those of a grab. -/
theorem tidy_act (e : Engine σ) {a : Action σ} (ha : ∀ change, a ≠ .alterStore change)
    (hgrab : ∀ id, a ≠ .grab id) :
    e.core.Admission (e.act a).core ∨ ReflTransGen Core.Tidy e.core (e.act a).core := by
  by_cases hsubmit : ∃ j client, a = .submit j client
  · obtain ⟨j, client, rfl⟩ := hsubmit
    rcases core_submit e j client with h | h
    · exact .inr ((show (e.act (.submit j client)).core = e.core from h) ▸ .refl)
    · exact .inl h
  · exact .inr (tidy_of_no_submission e ha hgrab fun j client h => hsubmit ⟨j, client, h⟩)

/-- Only a submission lets a job in. -/
theorem shifts_of_no_submission (e : Engine σ) {a : Action σ}
    (ha : ∀ change, a ≠ .alterStore change) (hsubmit : ∀ j client, a ≠ .submit j client) :
    ReflTransGen Core.Shift e.core (e.act a).core := by
  by_cases hgrab : ∃ id, a = .grab id
  · obtain ⟨id, rfl⟩ := hgrab
    exact shifts_takeFrom id (e.abilities id) e
  · exact ReflTransGen.mono (fun _ _ => Core.Tidy.shift) _ _
      (tidy_of_no_submission e ha (fun id h => hgrab ⟨id, h⟩) hsubmit)

/-- An action that leaves the store to the engine admits a job, or refuses one, or makes shifts. -/
theorem core_act (e : Engine σ) {a : Action σ} (ha : ∀ change, a ≠ .alterStore change) :
    e.core.Admission (e.act a).core ∨ ReflTransGen Core.Shift e.core (e.act a).core := by
  by_cases hsubmit : ∃ j client, a = .submit j client
  · obtain ⟨j, client, rfl⟩ := hsubmit
    rcases core_submit e j client with h | h
    · exact .inr ((show (e.act (.submit j client)).core = e.core from h) ▸ .refl)
    · exact .inl h
  · exact .inr (shifts_of_no_submission e ha fun j client h => hsubmit ⟨j, client, h⟩)

/-- An action uses up one handle at most, and nothing else happens to the handles. -/
theorem handles_act (e : Engine σ) (a : Action σ) :
    (e.act a).handles = e.handles ∨ (e.act a).handles = e.handles.next.2 := by
  by_cases ha : ∃ change, a = .alterStore change
  · obtain ⟨change, rfl⟩ := ha
    exact .inl rfl
  · rcases core_act e fun change h => ha ⟨change, h⟩ with h | h
    · exact .inr h.handles_eq
    · exact .inl (Core.handles_eq_of_shifts h)

end Engine

end JobBroker
