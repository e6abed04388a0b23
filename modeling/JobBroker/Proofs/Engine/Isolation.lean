import JobBroker.Proofs.Engine.Admission

/-!
# Isolation

What is done to one job concerns no other. The jobs of a function share a queue, wait lists and a
crew, all live jobs share an index, and all records a store; yet whatever is kept there for other
jobs stays as it is, and only those hear of it who wait for this one, or sleep until there is work
of its kind.

* `Apart` : what other jobs and functions have in an engine is as it was.
* `LiveJobs.Changes` : what may become of one live job, and of no other.
* `reaches_act` : who is sent something.
* `isolated_performAll` : what one job's operations leave alone, whatever was done before.
-/

namespace JobBroker

open Text (decimal)

open RecordStore (record?)

/-! ### The live job under one key -/

namespace LiveJobs

variable {l l' : LiveJobs} {k k' : JobKey} {handle : String}

/-- What may become of the live job under a key. -/
inductive Changes (k : JobKey) (l : LiveJobs) : LiveJobs → Prop
  | keep : Changes k l l
  | insert {j : Job} : j.key = k → Changes k l (l.insert j none)
  | modify {change : LiveJob → LiveJob} :
    (∀ live, (change live).job.handle = live.job.handle) → Changes k l (l.modify k change)
  | erase : Changes k l (l.erase k)

theorem Changes.find?_of_ne (h : l.Changes k l') (hk : k' ≠ k) : l'.find? k' = l.find? k' := by
  cases h with
  | keep => rfl
  | insert hj => rw [find?_insert, hj, if_neg (Ne.symm hk)]
  | modify _ => rw [find?_modify, if_neg (Ne.symm hk)]
  | erase => rw [find?_erase, if_neg (Ne.symm hk)]

/-- A handle that is not that of the job leads where it has led. -/
theorem Changes.keyOf?_of_ne (h : l.Changes k l')
    (hold : ∀ live, l.find? k = some live → live.job.handle ≠ handle)
    (hnew : ∀ live, l'.find? k = some live → live.job.handle ≠ handle) :
    l'.keyOf? handle = l.keyOf? handle := by
  cases h with
  | keep => rfl
  | @insert j hj =>
    have hne : j.handle ≠ handle := hnew ⟨j, none⟩ (by rw [find?_insert, if_pos hj])
    rw [keyOf?_insert_eq, Function.update_of_ne (Ne.symm hne)]
  | modify _ => rfl
  | erase =>
    cases hl : l.find? k with
    | none => rw [LiveJobs.erase, hl]
    | some live => rw [keyOf?_erase_eq hl, Function.update_of_ne (Ne.symm (hold live hl))]

end LiveJobs

/-! ### The other jobs of one function -/

theorem Lanes.keep_drop (l : Lanes) (j : QueuedJob) :
    (l.drop j).keep (· ≠ j.uniqueId) = l.keep (· ≠ j.uniqueId) := by
  unfold drop keep
  split
  · simp
  · split <;> simp

/-- What a workshop keeps for all unique ids but one: its queue has the same limit and the same
other jobs in the same lanes, at the same places among each other, the same workers belong to its
crew, and the same clients wait for other jobs. -/
structure Workshop.Apart (u : String) (w w' : Workshop) : Prop where
  maxSize : w'.queue.maxSize = w.queue.maxSize
  find? : ∀ v, v ≠ u → w'.queue.find? v = w.queue.find? v
  lanes : w'.queue.lanes.keep (· ≠ u) = w.queue.lanes.keep (· ≠ u)
  workers : w'.crew.workers = w.crew.workers
  waiters : ∀ v, v ≠ u → w'.waitLists.waiters v = w.waitLists.waiters v

namespace Workshop.Apart

variable {u : String} {w w' w'' : Workshop}

theorem refl (u : String) (w : Workshop) : Apart u w w :=
  ⟨rfl, fun _ _ => rfl, rfl, rfl, fun _ _ => rfl⟩

theorem trans (h : Apart u w w') (h' : Apart u w' w'') : Apart u w w'' where
  maxSize := h'.maxSize.trans h.maxSize
  find? v hv := (h'.find? v hv).trans (h.find? v hv)
  lanes := h'.lanes.trans h.lanes
  workers := h'.workers.trans h.workers
  waiters v hv := (h'.waiters v hv).trans (h.waiters v hv)

theorem accept (hq : w.queue.Orderly) (j : QueuedJob) :
    Apart j.uniqueId w { w with queue := w.queue.accept j } where
  maxSize := rfl
  find? v hv := (Queue.find?_accept w.queue j v).trans (if_neg (Ne.symm hv))
  lanes := by
    obtain ⟨r, hr⟩ := hq
    have hrising : Lanes.Rising w.queue.lanes.held := hr.lanes_eq ▸ Lanes.rising_held_ofJobs r.jobs
    exact (Lanes.keep_push _ hrising j).trans (if_neg (by simp))
  workers := rfl
  waiters _ _ := rfl

theorem remove [JobStore σ] (hq : w.queue.Orderly) (k : JobKey) (store : σ) :
    Apart k.uniqueId w { w with queue := (w.queue.remove k store).2.1 } := by
  cases hfind : w.queue.find? k.uniqueId with
  | none =>
    rw [Queue.remove_of_find?_eq_none hfind]
    exact refl _ w
  | some j =>
    obtain ⟨r, hr⟩ := hq
    have hid : j.uniqueId = k.uniqueId := hr.inOrder.uniqueId hfind
    rw [Queue.remove_of_find? hfind]
    exact {
      maxSize := rfl
      find? := fun v hv => (Queue.find?_without ..).trans (if_neg (Ne.symm hv))
      lanes := hid ▸ Lanes.keep_drop w.queue.lanes j
      workers := rfl
      waiters := fun _ _ => rfl }

theorem release (w : Workshop) (u : String) :
    Apart u w { w with waitLists := w.waitLists.release u } :=
  { refl u w with
    waiters := fun _ hv => (WaitLists.waiters_release ..).trans (if_neg (Ne.symm hv)) }

theorem register (w : Workshop) (u : String) (id : SessionId) :
    Apart u w { w with waitLists := (w.waitLists.register u id).2 } :=
  { refl u w with
    waiters := fun _ hv =>
      (WaitLists.waiters_register ..).trans (if_neg fun h => hv h.1.symm) }

end Workshop.Apart

namespace Engine

variable {σ : Type} [JobStore σ] [RecordStore σ] {e e' e'' : Engine σ} {k : JobKey}

/-! ### What is kept elsewhere -/

/-- The workshops of other functions, what the function keeps for its other jobs, and the records of
all other jobs are as they were. -/
structure Apart (k : JobKey) (e e' : Engine σ) : Prop where
  settings : e'.settings = e.settings
  workshop? : ∀ g, g ≠ k.functionName → e'.workshop? g = e.workshop? g
  workshop : (e.workshop k.functionName).Apart k.uniqueId (e'.workshop k.functionName)
  record : ∀ k', k' ≠ k → record? e'.store k' = record? e.store k'

namespace Apart

theorem refl (k : JobKey) (e : Engine σ) : Apart k e e :=
  ⟨rfl, fun _ _ => rfl, .refl _ _, fun _ _ => rfl⟩

theorem trans (h : Apart k e e') (h' : Apart k e' e'') : Apart k e e'' where
  settings := h'.settings.trans h.settings
  workshop? g hg := (h'.workshop? g hg).trans (h.workshop? g hg)
  workshop := h.workshop.trans h'.workshop
  record k' hk := (h'.record k' hk).trans (h.record k' hk)

/-- Then something happens that workshops and records have no part in. -/
theorem same (h : Apart k e e')
    (heq : (e''.settings, e''.workshops, e''.store) = (e'.settings, e'.workshops, e'.store)) :
    Apart k e e'' := by
  obtain ⟨hsettings, hworkshops, hstore⟩ : _ ∧ _ ∧ _ := by simpa only [Prod.mk.injEq] using heq
  refine h.trans ⟨hsettings, fun g _ => ?_, ?_, fun k' _ => by rw [hstore]⟩
  · rw [Engine.workshop?, hworkshops, Engine.workshop?]
  · have hsame : e''.workshop k.functionName = e'.workshop k.functionName := by
      rw [Engine.workshop, Engine.workshop, Engine.workshop?, Engine.workshop?, hworkshops,
        hsettings]
    exact hsame ▸ .refl _ _

theorem establish (k : JobKey) (e : Engine σ) : Apart k e (e.establish k.functionName) where
  settings := rfl
  workshop? _ hg := (Table.get?_insert ..).trans (if_neg (Ne.symm hg))
  workshop := (workshop_establish e k.functionName k.functionName).symm ▸ .refl _ _
  record _ _ := rfl

theorem modifyWorkshop {change : Workshop → Workshop}
    (h : (e.workshop k.functionName).Apart k.uniqueId (change (e.workshop k.functionName))) :
    Apart k e (e.modifyWorkshop k.functionName change) where
  settings := rfl
  workshop? g hg := (workshop?_modifyWorkshop ..).trans (if_neg (Ne.symm hg))
  workshop := by
    cases hw : e.workshop? k.functionName with
    | none =>
      have hsame : (e.modifyWorkshop k.functionName change).workshop k.functionName =
          e.workshop k.functionName := by
        rw [Engine.workshop, workshop?_modifyWorkshop, if_pos rfl, hw, Engine.workshop, hw]
        rfl
      exact hsame ▸ .refl _ _
    | some w =>
      rw [workshop_modifyWorkshop (Option.isSome_of_eq_some hw), if_pos rfl]
      exact h
  record _ _ := rfl

theorem store {store : σ} (h : ∀ k', k' ≠ k → record? store k' = record? e.store k') :
    Apart k e { e with store } :=
  { refl k e with record := h }

theorem delete (k : JobKey) (e : Engine σ) :
    Apart k e { e with store := (JobStore.delete k e.store).2 } := by
  refine store fun k' hk => ?_
  rcases RecordStore.record?_delete k e.store with h | ⟨h, -⟩
  · rw [h, Function.update_of_ne hk]
  · rw [h]

/-- A job is taken out of its queue, if it is queued, and out of the store. -/
theorem dequeue (hq : (e.workshop k.functionName).queue.Orderly) :
    Apart k e
      { e.setQueue k.functionName ((e.workshop k.functionName).queue.remove k e.store).2.1 with
        store := ((e.workshop k.functionName).queue.remove k e.store).2.2 } := by
  have hqueue : Apart k e (e.setQueue k.functionName _) := modifyWorkshop (.remove hq k e.store)
  refine ⟨rfl, hqueue.workshop?, hqueue.workshop, ?_⟩
  cases hfind : (e.workshop k.functionName).queue.find? k.uniqueId with
  | none =>
    rw [Queue.remove_of_find?_eq_none hfind]
    exact fun _ _ => rfl
  | some j =>
    rw [Queue.remove_of_find? hfind]
    exact (delete k e).record

theorem dismiss (k : JobKey) (e : Engine σ) (packet : Session → Packet) :
    Apart k e (e.dismiss k packet) := by
  have hrelease : Apart k e (e.releaseWaiters k) := modifyWorkshop (.release _ k.uniqueId)
  exact hrelease.same rfl

theorem await {j : Job} (hj : j.key = k) (e : Engine σ) (client : Option SessionId) :
    Apart k e (e.await j client) := by
  subst hj
  unfold Engine.await
  split
  · exact refl _ e
  · next id =>
    split
    · exact refl _ e
    · exact modifyWorkshop (k := j.key) (.register _ j.uniqueId id)

theorem wakeCrew (k : JobKey) (e : Engine σ) : Apart k e (e.wakeCrew k.functionName) := by
  unfold Engine.wakeCrew
  split
  · exact refl k e
  · next w hw =>
    have hworkshop : e.workshop k.functionName = w := by
      rw [Engine.workshop, hw, Option.getD_some]
    have hcrew : (e.workshop k.functionName).Apart k.uniqueId
        { e.workshop k.functionName with crew := (w.crew.wakeAll e.sessions).2.1 } := by
      rw [hworkshop]
      exact { Workshop.Apart.refl k.uniqueId w with }
    have hmodified : Apart k e
        (e.modifyCrew k.functionName fun _ => (w.crew.wakeAll e.sessions).2.1) :=
      modifyWorkshop hcrew
    exact hmodified.same rfl

theorem publish (h : Apart k e e') (event : PeerEvent) : Apart k e (e'.publish event) := by
  unfold Engine.publish
  split
  · exact h.same rfl
  · exact h

end Apart

/-- The engine with a job that its queue has taken. -/
def enlist (e : Engine σ) (j : Job) (store : σ) : Engine σ :=
  { e.setQueue j.functionName ((e.workshop j.functionName).queue.accept j.summary) with
    handles := e.handles.next.2
    store
    live := e.live.insert j none }

omit [RecordStore σ] in
/-- A job is let in, or nothing changes but the handles and what the store notes. -/
theorem letIn_cases (e : Engine σ) (j : Job) (client : Option SessionId) :
    (∃ err store, e.letIn j client = (.error err, { e with handles := e.handles.next.2, store }) ∧
      (store = e.store ∨
        ∃ reply, JobStore.write (e.admitted j) e.store = (reply, store) ∧ reply ≠ .ok true)) ∨
    ∃ store event, JobStore.write (e.admitted j) e.store = (.ok true, store) ∧
      e.letIn j client = (.ok (e.admitted j),
        (((e.enlist (e.admitted j) store).await (e.admitted j) client).wakeCrew
          j.functionName).publish event) := by
  obtain ⟨j₁, hj₁⟩ : ∃ j₁, ({ j.renewed with handle := e.handles.next.1 } : Job) = j₁ := ⟨_, rfl⟩
  have hadmitted : e.admitted j = j₁ := hj₁
  rw [hadmitted]
  have hself := setQueue_self e j₁.functionName
  rcases Queue.enqueue_cases (e.workshop j₁.functionName).queue j₁ e.store with
    ⟨store, henqueue, -, hwrite⟩ | ⟨answer, store, henqueue, hanswer, hstore⟩
  · refine .inr ⟨store, ⟨j₁.uniqueId, j₁.functionName, .submitJob, []⟩, hwrite, ?_⟩
    subst hj₁
    simp only [letIn, henqueue]
    rfl
  · rcases answer with err | _ | _
    · refine .inl ⟨err, store, ?_, hstore⟩
      subst hj₁
      simp only [letIn, henqueue, hself]
    · refine .inl
        ⟨.internal (j₁.key.text ++ " is queued but has no live record"), store, ?_, hstore⟩
      subst hj₁
      simp only [letIn, henqueue, hself]
    · exact absurd rfl hanswer

section Finish

omit [RecordStore σ]

omit [JobStore σ] in
theorem publish_eq (e : Engine σ) (event : PeerEvent) :
    ∃ published, e.publish event = { e with published } := by
  unfold publish
  split
  · exact ⟨_, rfl⟩
  · exact ⟨e.published, rfl⟩

/-- The worker of a job works on it no more, if it is still there. -/
def releaseWorker (e : Engine σ) (worker : Option SessionId) (handle : String) : Engine σ :=
  match worker with
  | some id => if id ∈ e.connected then e.modifySession id (·.release handle) else e
  | none => e

/-- The engine when the job under a key is live no more and its worker is free again. -/
def relieved (e : Engine σ) (k : JobKey) (worker : Option SessionId) (handle : String) : Engine σ :=
  releaseWorker { e.establish k.functionName with live := e.live.erase k } worker handle

omit [JobStore σ] in
theorem relieved_eq (e : Engine σ) (k : JobKey) (worker : Option SessionId) (handle : String) :
    ∃ sessions, e.relieved k worker handle =
      { e.establish k.functionName with live := e.live.erase k, sessions } := by
  unfold relieved releaseWorker
  split
  · split
    · exact ⟨_, rfl⟩
    · exact ⟨e.sessions, rfl⟩
  · exact ⟨e.sessions, rfl⟩

omit [JobStore σ] in
theorem posts_relieved (e : Engine σ) (k : JobKey) (worker : Option SessionId) (handle : String)
    {right : Packet → Prop} : Posts right e (e.relieved k worker handle) :=
  (Posts.releaseWorker _ worker handle).of_sessions_eq rfl

omit [JobStore σ] in
theorem store_relieved (e : Engine σ) (k : JobKey) (worker : Option SessionId) (handle : String) :
    (e.relieved k worker handle).store = e.store := by
  obtain ⟨sessions, h⟩ := relieved_eq e k worker handle
  rw [h]
  rfl

/-- The work on a job ends, or nothing but its function becomes known. -/
theorem finish_cases {handle : String} (hk : ∀ k', e.live.keyOf? handle = some k' → k' = k)
    (o : Outcome) :
    (e.finish handle o).2 = e ∨ (e.finish handle o).2 = e.establish k.functionName ∨
    ∃ worker published, (e.finish handle o).2 =
      { (e.relieved k worker handle).dismiss k (o.packet handle) with
        store := (JobStore.delete k e.store).2, published } := by
  cases hkey : e.live.keyOf? handle with
  | none => exact .inl (by simp [finish, hkey])
  | some k' =>
    obtain rfl := hk k' hkey
    cases hlive : e.jobInState handle .working with
    | error err => exact .inr (.inl (by simp [finish, hkey, jobInState_establish, hlive]))
    | ok live =>
      have hended : ∀ e₁, ({ (e.relieved k' live.worker handle).dismiss k' (o.packet handle) with
          store := (JobStore.delete k' (e.relieved k' live.worker handle).store).2 } :
            Engine σ) = e₁ →
          (e.finish handle o).2 = e₁ ∨ ∃ event, (e.finish handle o).2 = e₁.publish event := by
        rintro _ rfl
        cases o with
        | complete data =>
          refine .inr ⟨⟨k'.uniqueId, k'.functionName, .workComplete, data⟩, ?_⟩
          simp only [finish, hkey, jobInState_establish, hlive]
          rfl
        | fail | exception data =>
          refine .inl ?_
          simp only [finish, hkey, jobInState_establish, hlive]
          rfl
      rw [store_relieved] at hended
      refine .inr (.inr ⟨live.worker, ?_⟩)
      rcases hended _ rfl with h | ⟨event, h⟩
      · exact ⟨_, h⟩
      · rw [h]
        exact publish_eq _ event

end Finish

/-- Nothing has changed but what belongs to the job under a key. -/
structure Confined (k : JobKey) (e e' : Engine σ) : Prop extends Apart k e e' where
  live : e.live.Changes k e'.live

namespace Confined

theorem refl (k : JobKey) (e : Engine σ) : Confined k e e := ⟨.refl k e, .keep⟩

/-- Then something happens that only sessions, handles and listeners have a part in. -/
theorem same (h : Confined k e e')
    (heq : (e''.settings, e''.workshops, e''.store, e''.live) =
      (e'.settings, e'.workshops, e'.store, e'.live)) : Confined k e e'' := by
  obtain ⟨hsettings, hworkshops, hstore, hlive⟩ : _ ∧ _ ∧ _ ∧ _ := by
    simpa only [Prod.mk.injEq] using heq
  exact ⟨h.toApart.same (by rw [hsettings, hworkshops, hstore]), hlive ▸ h.live⟩

theorem before (h : Confined k e' e'') (hapart : Apart k e e') (hlive : e'.live = e.live) :
    Confined k e e'' := ⟨hapart.trans h.toApart, hlive ▸ h.live⟩

theorem after (h : Confined k e e') (hapart : Apart k e' e'') (hlive : e''.live = e'.live) :
    Confined k e e'' := ⟨h.toApart.trans hapart, hlive ▸ h.live⟩

/-- Then the job is live no more. -/
theorem erase (h : Apart k e e') (hlive : e'.live = e.live) :
    Confined k e { e' with live := e'.live.erase k } :=
  ⟨h.same rfl, hlive ▸ .erase⟩

theorem publish (h : Confined k e e') (event : PeerEvent) : Confined k e (e'.publish event) :=
  h.after ((Apart.refl k e').publish event) (by unfold Engine.publish; split <;> rfl)

/-! ### Submission -/

theorem enlist {j : Job} {store : σ} (hq : (e.workshop j.functionName).queue.Orderly)
    (hwrite : JobStore.write j e.store = (.ok true, store)) :
    Confined j.key e (e.enlist j store) := by
  have hqueue : Apart j.key e (e.setQueue j.functionName _) :=
    .modifyWorkshop (k := j.key) (.accept hq j.summary)
  have hstored : Apart j.key e { e with store } := by
    refine .store fun k hk => ?_
    rw [RecordStore.record?_write hwrite, Function.update_of_ne hk]
  exact ⟨⟨rfl, hqueue.workshop?, hqueue.workshop, hstored.record⟩, .insert rfl⟩

theorem letIn {j : Job} (hq : (e.workshop j.functionName).queue.Orderly)
    (client : Option SessionId) : Confined j.key e (e.letIn j client).2 := by
  rcases letIn_cases e j client with ⟨err, store, h, hstore⟩ | ⟨store, event, hwrite, h⟩
  · have hstored : Apart j.key e { e with store } := by
      refine .store fun k _ => ?_
      rcases hstore with rfl | ⟨reply, hwrite, hreply⟩
      · rfl
      · rw [RecordStore.record?_write_of_ne hwrite hreply]
    rw [h]
    exact ⟨hstored.same rfl, .keep⟩
  · rw [h]
    have henlisted : Confined j.key e (e.enlist (e.admitted j) store) :=
      .enlist (j := e.admitted j) hq hwrite
    have hawait := core_await (e.enlist (e.admitted j) store) (e.admitted j) client
    have hwaits := henlisted.after (.await rfl _ client) (congrArg Core.live hawait)
    have hwake := core_wakeCrew ((e.enlist (e.admitted j) store).await (e.admitted j) client)
      j.functionName
    have hwoken := hwaits.after (.wakeCrew j.key _) (congrArg Core.live hwake)
    exact hwoken.publish event

theorem submit (hq : ∀ f, (e.workshop f).queue.Orderly) (j : Job) (client : Option SessionId) :
    Confined (e.identify j).1.key e (e.submit j client).2 := by
  have hprepared : Apart (e.identify j).1.key e (e.prepared j) := by
    have hname : (e.identify j).1.key.functionName = j.functionName := functionName_identify e j
    have hestablish := Apart.establish (e.identify j).1.key e
    rw [hname] at hestablish
    exact hestablish.same rfl
  have hlive : (e.prepared j).live = e.live := congrArg Core.live (core_prepared e j)
  rw [submit_eq]
  split
  · have hawait := core_await (e.prepared j) (e.identify j).1 client
    exact ⟨hprepared.trans (.await rfl _ client),
      (congrArg Core.live hawait).trans hlive ▸ .keep⟩
  · refine (Confined.letIn ?_ client).before hprepared hlive
    rw [workshop_prepared]
    exact hq _

/-! ### Reports and removal -/

variable {handle : String}

theorem finish (hk : ∀ k', e.live.keyOf? handle = some k' → k' = k) (o : Outcome) :
    Confined k e (e.finish handle o).2 := by
  have hestablish := Apart.establish k e
  rcases finish_cases hk o with h | h | ⟨worker, published, h⟩
  · rw [h]
    exact refl k e
  · rw [h]
    exact (refl k e).after hestablish rfl
  · obtain ⟨sessions, hrelieved⟩ := relieved_eq e k worker handle
    have herased : Confined k e (e.relieved k worker handle) :=
      hrelieved ▸ (erase hestablish rfl).same rfl
    have hended := (herased.after (.dismiss k _ (o.packet handle)) rfl).after (.delete k _) rfl
    have hstore : ((e.relieved k worker handle).dismiss k (o.packet handle)).store = e.store :=
      store_relieved e k worker handle
    rw [hstore] at hended
    rw [h]
    exact hended.same rfl

variable (he : e.Filed)
include he

omit [JobStore σ] [RecordStore σ] in
theorem key_of_jobInState (hk : ∀ k', e.live.keyOf? handle = some k' → k' = k) {state : JobState}
    {live : LiveJob} (h : e.jobInState handle state = .ok live) : live.job.key = k := by
  obtain ⟨k', hkey, hlive, -⟩ := find?_of_jobInState h
  exact (he.key_eq hlive).trans (hk k' hkey)

theorem report (hk : ∀ k', e.live.keyOf? handle = some k' → k' = k) (r : Report) :
    Confined k e (e.report handle r).2 := by
  cases r with
  | finish o => exact finish hk o
  | progress n d =>
    simp only [Engine.report, reportProgress]
    split
    · exact refl k e
    · next live hlive =>
      obtain rfl := key_of_jobInState he hk hlive
      exact ⟨(Apart.refl _ e).same rfl, .modify fun _ => rfl⟩
  | data data =>
    simp only [Engine.report, reportData]
    split
    · exact refl k e
    · exact ((refl k e).publish _).same rfl
  | warning data =>
    simp only [Engine.report, reportWarning]
    split
    · exact refl k e
    · exact (refl k e).same rfl

theorem remove (hq : ∀ f, (e.workshop f).queue.Orderly)
    (hk : ∀ k', e.live.keyOf? handle = some k' → k' = k) :
    Confined k e (e.remove handle).2 := by
  cases hj : e.jobInState handle .queued with
  | error err =>
    rw [show (e.remove handle).2 = e by simp [Engine.remove, hj]]
    exact refl k e
  | ok live =>
    obtain rfl := key_of_jobInState he hk hj
    have hestablish := Apart.establish live.job.key e
    have hqueue : ((e.establish live.job.key.functionName).workshop
        live.job.key.functionName).queue.Orderly := by
      rw [workshop_establish]
      exact hq _
    have hdequeued := hestablish.trans (.dequeue hqueue)
    simp only [Engine.remove, hj]
    split
    · exact (erase hdequeued rfl).after (.dismiss _ _ _) rfl
    · exact (refl live.job.key e).after hdequeued rfl

omit he in
theorem settle (hq : ∀ f, (e.workshop f).queue.Orderly) (live : LiveJob) (data : Bytes) :
    Confined live.job.key e (e.settle live data) := by
  have hdequeued : Apart live.job.key e _ := .dequeue (hq live.job.key.functionName)
  unfold Engine.settle
  dsimp only
  split
  · exact (erase hdequeued rfl).after (.dismiss _ _ _) rfl
  · exact ((refl live.job.key e).after hdequeued rfl).after (.dismiss _ _ _) rfl

theorem hear (hq : ∀ f, (e.workshop f).queue.Orderly) (event : PeerEvent) :
    Confined ⟨event.functionName, event.uniqueId⟩ e (e.hear event) := by
  unfold Engine.hear
  dsimp only
  split
  · exact refl _ e
  · have hwake := core_wakeCrew e event.functionName
    exact (refl _ e).after (.wakeCrew ⟨event.functionName, event.uniqueId⟩ e)
      (congrArg Core.live hwake)
  · exact refl _ e
  · exact (refl _ e).same rfl
  · next live _ _ hlive =>
    split
    · exact refl _ e
    · exact he.key_eq hlive ▸ settle hq live event.data

end Confined

/-! ### Who hears of it -/

/-- Whom an action about one job may send something: whoever waits for the job, and the sleepers of
its function, who are called when the action brings the function a job. -/
inductive Reaches (e : Engine σ) (k : JobKey) (a : Action σ) (id : SessionId) : Packet → Prop
  | waiter {p : Packet} : id ∈ e.waiters k → Reaches e k a id p
  | sleeper : e.supplied? a = some k.functionName →
    id ∈ (e.workshop k.functionName).crew.sleepers → Reaches e k a id (.response .noop)

section Mail

omit [RecordStore σ]

variable {a : Action σ}

/-- Nothing is sent before. -/
theorem reaches_of_posts (h : Posts (fun _ => False) e e')
    (h' : e'.sessions.Adds (e.Reaches k a) e''.sessions) :
    e.sessions.Adds (e.Reaches k a) e''.sessions :=
  (Sessions.Adds.mono (fun _ _ h => h.elim) h).trans h'

theorem reaches_of_silent (h : Posts (fun _ => False) e e') :
    e.sessions.Adds (e.Reaches k a) e'.sessions :=
  reaches_of_posts h (.refl _)

theorem reaches_send (h : Posts (fun _ => False) e e') (hwaiters : e'.waiters k = e.waiters k)
    {packet : Session → Packet}
    (hsessions : e''.sessions = e'.sessions.send packet (e'.waiters k)) :
    e.sessions.Adds (e.Reaches k a) e''.sessions := by
  refine reaches_of_posts h ?_
  rw [hsessions, hwaiters]
  exact .send (fun _ hid _ => .waiter hid) e'.sessions

theorem reaches_wakeCrew (h : Posts (fun _ => False) e e')
    (hcrew : (e'.workshop k.functionName).crew = (e.workshop k.functionName).crew)
    (hsupplied : e.supplied? a = some k.functionName) :
    e.sessions.Adds (e.Reaches k a) (e'.wakeCrew k.functionName).sessions := by
  refine reaches_of_posts h ?_
  unfold Engine.wakeCrew
  split
  · exact .refl _
  · next w hw =>
    refine .wake (fun id hid => .sleeper hsupplied ?_) e'.sessions
    rwa [← hcrew, workshop, hw]

omit [JobStore σ] in
theorem calm_prepared (e : Engine σ) (j : Job) : Calm e (e.prepared j) :=
  (Calm.establish e j.functionName).same rfl

omit [JobStore σ] in
theorem calm_enlist (e : Engine σ) (j : Job) (store : σ) : Calm e (e.enlist j store) :=
  (Calm.setQueue e j.functionName _).same rfl

theorem reaches_submit (j : Job) (client : Option SessionId) :
    e.sessions.Adds (e.Reaches (e.identify j).1.key (.submit j client))
      (e.submit j client).2.sessions := by
  have hprepared : Posts (fun _ => False) e (e.prepared j) := .of_eq rfl
  cases hfind : e.live.find? (e.identify j).1.key with
  | some live =>
    have hsubmit : (e.submit j client).2 = (e.prepared j).await (e.identify j).1 client := by
      rw [submit_eq, hfind]
    rw [hsubmit]
    exact reaches_of_silent (hprepared.trans (.await _ _ client))
  | none =>
    have hsubmit : e.submit j client = (e.prepared j).letIn (e.identify j).1 client := by
      rw [submit_eq, hfind]
    rcases letIn_cases (e.prepared j) (e.identify j).1 client with
      ⟨err, store, h, -⟩ | ⟨store, event, -, h⟩
    · rw [hsubmit, h]
      exact reaches_of_silent (hprepared.trans (.of_eq rfl))
    · have hname := functionName_identify e j
      have hsupplied : e.supplied? (.submit j client) =
          some (e.identify j).1.key.functionName := by
        have hkey : (e.identify j).1.key.functionName = j.functionName := hname
        rw [supplied?, letsIn?, hfind, hsubmit, h, hkey]
      generalize (e.prepared j).admitted (e.identify j).1 = j₁ at h
      obtain ⟨e₁, he₁⟩ : ∃ e₁, ((e.prepared j).enlist j₁ store).await j₁ client = e₁ := ⟨_, rfl⟩
      rw [he₁] at h
      have hcalm : Calm e e₁ :=
        he₁ ▸ (Calm.await _ _ client).after ((calm_enlist ..).after (calm_prepared e j))
      have hsilent : Posts (fun _ => False) e e₁ :=
        he₁ ▸ Posts.of_sessions_eq (.await _ _ client) rfl
      have hrung := reaches_wakeCrew (k := (e.identify j).1.key) hsilent (hcalm.crew _) hsupplied
      have hpublish : ((e₁.wakeCrew (e.identify j).1.functionName).publish event).sessions =
          (e₁.wakeCrew (e.identify j).1.functionName).sessions := by
        unfold publish
        split <;> rfl
      rw [hsubmit, h, hpublish]
      exact hrung

variable {handle : String}

omit [JobStore σ] in
theorem waiters_establish (e : Engine σ) (f : String) (k : JobKey) :
    (e.establish f).waiters k = e.waiters k := by
  rw [waiters, workshop_establish, waiters]

omit [JobStore σ] in
theorem waiters_setQueue (e : Engine σ) (f : String) (q : Queue) (k : JobKey) :
    (e.setQueue f q).waiters k = e.waiters k := by
  have hkeeps : ∀ w : Workshop, Workshop.waitLists { w with queue := q } = w.waitLists :=
    fun _ => rfl
  exact congrArg (WaitLists.waiters · k.uniqueId)
    (workshop_modifyWorkshop_of_eq Workshop.waitLists hkeeps e f k.functionName)

omit [JobStore σ] in
theorem posts_setQueue (e : Engine σ) (f : String) (q : Queue) {right : Packet → Prop} :
    Posts right e (e.setQueue f q) :=
  .of_eq rfl

theorem reaches_finish (hk : ∀ k', e.live.keyOf? handle = some k' → k' = k) (o : Outcome) :
    e.sessions.Adds (e.Reaches k a) (e.finish handle o).2.sessions := by
  rcases finish_cases hk o with h | h | ⟨worker, published, h⟩
  · rw [h]
    exact .refl _
  · rw [h]
    exact .refl _
  · have hwaiters : (e.relieved k worker handle).waiters k = e.waiters k := by
      obtain ⟨sessions, hrelieved⟩ := relieved_eq e k worker handle
      rw [← waiters_establish e k.functionName k, hrelieved]
      rfl
    have hsessions : (e.finish handle o).2.sessions = (e.relieved k worker handle).sessions.send
        (o.packet handle) ((e.relieved k worker handle).waiters k) := by
      rw [h]
      rfl
    exact reaches_send (posts_relieved e k worker handle) hwaiters hsessions

variable (he : e.Filed)
include he

theorem reaches_report (hk : ∀ k', e.live.keyOf? handle = some k' → k' = k) (r : Report) :
    e.sessions.Adds (e.Reaches k a) (e.report handle r).2.sessions := by
  cases r with
  | finish o => exact reaches_finish hk o
  | progress n d =>
    simp only [report, reportProgress]
    split
    · exact .refl _
    · next live hlive =>
      obtain rfl := Confined.key_of_jobInState he hk hlive
      exact reaches_send (.refl e) rfl rfl
  | data data =>
    simp only [report, reportData]
    split
    · exact .refl _
    · next live hlive =>
      obtain rfl := Confined.key_of_jobInState he hk hlive
      refine reaches_send (Posts.publish e
        ⟨live.job.key.uniqueId, live.job.key.functionName, .workData, data⟩) ?_ rfl
      obtain ⟨published, hpublish⟩ := publish_eq e
        ⟨live.job.key.uniqueId, live.job.key.functionName, .workData, data⟩
      rw [hpublish]
      rfl
  | warning data =>
    simp only [report, reportWarning]
    split
    · exact .refl _
    · next live hlive =>
      obtain rfl := Confined.key_of_jobInState he hk hlive
      exact reaches_send (.refl e) rfl rfl

theorem reaches_remove (hk : ∀ k', e.live.keyOf? handle = some k' → k' = k) :
    e.sessions.Adds (e.Reaches k a) (e.remove handle).2.sessions := by
  cases hj : e.jobInState handle .queued with
  | error err =>
    rw [show (e.remove handle).2 = e by simp [remove, hj]]
    exact .refl _
  | ok live =>
    obtain rfl := Confined.key_of_jobInState he hk hj
    obtain ⟨q, -, -, hremove⟩ := he.remove_eq hj
    rw [hremove]
    exact reaches_send (posts_setQueue e live.job.key.functionName q) (waiters_setQueue ..) rfl

omit he in
theorem reaches_settle (live : LiveJob) (data : Bytes) :
    e.sessions.Adds (e.Reaches live.job.key a) (e.settle live data).sessions := by
  obtain ⟨q, hq⟩ : ∃ q, ((e.workshop live.job.key.functionName).queue.remove live.job.key
    e.store).2.1 = q := ⟨_, rfl⟩
  have hsessions : (e.settle live data).sessions =
      (e.setQueue live.job.key.functionName q).sessions.send
        (fun _ => .response (.workComplete live.job.handle data))
        ((e.setQueue live.job.key.functionName q).waiters live.job.key) := by
    unfold settle
    dsimp only
    rw [hq]
    split <;> rfl
  exact reaches_send (posts_setQueue e live.job.key.functionName q) (waiters_setQueue ..) hsessions

theorem reaches_hear (event : PeerEvent) :
    e.sessions.Adds (e.Reaches ⟨event.functionName, event.uniqueId⟩ (.hear event))
      (e.hear event).sessions := by
  unfold hear
  dsimp only
  split
  · exact .refl _
  · next w hw hkind =>
    exact reaches_wakeCrew (k := ⟨event.functionName, event.uniqueId⟩) (.refl e) rfl
      (by rw [supplied?, heard?, hw, hkind])
  · exact .refl _
  · exact reaches_send (.refl e) rfl rfl
  · next live _ _ hlive =>
    split
    · exact .refl _
    · exact he.key_eq hlive ▸ reaches_settle live event.data

end Mail

/-! ### All that is done to one job -/

/-- The action is about the job under a key: the job is submitted, called by a handle that leads to
no other, or heard of. -/
def Concerns (e : Engine σ) (k : JobKey) : Action σ → Prop
  | .submit j _ => (e.identify j).1.key = k
  | .finish handle _ | .progress handle _ _ | .data handle _ | .warning handle _
  | .remove handle => ∀ k', e.live.keyOf? handle = some k' → k' = k
  | .hear event => ⟨event.functionName, event.uniqueId⟩ = k
  | _ => False

variable {a : Action σ}

theorem confined_act (he : e.Filed) (hq : ∀ f, (e.workshop f).queue.Orderly)
    (ha : e.Concerns k a) : Confined k e (e.act a) := by
  cases a with
  | submit j client => exact ha ▸ .submit hq j client
  | finish handle o => exact .finish ha o
  | progress handle n d => exact .report he ha (.progress n d)
  | data handle data => exact .report he ha (.data data)
  | warning handle data => exact .report he ha (.warning data)
  | remove handle => exact .remove he hq ha
  | hear event => exact ha ▸ .hear he hq event
  | _ => exact ha.elim

omit [RecordStore σ] in
theorem reaches_act (he : e.Filed) (ha : e.Concerns k a) :
    e.sessions.Adds (e.Reaches k a) (e.act a).sessions := by
  cases a with
  | submit j client => exact ha ▸ reaches_submit j client
  | finish handle o => exact reaches_finish ha o
  | progress handle n d => exact reaches_report he ha (.progress n d)
  | data handle data => exact reaches_report he ha (.data data)
  | warning handle data => exact reaches_report he ha (.warning data)
  | remove handle => exact reaches_remove he ha
  | hear event => exact ha ▸ reaches_hear he event
  | _ => exact ha.elim

/-- What an action about one job leaves alone: the workshops of other functions, what the workshop
of its function keeps for other jobs, all other live jobs under their keys and handles, and their
records. Packets come only to those who wait for the job, but for the calls to work. -/
structure Isolated (e : Engine σ) (k : JobKey) (a : Action σ) (e' : Engine σ) : Prop where
  workshop? : ∀ g, g ≠ k.functionName → e'.workshop? g = e.workshop? g
  workshop : (e.workshop k.functionName).Apart k.uniqueId (e'.workshop k.functionName)
  find? : ∀ k', k' ≠ k → e'.live.find? k' = e.live.find? k'
  keyOf? : ∀ handle, (∀ live, e.live.find? k = some live → live.job.handle ≠ handle) →
    (∀ live, e'.live.find? k = some live → live.job.handle ≠ handle) →
    e'.live.keyOf? handle = e.live.keyOf? handle
  record : ∀ k', k' ≠ k → record? e'.store k' = record? e.store k'
  mail : ∀ id, ∃ ps, e'.outbox id = e.outbox id ++ ps ∧ ∀ p ∈ ps, e.Reaches k a id p

/-- Whatever was done to an engine, over whatever store, what is done to one job then concerns no
other. -/
theorem isolated_performAll (settings : EngineSettings) (store : σ) (now : Int64)
    (newId : Nat → String) (isLinked : Bool) (ds : List (Deed σ)) {k : JobKey} {a : Action σ}
    (ha : ((start settings store now newId isLinked).performAll ds).Concerns k a) :
    ((start settings store now newId isLinked).performAll ds).Isolated k a
      (((start settings store now newId isLinked).performAll ds).act a) := by
  have hfiled := (Filed.start settings store now newId isLinked).performAll ds
  have htended := tended_performAll
    (unmanned_start settings store now newId isLinked).wakeful.toTended ds
  have hconfined := confined_act hfiled htended.orderly ha
  exact {
    workshop? := hconfined.workshop?
    workshop := hconfined.workshop
    find? := fun _ => hconfined.live.find?_of_ne
    keyOf? := fun _ => hconfined.live.keyOf?_of_ne
    record := hconfined.record
    mail := reaches_act hfiled ha }

/-- Of two jobs in one lane the first is removed; a third one has the same unique id under another
function. -/
theorem isolated_performAll_same_unique_id :
    let ds : List (Deed MemoryStore) :=
      [.act (.arrive "1.1.1.1:1"), .act (.connect 0), .act (.arrive "1.1.1.1:2"),
        .act (.connect 1), .act (.submit (.new "f" "a" []) (some 0)),
        .act (.submit (.new "f" "b" []) (some 1)), .act (.submit (.new "g" "a" []) (some 1))]
    let e := (start EngineSettings.default MemoryStore.empty 0 decimal true).performAll ds
    let e' := e.act (.remove "H:localhost:1")
    e.Isolated ⟨"f", "a"⟩ (.remove "H:localhost:1") e' ∧
      (e'.live.find? ⟨"f", "a"⟩, e'.live.find? ⟨"g", "a"⟩) =
        (none, e.live.find? ⟨"g", "a"⟩) ∧
      (e.live.find? ⟨"g", "a"⟩).isSome ∧
      ((e.workshop "f").queue.lanes.normal, (e'.workshop "f").queue.lanes.normal) =
        (["a", "b"], ["b"]) ∧
      (e'.outbox 0, e'.outbox 1) = ([.response (.workFail "H:localhost:1")], []) := by
  intro ds e e'
  have hkey : e.live.keyOf? "H:localhost:1" = some ⟨"f", "a"⟩ := by decide +kernel
  have hconcerns : e.Concerns ⟨"f", "a"⟩ (.remove "H:localhost:1") := fun k' hk' =>
    Option.some.inj (hk'.symm.trans hkey)
  exact ⟨isolated_performAll EngineSettings.default MemoryStore.empty 0 decimal true ds hconcerns,
    by decide +kernel, by decide +kernel, by decide +kernel, by decide +kernel⟩

end Engine

end JobBroker
