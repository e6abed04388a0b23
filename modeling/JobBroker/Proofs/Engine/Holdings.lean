import JobBroker.Proofs.Engine.Recovery

/-!
# What is true of all jobs

A job comes into an engine when it is let in or when it is taken up from the store. What is true of
it then stays true: it is copied between the live jobs and the store, but nothing in it changes
besides how far the work on it has come.

* `Core.Holds` : all jobs, live or on record, have a property.
* `Core.Holds.shift`, `Core.Holds.taken`, `Engine.holds_load` : what happens to a core keeps it.
* `Engine.holds_nextJob` : so a job that is handed to a worker has the property.
-/

namespace JobBroker

open Function (update update_apply)
open Relation (ReflTransGen)
open RecordStore (record?)

variable {σ : Type} [JobStore σ] [RecordStore σ] {P : Job → Prop}

/-! ### All jobs of a core -/

namespace Core

variable {c c' : Core σ}

/-- Each job that is live or on record has the property, as it was before anybody worked on it. -/
structure Holds (P : Job → Prop) (c : Core σ) : Prop where
  live : ∀ {k j}, c.live.held k = some j → P j
  record : ∀ {k j}, record? c.store k = some j → P j.renewed

namespace Holds

theorem mono {P' : Job → Prop} (hP : ∀ j, P j → P' j) (h : c.Holds P) : c.Holds P' :=
  ⟨fun hl => hP _ (h.live hl), fun hr => hP _ (h.record hr)⟩

theorem of_find? (h : c.Holds P) {k : JobKey} {live : LiveJob}
    (hlive : c.live.find? k = some live) : P live.job.renewed :=
  h.live (LiveJobs.held_eq_some hlive)

/-- One job is another, or is gone. -/
theorem of_update (h : c.Holds P) {x : Option Job} (hx : ∀ j, x = some j → P j) {k k' : JobKey}
    {j : Job} (hl : update c.live.held k x k' = some j) : P j := by
  rw [update_apply] at hl
  split at hl
  · exact hx j hl
  · exact h.live hl

theorem shift (h : c.Holds P) (hs : c.Shift c') : c'.Holds P := by
  refine ⟨fun hl => ?_, fun hr => h.record (hs.record_of_record hr)⟩
  cases hs with
  | adjust _ _ => exact h.live hl
  | lose _ _ _ | finish _ _ | remove _ =>
    rw [LiveJobs.held_erase] at hl
    exact h.of_update (by simp) hl
  | hand _ _ hlive =>
    rw [LiveJobs.held_modify fun l hl => by
      rw [Option.some.inj (hlive.symm.trans hl)]; rfl] at hl
    exact h.live hl
  | adopt _ hfind _ =>
    rw [LiveJobs.held_insert] at hl
    have hrecord := h.record (RecordStore.record?_of_find hfind)
    exact h.of_update (fun j hj => Option.some.inj hj ▸ hrecord) hl
  | requeue _ | advance =>
    rw [LiveJobs.held_modify] at hl
    · exact h.live hl
    · exact fun _ _ => rfl

theorem shifts (h : c.Holds P) (hs : ReflTransGen Shift c c') : c'.Holds P := by
  induction hs with
  | refl => exact h
  | tail _ hs ih => exact ih.shift hs

/-- A submission brings in no job but its own, under the next handle, and only if it is let in. -/
theorem taken (h : c.Holds P) {j : Job} {answer : Except JobError Job}
    (ht : Engine.Taken c j answer c') (hj : c.live.find? j.key = none →
      answer = .ok { j.renewed with handle := c.handles.next.1 } →
      P { j.renewed with handle := c.handles.next.1 }) :
    c'.Holds P := by
  cases ht with
  | joined _ => exact h
  | refused hstore =>
    refine ⟨h.live, fun {k} _ hr => h.record (k := k) ?_⟩
    rcases hstore with rfl | ⟨i, reply, hwrite, hne⟩
    · exact hr
    · exact RecordStore.record?_write_of_ne hwrite hne ▸ hr
  | letIn hnew hj' hwrite =>
    subst hj'
    replace hj := hj hnew rfl
    refine ⟨fun hl => ?_, fun hr => ?_⟩
    · rw [LiveJobs.held_insert] at hl
      exact h.of_update (fun i hi => Option.some.inj hi ▸ hj) hl
    · rw [RecordStore.record?_write hwrite, update_apply] at hr
      split at hr
      · exact Option.some.inj hr ▸ hj
      · exact h.record hr

end Holds

end Core

/-! ### Jobs that are taken up and handed out -/

namespace Engine

variable {e : Engine σ}

omit [JobStore σ] [RecordStore σ] in
/-- A job that is taken up keeps its handle, or is given the next one. -/
theorem restore_cases (e : Engine σ) (j : Job) :
    (e.restore j).2.store = e.store ∧ ((e.restore j).2.live = e.live ∨
      (e.restore j).2.live = e.live.insert { j.renewed with
        handle := if j.handle = "" then e.handles.next.1 else j.handle } none) := by
  unfold Engine.restore
  dsimp only
  split <;> split
  · exact ⟨rfl, .inr rfl⟩
  · exact ⟨rfl, .inl rfl⟩
  · exact ⟨rfl, .inr rfl⟩
  · exact ⟨rfl, .inl rfl⟩

/-- Reading records changes none of them, and reads nothing else. -/
theorem record?_readRecords (qs : List QueuedJob) (e : Engine σ) :
    record? (e.readRecords qs).2.store = record? e.store ∧
      ∀ j ∈ (e.readRecords qs).1, ∃ k, record? e.store k = some j := by
  induction qs generalizing e with
  | nil => exact ⟨rfl, by simp [readRecords]⟩
  | cons q qs ih =>
    unfold readRecords
    split
    · next j store hfind =>
      have hsame : record? store = record? e.store := RecordStore.record?_find hfind
      obtain ⟨hrecords, hread⟩ := ih { e with store, handles := e.handles.observe j.handle }
      refine ⟨hrecords.trans hsame, fun i hi => ?_⟩
      rcases List.mem_cons.mp hi with rfl | hi
      · exact ⟨q.key, RecordStore.record?_of_find hfind⟩
      · exact hsame ▸ hread i hi
    · next store _ hfind =>
      have hsame : record? store = record? e.store := RecordStore.record?_find hfind
      obtain ⟨hrecords, hread⟩ := ih { e with store }
      exact ⟨hrecords.trans hsame, hsame ▸ hread⟩

omit [JobStore σ] [RecordStore σ] in
theorem sessions_restoreAll (js : List Job) (e : Engine σ) :
    (e.restoreAll js).2.sessions = e.sessions := by
  induction js generalizing e with
  | nil => rfl
  | cons j js ih =>
    have hrestore : (e.restore j).2.sessions = e.sessions := by
      unfold Engine.restore
      dsimp only
      split <;> split <;> rfl
    exact (ih _).trans hrestore

omit [RecordStore σ] in
/-- No session learns of the jobs that are taken up. -/
theorem sessions_load (e : Engine σ) : e.load.2.sessions = e.sessions := by
  rw [load_snd, sessions_restoreAll, loaded]
  split
  · rfl
  · next queued store _ =>
    obtain ⟨store', hsnd⟩ := readRecords_snd queued { e with store }
    rw [hsnd]

/-- A job that is handed to a worker is one of those that the engine holds. -/
theorem holds_nextJob (h : e.core.Holds P) {id : SessionId} {j : Job}
    (hj : (e.nextJob id).1 = some j) : P j.renewed := by
  obtain ⟨k, hlive⟩ := live_of_takeFrom hj
  exact (h.shifts (shifts_takeFrom id (e.abilities id) e)).of_find? hlive

theorem holds_act (h : e.core.Holds P) {a : Action σ} (halter : ∀ change, a ≠ .alterStore change)
    (hsubmit : ∀ j client, a ≠ .submit j client) : (e.act a).core.Holds P :=
  h.shifts (shifts_of_no_submission e halter hsubmit)

theorem holds_submit (h : e.core.Holds P) {j : Job} (client : Option SessionId)
    (hj : e.live.find? (e.identify j).1.key = none →
      (e.submit j client).1 = .ok { (e.identify j).1.renewed with handle := e.handles.next.1 } →
      P { (e.identify j).1.renewed with handle := e.handles.next.1 }) :
    (e.submit j client).2.core.Holds P :=
  h.taken (taken_submit e j client) hj

theorem holds_restore (h : e.core.Holds P) {j : Job} (hj : P j.renewed)
    (hfresh : j.handle = "" → P { j.renewed with handle := e.handles.next.1 }) :
    (e.restore j).2.core.Holds P := by
  obtain ⟨hstore, hlive⟩ := restore_cases e j
  refine ⟨fun {k i} hl => ?_, fun {k i} hr => h.record (k := k) ?_⟩
  · replace hl : (e.restore j).2.live.held k = some i := hl
    rcases hlive with hlive | hlive
    · rw [hlive] at hl
      exact h.live hl
    · rw [hlive, LiveJobs.held_insert] at hl
      refine h.of_update (fun i hi => Option.some.inj hi ▸ ?_) hl
      split
      · next hempty => exact hfresh hempty
      · exact hj
  · exact (congrFun (congrArg record? hstore) k).symm.trans hr

/-- A job without a handle is given one when it is taken up. -/
theorem holds_restoreAll {host : String} (hfresh : ∀ j n, P j → j.handle = "" →
    P { j with handle := Handle.render host n }) {js : List Job} (h : e.core.Holds P)
    (hhost : e.handles.host = host) (hjs : ∀ j ∈ js, P j.renewed) :
    (e.restoreAll js).2.core.Holds P ∧ (e.restoreAll js).2.handles.host = host := by
  induction js generalizing e with
  | nil => exact ⟨h, hhost⟩
  | cons j js ih =>
    have hj : P j.renewed := hjs j List.mem_cons_self
    have hrestore := holds_restore h hj fun hempty => by
      rw [HandleFactory.next, hhost]
      exact hfresh _ _ hj hempty
    refine ih (e := (e.restore j).2) hrestore ?_ fun i hi => hjs i (List.mem_cons_of_mem j hi)
    rw [handles_restore]
    split <;> exact hhost

/-- An engine starts with the jobs of its store. -/
theorem holds_new (settings : EngineSettings) {store : σ} (now : Int64) (newId : Nat → String)
    (h : ∀ {k j}, record? store k = some j → P j.renewed) :
    (new settings store now newId).core.Holds P :=
  ⟨fun hl => absurd hl (by simp [core, new, LiveJobs.held, LiveJobs.find?, LiveJobs.empty]), h⟩

/-- The jobs that are taken up from a store have what its records have. -/
theorem holds_load {host : String} (hfresh : ∀ j n, P j → j.handle = "" →
    P { j with handle := Handle.render host n }) (h : e.core.Holds P)
    (hread : record? (JobStore.readAll e.store).2 = record? e.store)
    (hhost : e.handles.host = host) :
    e.load.2.core.Holds P ∧ e.load.2.handles.host = host := by
  rw [load_snd, loaded]
  split
  · next store hall =>
    have hsame : record? store = record? e.store := by rw [← hread, hall]
    exact ⟨⟨h.live, fun {k} _ hr => h.record (k := k) (hsame ▸ hr)⟩, hhost⟩
  · next queued store hall =>
    have hsame : record? store = record? e.store := by rw [← hread, hall]
    obtain ⟨hrecords, hjobs⟩ := record?_readRecords queued { e with store }
    obtain ⟨store', hsnd⟩ := readRecords_snd queued { e with store }
    refine holds_restoreAll hfresh ⟨fun hl => ?_, fun {k} _ hr => ?_⟩ ?_ fun j hj => ?_
    · rw [hsnd] at hl
      exact h.live hl
    · exact h.record (k := k) (hsame ▸ hrecords ▸ hr)
    · rw [hsnd]
      exact (HandleFactory.host_observeAll _ _).trans hhost
    · obtain ⟨k, hk⟩ := hjobs j hj
      exact h.record (k := k) (hsame ▸ hk)

end Engine

end JobBroker
