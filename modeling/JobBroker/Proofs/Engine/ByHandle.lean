import JobBroker.Proofs.Engine.Addressing
import JobBroker.Proofs.Engine.Announcements
import JobBroker.Proofs.Queue.Following

/-!
# Operations by handle

Workers report on jobs, and clients have jobs removed, by handles. How such a call is answered is
settled by the state of the job that has the handle, and a call that is refused changes nothing.

* `Engine.Called` : a live job has a handle and is in a state.
* `report_error`, `remove_error` : what is refused changes nothing.
* `Filed.removal` : what becomes of a job that is removed.
* `byHandle_performAll` : how all calls are answered, whatever was done before.
-/

namespace JobBroker

open Text (decimal)

open Function (update update_apply)
open RecordStore (record?)

/-- A value that is put where it is already changes nothing. -/
theorem Table.insert_of_get? {κ α : Type} [DecidableEq κ] {t : Table κ α} {k : κ} {a : α}
    (h : t.get? k = some a) : t.insert k a = t := by
  have hput : ∀ es : List (κ × α), lookup k es = some a → put k a es = es := by
    intro es
    induction es with
    | nil => exact fun h => absurd h (by simp [lookup])
    | cons e es ih =>
      intro h
      by_cases hk : e.1 = k
      · rw [lookup, if_pos hk] at h
        rw [put, if_pos hk, ← hk, ← Option.some.inj h]
      · rw [lookup, if_neg hk] at h
        rw [put, if_neg hk, ih h]
  obtain ⟨es, hnodup⟩ := t
  simp only [insert, hput es h]

/-- A report on a job. -/
inductive Report
  | progress (numerator denominator : UInt32)
  | data (data : Bytes)
  | warning (data : Bytes)
  | finish (o : Outcome)

namespace Engine

variable {σ : Type} {e : Engine σ} {handle : String}

theorem establish_of_isSome {f : String} (hf : (e.workshop? f).isSome) : e.establish f = e := by
  obtain ⟨w, hw⟩ := Option.isSome_iff_exists.mp hf
  have hworkshop : e.workshop f = w := by rw [workshop, hw, Option.getD_some]
  have hsame : e.workshops.insert f w = e.workshops := Table.insert_of_get? hw
  rw [establish, hworkshop, hsame]

/-- A live job has the handle, and is in the state. -/
def Called (e : Engine σ) (handle : String) (state : JobState) : Prop :=
  ∃ k live, e.live.find? k = some live ∧ live.job.handle = handle ∧ live.job.state = state

/-! ### Looking a job up by its handle -/

section Lookup

variable (hl : e.live.Indexed)
include hl

theorem ofHandle?_eq_some_iff {live : LiveJob} : e.live.ofHandle? handle = some live ↔
    ∃ k, e.live.find? k = some live ∧ live.job.handle = handle := by
  constructor
  · intro h
    obtain ⟨k, hk, hlive⟩ := Option.bind_eq_some_iff.mp h
    obtain ⟨j, hj, hhandle⟩ := (hl handle k).mp hk
    obtain rfl := Option.some.inj ((LiveJobs.held_eq_some hlive).symm.trans hj)
    exact ⟨k, hlive, hhandle⟩
  · rintro ⟨k, hlive, hhandle⟩
    have hk : e.live.keyOf? handle = some k :=
      (hl handle k).mpr ⟨_, LiveJobs.held_eq_some hlive, hhandle⟩
    exact Option.bind_eq_some_iff.mpr ⟨k, hk, hlive⟩

theorem called_iff {state : JobState} : e.Called handle state ↔
    ∃ live, e.live.ofHandle? handle = some live ∧ live.job.state = state := by
  simp only [ofHandle?_eq_some_iff hl]
  constructor
  · rintro ⟨k, live, hlive, hhandle, hstate⟩
    exact ⟨live, ⟨k, hlive, hhandle⟩, hstate⟩
  · rintro ⟨live, ⟨k, hlive, hhandle⟩, hstate⟩
    exact ⟨k, live, hlive, hhandle, hstate⟩

theorem Called.unique {s s' : JobState} (h : e.Called handle s) (h' : e.Called handle s') :
    s = s' := by
  obtain ⟨live, hlive, rfl⟩ := (called_iff hl).mp h
  obtain ⟨live', hlive', rfl⟩ := (called_iff hl).mp h'
  rw [Option.some.inj (hlive.symm.trans hlive')]

theorem jobInState_cases (handle : String) (wanted : JobState) :
    (∀ s, ¬ e.Called handle s) ∧ e.jobInState handle wanted = .error (.jobNotFound handle) ∨
      (∃ s, s ≠ wanted ∧ e.Called handle s ∧
        e.jobInState handle wanted = .error (.illegalState handle wanted s)) ∨
      e.Called handle wanted ∧ ∃ live, e.jobInState handle wanted = .ok live := by
  cases hlive : e.live.ofHandle? handle with
  | none =>
    refine .inl ⟨fun s hs => ?_, by simp only [jobInState, hlive]⟩
    obtain ⟨live, hlive', -⟩ := (called_iff hl).mp hs
    exact absurd (hlive.symm.trans hlive') (by simp)
  | some live =>
    have hcalled : e.Called handle live.job.state := (called_iff hl).mpr ⟨live, hlive, rfl⟩
    obtain ⟨-, -, rfl⟩ := (ofHandle?_eq_some_iff hl).mp hlive
    by_cases hstate : live.job.state = wanted
    · exact .inr (.inr ⟨hstate ▸ hcalled, live, by simp only [jobInState, hlive, hstate, if_true]⟩)
    · exact .inr (.inl ⟨_, hstate, hcalled, by simp only [jobInState, hlive, hstate, if_false]⟩)

end Lookup

/-- A call is answered by whether a live job has the handle, and in which state it is: it succeeds,
with `a`, for a job in the state `wanted`. -/
structure Settled {α : Type} (e : Engine σ) (handle : String) (wanted other : JobState) (a : α)
    (answer : Except JobError α) : Prop where
  cases : answer = .error (.jobNotFound handle) ∨
    answer = .error (.illegalState handle wanted other) ∨ answer = .ok a
  notFound_iff : answer = .error (.jobNotFound handle) ↔ ∀ s, ¬ e.Called handle s
  illegal_iff : answer = .error (.illegalState handle wanted other) ↔ e.Called handle other
  ok_iff : answer = .ok a ↔ e.Called handle wanted

theorem settled_of_jobInState {α : Type} (hl : e.live.Indexed) {wanted other : JobState} {a : α}
    (hne : other ≠ wanted) (hstates : ∀ s, e.Called handle s → s = wanted ∨ s = other) :
    e.Settled handle wanted other a ((e.jobInState handle wanted).map fun _ => a) := by
  rcases jobInState_cases hl handle wanted with
    ⟨hnone, hj⟩ | ⟨s, hs, hcalled, hj⟩ | ⟨hcalled, live, hj⟩ <;> rw [hj]
  · exact {
      cases := .inl rfl
      notFound_iff := iff_of_true rfl hnone
      illegal_iff := iff_of_false (by simp [Except.map]) (hnone other)
      ok_iff := iff_of_false (by simp [Except.map]) (hnone wanted) }
  · obtain rfl := (hstates s hcalled).resolve_left hs
    exact {
      cases := .inr (.inl rfl)
      notFound_iff := iff_of_false (by simp [Except.map]) fun hnone => hnone s hcalled
      illegal_iff := iff_of_true rfl hcalled
      ok_iff := iff_of_false (by simp [Except.map]) fun h => hs (hcalled.unique hl h) }
  · exact {
      cases := .inr (.inr rfl)
      notFound_iff := iff_of_false (by simp [Except.map]) fun hnone => hnone wanted hcalled
      illegal_iff := iff_of_false (by simp [Except.map]) fun h => hne (h.unique hl hcalled)
      ok_iff := iff_of_true rfl hcalled }

variable [JobStore σ]

/-! ### Reports -/

/-- Takes a report on the job under a handle. -/
def report (e : Engine σ) (handle : String) : Report → Except JobError Unit × Engine σ
  | .progress n d => e.reportProgress handle n d
  | .data data => e.reportData handle data
  | .warning data => e.reportWarning handle data
  | .finish o => ((e.finish handle o).1.map fun _ => (), (e.finish handle o).2)

theorem report_fst (e : Engine σ) (handle : String) (r : Report) :
    (e.report handle r).1 = (e.jobInState handle .working).map fun _ => () := by
  cases hj : e.jobInState handle .working with
  | error err =>
    cases r with
    | progress n d => simp [report, reportProgress, hj, Except.map]
    | data data => simp [report, reportData, hj, Except.map]
    | warning data => simp [report, reportWarning, hj, Except.map]
    | finish o =>
      rcases finish_of_error hj o with hfinish | ⟨k, -, hfinish⟩
      · simp [report, hfinish, Except.map]
      · simp [report, hfinish, Except.map]
  | ok live =>
    cases r with
    | progress n d => simp [report, reportProgress, hj, Except.map]
    | data data => simp [report, reportData, hj, Except.map]
    | warning data => simp [report, reportWarning, hj, Except.map]
    | finish o =>
      obtain ⟨k, hk, -⟩ := find?_of_jobInState hj
      simp [report, (channel_finish_of_ok hk hj o).1, Except.map]

/-- A report that is refused changes nothing. -/
theorem report_error (he : e.Filed) (hl : e.live.Indexed) {r : Report} {err : JobError}
    (h : (e.report handle r).1 = .error err) : (e.report handle r).2 = e := by
  rw [report_fst] at h
  cases hj : e.jobInState handle .working with
  | ok live => exact absurd h (by simp [hj, Except.map])
  | error err =>
    cases r with
    | progress n d => simp [report, reportProgress, hj]
    | data data => simp [report, reportData, hj]
    | warning data => simp [report, reportWarning, hj]
    | finish o =>
      rcases finish_of_error hj o with hfinish | ⟨k, hk, hfinish⟩
      · simp [report, hfinish]
      · obtain ⟨j, hheld, -⟩ := (hl handle k).mp hk
        have hlive : (e.live.find? k).isSome := by
          rw [← Option.isSome_map]
          exact Option.isSome_of_eq_some hheld
        simp [report, hfinish, establish_of_isSome (he.known hlive)]

/-! ### Removal -/

/-- The job under a key and a handle is gone, and all others are as before: those that are queued
stand in their lanes in the same order. -/
structure Removal (e : Engine σ) (k : JobKey) (handle : String) (e' : Engine σ) : Prop where
  find?_eq : e'.live.find? = update e.live.find? k none
  keyOf?_eq : e'.live.keyOf? = update e.live.keyOf? handle none
  queued : ∀ f u, (e'.workshop f).queue.find? u =
    if k = ⟨f, u⟩ then none else (e.workshop f).queue.find? u
  ids : ∀ f lane, (e'.workshop f).queue.lanes.ids lane =
    ((e.workshop f).queue.lanes.ids lane).filter fun u => k ≠ ⟨f, u⟩
  waiters : e'.waiters k = []
  store : e'.store = (JobStore.delete k e.store).2
  record : ∀ record : σ → JobKey → Option Job, DeletesRecords record →
    (JobStore.delete k e.store).1 = .ok () → record e'.store k = none

omit [JobStore σ] in
/-- Nobody waits for a job that everybody was told the end of. -/
theorem waiters_dismiss {k : JobKey} (hf : (e.workshop? k.functionName).isSome)
    (packet : Session → Packet) : (e.dismiss k packet).waiters k = [] := by
  show ((e.modifyWorkshop k.functionName fun w =>
    { w with waitLists := w.waitLists.release k.uniqueId }).workshop
      k.functionName).waitLists.waiters k.uniqueId = []
  rw [workshop_modifyWorkshop hf, if_pos rfl, WaitLists.waiters_release, if_pos rfl]

omit [JobStore σ] in
/-- A job that is taken out of a queue is missing from its own lane only. -/
theorem ids_drop_of_find? {q : Queue} (hq : q.InOrder) {u : String} {j : QueuedJob}
    (hj : q.find? u = some j) (lane : Lane) :
    (q.lanes.drop j).ids lane = (q.lanes.ids lane).filter (· ≠ u) := by
  obtain rfl := hq.uniqueId hj
  rw [Lanes.ids_drop]
  split
  · rfl
  · next hlane =>
    refine (Lanes.filter_ne_eq_self fun hmem => hlane ?_).symm
    obtain ⟨i, hi, rfl⟩ := (hq.mem_ids lane _).mp hmem
    rw [Option.some.inj (hi.symm.trans hj)]

/-- A live job that is queued is in its queue, and is taken out of it; the call cannot answer that
the job is in no queue. -/
theorem Filed.remove_eq (he : e.Filed) {live : LiveJob}
    (hj : e.jobInState handle .queued = .ok live) : ∃ q : Queue,
      (e.core.queues live.job.functionName).Yields live.job.uniqueId live.job.summary q ∧
      q.lanes = (e.workshop live.job.functionName).queue.lanes.drop live.job.summary ∧
      e.remove handle = (.ok true, ({ e.setQueue live.job.functionName q with
        store := (JobStore.delete live.job.key e.store).2
        live := e.live.erase live.job.key } : Engine σ).dismiss live.job.key
          fun _ => .response (.workFail handle)) := by
  obtain ⟨k, -, hlive, hstate⟩ := find?_of_jobInState hj
  obtain rfl : live.job.key = k := he.key_eq hlive
  have hf : (e.workshop? live.job.key.functionName).isSome :=
    he.known (Option.isSome_of_eq_some hlive)
  have hfind : (e.workshop live.job.key.functionName).queue.find? live.job.key.uniqueId =
      some live.job.summary :=
    (he.find?_eq _ _).trans (LiveJobs.waiting_eq_some_iff.mpr ⟨live, hlive, hstate, rfl⟩)
  have htaken := Queue.remove_of_find? hfind e.store
  let w := e.workshop live.job.functionName
  refine ⟨w.queue.without live.job.uniqueId (w.queue.lanes.drop live.job.summary)
    (w.queue.tally.remove live.job.summary.priority), ⟨rfl, hfind, fun v => ?_⟩, rfl, ?_⟩
  · exact Queue.find?_without _ _ v _ _
  · simp only [remove, hj, establish_of_isSome hf, htaken, if_true]
    rfl

theorem Filed.removal (he : e.Filed) (hl : e.live.Indexed)
    (hq : ∀ f, (e.workshop f).queue.Orderly) {live : LiveJob}
    (hj : e.jobInState handle .queued = .ok live) :
    (e.remove handle).1 = .ok true ∧ e.Removal live.job.key handle (e.remove handle).2 := by
  obtain ⟨k, hkey, hlive, -⟩ := find?_of_jobInState hj
  obtain rfl : live.job.key = k := he.key_eq hlive
  obtain ⟨-, -, rfl⟩ := (ofHandle?_eq_some_iff hl).mp
    (Option.bind_eq_some_iff.mpr ⟨live.job.key, hkey, hlive⟩)
  have hf : (e.workshop? live.job.functionName).isSome :=
    he.known (k := live.job.key) (Option.isSome_of_eq_some hlive)
  obtain ⟨q, hyields, hlanes, hremove⟩ := he.remove_eq hj
  obtain ⟨e₁, he₁⟩ : ∃ e₁, ({ e.setQueue live.job.functionName q with
    store := (JobStore.delete live.job.key e.store).2
    live := e.live.erase live.job.key } : Engine σ) = e₁ := ⟨_, rfl⟩
  rw [he₁] at hremove
  have hf₁ : (e₁.workshop? live.job.functionName).isSome :=
    he₁ ▸ (isSome_modifyWorkshop ..).trans hf
  have hqueues : ∀ f, ((e.remove live.job.handle).2.workshop f).queue =
      update e.core.queues live.job.functionName q f := by
    intro f
    have hcore := congrArg (fun c : Core σ => c.queues f) (core_setQueue hf q)
    have hdismiss := congrArg (fun c : Core σ => c.queues f)
      (core_dismiss e₁ live.job.key fun _ => .response (.workFail live.job.handle))
    rw [hremove]
    exact hdismiss.trans (he₁ ▸ hcore)
  have hstore : (e.remove live.job.handle).2.store = (JobStore.delete live.job.key e.store).2 := by
    rw [hremove, ← he₁]
    rfl
  have hnow : (e.remove live.job.handle).2.live = e.live.erase live.job.key := by
    rw [hremove, ← he₁]
    rfl
  refine ⟨congrArg Prod.fst hremove, ?_⟩
  exact {
    find?_eq := by rw [hnow, LiveJobs.find?_erase_eq]
    keyOf?_eq := by rw [hnow, LiveJobs.keyOf?_erase_eq hlive]
    queued := by
      intro f u
      rw [hqueues]
      exact Core.find?_update_of_yields hyields f u
    ids := by
      intro f lane
      obtain ⟨r, hr⟩ := hq live.job.functionName
      rw [hqueues, update_apply]
      split
      · next hf =>
        subst hf
        rw [hlanes, ids_drop_of_find? hr.inOrder hyields.find?]
        refine List.filter_congr fun u _ => ?_
        simp [Job.key, eq_comm]
      · next hf =>
        refine (List.filter_eq_self.mpr fun u _ => ?_).symm
        simp [Job.key, Ne.symm hf]
    waiters := by
      rw [hremove]
      exact waiters_dismiss hf₁ _
    store := hstore
    record := by
      intro record hrecord hdeleted
      rw [hstore]
      exact hrecord.gone hdeleted }

/-! ### All calls by a handle -/

/-- How the calls by a handle are answered, and what they change when they are refused. -/
structure ByHandle (e : Engine σ) (handle : String) : Prop where
  report : ∀ r, e.Settled handle .working .queued () (e.report handle r).1
  report_error : ∀ r err, (e.report handle r).1 = .error err → (e.report handle r).2 = e
  remove : e.Settled handle .queued .working true (e.remove handle).1
  remove_error : ∀ err, (e.remove handle).1 = .error err → (e.remove handle).2 = e
  removal : (e.remove handle).1 = .ok true →
    ∃ k, e.live.keyOf? handle = some k ∧ e.Removal k handle (e.remove handle).2

theorem byHandle (he : e.Filed) (hl : e.live.Indexed) (hq : ∀ f, (e.workshop f).queue.Orderly)
    (handle : String) : e.ByHandle handle := by
  have hstates : ∀ s, e.Called handle s → s = .queued ∨ s = .working := by
    rintro s ⟨k, live, hlive, -, rfl⟩
    exact he.state hlive
  have hfst : (e.remove handle).1 = (e.jobInState handle .queued).map fun _ => true := by
    cases hj : e.jobInState handle .queued with
    | error err => simp [Engine.remove, hj, Except.map]
    | ok live => exact (he.removal hl hq hj).1
  exact {
    report := fun r => by
      rw [report_fst]
      exact settled_of_jobInState hl (by decide) fun s hs => (hstates s hs).symm
    report_error := fun r err h => Engine.report_error he hl h
    remove := by
      rw [hfst]
      exact settled_of_jobInState hl (by decide) hstates
    remove_error := by
      intro err h
      rw [hfst] at h
      cases hj : e.jobInState handle .queued with
      | error err => simp [Engine.remove, hj]
      | ok live => exact absurd h (by simp [hj, Except.map])
    removal := by
      intro h
      rw [hfst] at h
      cases hj : e.jobInState handle .queued with
      | error err => exact absurd h (by simp [hj, Except.map])
      | ok live =>
        obtain ⟨k, hkey, hlive, -⟩ := find?_of_jobInState hj
        obtain rfl : live.job.key = k := he.key_eq hlive
        exact ⟨live.job.key, hkey, (he.removal hl hq hj).2⟩ }

variable [RecordStore σ]

/-- Whatever was done to an engine that has started over an empty store, of which records may have
been lost, each call by a handle is answered by the state of the live job that has the handle. -/
theorem byHandle_performAll (settings : EngineSettings) {store : σ} (now : Int64)
    (newId : Nat → String) (isLinked : Bool) {ds : List (Deed σ)}
    (hempty : ∀ k, record? store k = none)
    (hread : ∀ s : σ, record? (JobStore.readAll s).2 = record? s)
    (hkept : ∀ change, .act (.alterStore change) ∈ ds → OnlyLoses change)
    (hroom : ds.countP Deed.submits < UInt64.size) (handle : String) :
    ((start settings store now newId isLinked).performAll ds).ByHandle handle := by
  have hfiled := Filed.start settings store now newId isLinked
  have htended := (unmanned_start settings store now newId isLinked).wakeful.toTended
  have hlast : (start settings store now newId isLinked).handles.last.toNat = 0 := rfl
  obtain ⟨haddressed, -⟩ := addressed_performAll hread hkept
    (addressed_start settings now newId isLinked hempty) hfiled (by omega)
  exact byHandle (hfiled.performAll ds) haddressed.indexed
    (tended_performAll htended ds).orderly handle

/-- Of two jobs one is worked on. It cannot be removed, nor can work on the other one end. A record
is lost on the way. -/
theorem byHandle_performAll_two_jobs :
    let ds : List (Deed MemoryStore) :=
      [.load, .act (.arrive "1.1.1.1:1"), .act (.connect 0), .act (.canDo 0 "f" none),
        .act (.submit (.new "f" "a" []) (some 0)), .act (.submit (.new "f" "b" []) (some 0)),
        .act (.grab 0), .act (.alterStore (·.erase ⟨"f", "b"⟩))]
    let e := (start EngineSettings.default MemoryStore.empty 0 decimal true).performAll ds
    e.ByHandle "H:localhost:1" ∧ e.ByHandle "H:localhost:2" ∧
      (e.remove "H:localhost:1").1 =
        .error (.illegalState "H:localhost:1" .queued .working) ∧
      (e.report "H:localhost:2" (.finish (.complete []))).1 =
        .error (.illegalState "H:localhost:2" .working .queued) ∧
      (e.report "H:localhost:1" (.data [1])).1 = .ok () ∧
      (e.remove "H:localhost:2").1 = .ok true ∧
      (e.remove "H:localhost:3").1 = .error (.jobNotFound "H:localhost:3") := by
  intro ds e
  have hkept : ∀ change, .act (.alterStore change) ∈ ds → OnlyLoses change := by
    intro change hmem s k j hj
    obtain rfl : change = (·.erase ⟨"f", "b"⟩) := by simpa [ds] using hmem
    have hj : (s.erase ⟨"f", "b"⟩).find? k = some j := hj
    rw [MemoryStore.find?_erase] at hj
    split at hj
    · exact absurd hj (by simp)
    · exact hj
  have hcall : ∀ handle, e.ByHandle handle :=
    byHandle_performAll EngineSettings.default 0 decimal true (fun _ => rfl) (fun _ => rfl) hkept
      (by decide)
  exact ⟨hcall _, hcall _, by decide +kernel, by decide +kernel, by decide +kernel,
    by decide +kernel, by decide +kernel⟩

end Engine

end JobBroker
