import JobBroker.Proofs.Engine.ByHandle
import JobBroker.Proofs.Engine.Statistics

/-!
# Admission

How a submission is answered is settled by what an engine holds when it comes: by the live job with
its key, else by how many jobs of its function are queued, else by what the store says to its
record. A submission that is refused changes nothing that anybody could see.

* `verdict` : the answer, from what the engine holds.
* `submit_cases` : what a submission does that no live job is in the way of.
* `within_of_ok` : a limit is kept when a job is let in.
* `ne_next_of_calls` : the next handle is that of no job so far.
* `ruled_performAll` : how every submission is answered, whatever was done before.
-/

namespace JobBroker

open Text (decimal)

open Function (update)
open RecordStore (record?)

/-- Why a record was not taken. -/
def enqueueReason : Except JobError Bool → String
  | .ok _ => "rejected by persistence engine"
  | .error err => err.message

/-- How a queue answers that has no job under the unique id. -/
theorem Queue.enqueue_of_contains_eq_false {σ : Type} [JobStore σ] {q : Queue} {j : Job}
    (h : q.contains j.uniqueId = false) (store : σ) : q.enqueue j store =
      if q.isFull then (.error (.queueFull q.functionName q.maxSize), q, store)
      else
        match JobStore.write j store with
        | (.ok true, store) => (.ok true, q.accept j.summary, store)
        | (reply, store) =>
          (.error (.enqueue q.functionName j.uniqueId (enqueueReason reply)), q, store) := by
  rw [enqueue, h, if_neg Bool.false_ne_true]
  rcases JobStore.write j store with ⟨_ | _ | _, store⟩ <;> rfl

theorem Queue.size_accept (q : Queue) (j : QueuedJob) : (q.accept j).size = q.size + 1 := by
  show (q.tally.add j.priority).total = q.tally.total + 1
  cases j.priority <;> simp only [Tally.add, Tally.total] <;> omega

namespace Engine

variable {σ : Type} {e : Engine σ} {j : Job} {f : String}

/-! ### Full queues -/

/-- The queue of a function has a limit, and no fewer jobs of the function are queued. -/
def Full (e : Engine σ) (f : String) : Prop :=
  0 < (e.workshop f).queue.maxSize ∧
    (e.workshop f).queue.maxSize ≤ e.countLive f (·.state = .queued)

instance (e : Engine σ) (f : String) : Decidable (e.Full f) := inferInstanceAs (Decidable (_ ∧ _))

theorem isFull_iff (he : e.Filed) (hqueue : (e.workshop f).queue.Orderly) :
    (e.workshop f).queue.isFull = true ↔ e.Full f := by
  have hsize : (e.workshop f).queue.jobs.size = e.countLive f (·.state = .queued) := by
    rw [← size_eq_countLive he hqueue]
    obtain ⟨r, hr⟩ := hqueue
    rw [hr.size_eq, Queue.toList, Table.values, List.length_map, Table.size]
  rw [Queue.isFull, hsize, Bool.and_eq_true, decide_eq_true_eq, decide_eq_true_eq, Full]

/-! ### The verdict -/

/-- The job as it is let in, whatever it held of a handle, a state and progress. -/
def admitted (e : Engine σ) (j : Job) : Job :=
  { j with handle := e.handles.next.1, state := .queued, numerator := 0, denominator := 0 }

/-- The engine when a submission is decided: the job has a unique id, and its function is known. -/
def prepared (e : Engine σ) (j : Job) : Engine σ :=
  { e.establish j.functionName with uniqueIds := (e.identify j).2.uniqueIds }

theorem establish_identify (e : Engine σ) (j : Job) :
    (e.identify j).2.establish (e.identify j).1.functionName = e.prepared j := by
  unfold prepared identify
  split <;> rfl

theorem workshop_prepared (e : Engine σ) (j : Job) (g : String) :
    (e.prepared j).workshop g = e.workshop g :=
  workshop_establish e j.functionName g

theorem core_prepared (e : Engine σ) (j : Job) : (e.prepared j).core = e.core :=
  core_establish e j.functionName

theorem Filed.prepared (he : e.Filed) (j : Job) : (e.prepared j).Filed :=
  { core_prepared e j ▸ he.toFiled with
    known := fun hk => isSome_establish_of_isSome (he.known hk) j.functionName }

variable [JobStore σ] {client : Option SessionId}

/-- The answer to the submission of a job that has a unique id. -/
def verdict (e : Engine σ) (j : Job) : Except JobError Job :=
  match e.live.find? j.key with
  | some live => .ok live.job
  | none =>
    if e.Full j.functionName then
      .error (.queueFull j.functionName (e.workshop j.functionName).queue.maxSize)
    else
      match (JobStore.write (e.admitted j) e.store).1 with
      | .ok true => .ok (e.admitted j)
      | .ok false => .error (.enqueue j.functionName j.uniqueId "rejected by persistence engine")
      | .error err => .error (.enqueue j.functionName j.uniqueId err.message)

theorem submit_eq (e : Engine σ) (j : Job) (client : Option SessionId) : e.submit j client =
    match e.live.find? (e.identify j).1.key with
    | some live => (.ok live.job, (e.prepared j).await (e.identify j).1 client)
    | none => (e.prepared j).letIn (e.identify j).1 client := by
  unfold submit
  dsimp only
  rw [establish_identify]
  rfl

/-- A job that its queue does not take changes nothing but the handles and the store. -/
theorem letIn_of_error {err : JobError} {store : σ} (client : Option SessionId)
    (h : (e.workshop j.functionName).queue.enqueue (e.admitted j) e.store =
      (.error err, (e.workshop j.functionName).queue, store)) :
    e.letIn j client = (.error err, { e with handles := e.handles.next.2, store }) := by
  obtain ⟨j₁, hj₁⟩ : ∃ j₁, ({ j.renewed with handle := e.handles.next.1 } : Job) = j₁ := ⟨_, rfl⟩
  have henqueue : (e.workshop j₁.functionName).queue.enqueue j₁ e.store =
      (.error err, (e.workshop j₁.functionName).queue, store) := hj₁ ▸ h
  have hself := setQueue_self e j₁.functionName
  subst hj₁
  simp only [letIn, henqueue, hself]

theorem letIn_of_ok {q : Queue} {store : σ} (client : Option SessionId)
    (h : (e.workshop j.functionName).queue.enqueue (e.admitted j) e.store = (.ok true, q, store)) :
    (e.letIn j client).1 = .ok (e.admitted j) := by
  obtain ⟨j₁, hj₁⟩ : ∃ j₁, ({ j.renewed with handle := e.handles.next.1 } : Job) = j₁ := ⟨_, rfl⟩
  have henqueue : (e.workshop j₁.functionName).queue.enqueue j₁ e.store = (.ok true, q, store) :=
    hj₁ ▸ h
  subst hj₁
  simp only [letIn, henqueue]
  rfl

section Decided

variable (he : e.Filed) (hnamed : e.core.Named)
  (hqueue : (e.workshop j.functionName).queue.Orderly) (hnew : e.live.find? j.key = none)
include he hnamed hqueue hnew

/-- How its queue answers a job that no live job is in the way of. -/
theorem enqueue_admitted : (e.workshop j.functionName).queue.enqueue (e.admitted j) e.store =
    let q := (e.workshop j.functionName).queue
    if e.Full j.functionName then (.error (.queueFull j.functionName q.maxSize), q, e.store)
    else
      match JobStore.write (e.admitted j) e.store with
      | (.ok true, store) => (.ok true, q.accept (e.admitted j).summary, store)
      | (reply, store) =>
        (.error (.enqueue j.functionName j.uniqueId (enqueueReason reply)), q, store) := by
  have hname : (e.workshop j.functionName).queue.functionName = j.functionName := hnamed _
  have hfind : (e.workshop j.functionName).queue.find? j.uniqueId = none :=
    (he.find?_eq _ _).trans <|
      Option.bind_eq_none_iff.mpr fun live hlive => absurd (hnew.symm.trans hlive) (by simp)
  have hcontains : (e.workshop j.functionName).queue.contains (e.admitted j).uniqueId = false :=
    congrArg Option.isSome hfind
  rw [Queue.enqueue_of_contains_eq_false hcontains, hname]
  simp only [isFull_iff he hqueue]
  rfl

theorem letIn_of_full (hfull : e.Full j.functionName) (client : Option SessionId) :
    e.letIn j client =
      (.error (.queueFull j.functionName (e.workshop j.functionName).queue.maxSize),
        { e with handles := e.handles.next.2 }) := by
  have henqueue := enqueue_admitted he hnamed hqueue hnew
  rw [if_pos hfull] at henqueue
  exact letIn_of_error client henqueue

theorem letIn_of_declined (hfull : ¬ e.Full j.functionName) {reply : Except JobError Bool}
    {store : σ} (hwrite : JobStore.write (e.admitted j) e.store = (reply, store))
    (hreply : reply ≠ .ok true) (client : Option SessionId) :
    e.letIn j client = (.error (.enqueue j.functionName j.uniqueId (enqueueReason reply)),
      { e with handles := e.handles.next.2, store }) := by
  have henqueue := enqueue_admitted he hnamed hqueue hnew
  rw [if_neg hfull, hwrite] at henqueue
  rcases reply with _ | _ | _
  · exact letIn_of_error client henqueue
  · exact letIn_of_error client henqueue
  · exact absurd rfl hreply

theorem letIn_of_written (hfull : ¬ e.Full j.functionName) {store : σ}
    (hwrite : JobStore.write (e.admitted j) e.store = (.ok true, store))
    (client : Option SessionId) : (e.letIn j client).1 = .ok (e.admitted j) := by
  have henqueue := enqueue_admitted he hnamed hqueue hnew
  rw [if_neg hfull, hwrite] at henqueue
  exact letIn_of_ok client henqueue

end Decided

/-! ### Submissions -/

/-- What a refused submission leaves: a handle and perhaps a made-up unique id are used up, and the
function is known. All else is as before, but for what the store notes of a record that it has not
taken. -/
structure Spurned [RecordStore σ] (e : Engine σ) (j : Job) (e' : Engine σ) : Prop where
  eq : e' = { e.establish j.functionName with
    handles := e.handles.next.2
    uniqueIds := (e.identify j).2.uniqueIds
    store := e'.store }
  workshop_eq : ∀ g, e'.workshop g = e.workshop g
  record?_eq : record? e'.store = record? e.store

/-- How a submission is answered, and what it does to the jobs. -/
structure Ruled [RecordStore σ] (e : Engine σ) (j : Job) (client : Option SessionId) : Prop where
  answer : (e.submit j client).1 = e.verdict (e.identify j).1
  not_internal : ∀ text, (e.submit j client).1 ≠ .error (.internal text)
  spurned : ∀ err, (e.submit j client).1 = .error err → e.Spurned j (e.submit j client).2
  store_of_full : ∀ g n, (e.submit j client).1 = .error (.queueFull g n) →
    (e.submit j client).2.store = e.store
  admitted : ∀ j', (e.submit j client).1 = .ok j' → e.live.find? (e.identify j).1.key = none →
    (e.submit j client).2.live.find? j'.key = some ⟨j', none⟩ ∧
      record? (e.submit j client).2.store = update (record? e.store) j'.key (some j')
  within : ∀ j', (e.submit j client).1 = .ok j' → e.live.find? (e.identify j).1.key = none →
    let queue := ((e.submit j client).2.workshop j.functionName).queue
    queue.maxSize = (e.workshop j.functionName).queue.maxSize ∧ (0 < queue.maxSize →
      (e.submit j client).2.countLive j.functionName (·.state = .queued) ≤ queue.maxSize)

section Ruled

variable (he : e.Filed) (hnamed : e.core.Named) (htended : e.watch.Tended)
include he hnamed htended

/-- A submission that no live job is in the way of, by how full its queue is and by what the store
says. -/
theorem submit_cases (j : Job) (client : Option SessionId)
    (hnew : e.live.find? (e.identify j).1.key = none) :
    e.Full j.functionName ∧ e.submit j client =
        (.error (.queueFull j.functionName (e.workshop j.functionName).queue.maxSize),
          { e.prepared j with handles := e.handles.next.2 }) ∨
      ¬ e.Full j.functionName ∧ ∃ reply store,
        JobStore.write (e.admitted (e.identify j).1) e.store = (reply, store) ∧
          (reply = .ok true ∧ (e.submit j client).1 = .ok (e.admitted (e.identify j).1) ∨
            reply ≠ .ok true ∧ e.submit j client =
              (.error (.enqueue j.functionName (e.identify j).1.uniqueId (enqueueReason reply)),
                { e.prepared j with handles := e.handles.next.2, store })) := by
  have hname := functionName_identify e j
  have hnamed : (e.prepared j).core.Named := (core_prepared e j).symm ▸ hnamed
  have hqueue : ((e.prepared j).workshop (e.identify j).1.functionName).queue.Orderly := by
    rw [workshop_prepared]
    exact htended.orderly _
  have hfull : (e.prepared j).Full (e.identify j).1.functionName ↔ e.Full j.functionName := by
    rw [hname, Full, workshop_prepared]
    rfl
  rw [submit_eq, hnew]
  dsimp only
  by_cases h : e.Full j.functionName
  · refine .inl ⟨h, ?_⟩
    rw [letIn_of_full (he.prepared j) hnamed hqueue hnew (hfull.mpr h) client, hname,
      workshop_prepared]
    rfl
  · refine .inr ⟨h, ?_⟩
    rcases hwrite : JobStore.write (e.admitted (e.identify j).1) e.store with ⟨reply, store⟩
    refine ⟨reply, store, rfl, ?_⟩
    by_cases hreply : reply = .ok true
    · subst hreply
      exact .inl ⟨rfl, letIn_of_written (he.prepared j) hnamed hqueue hnew (h ∘ hfull.mp) hwrite
        client⟩
    · refine .inr ⟨hreply, ?_⟩
      rw [letIn_of_declined (he.prepared j) hnamed hqueue hnew (h ∘ hfull.mp) hwrite hreply client,
        hname]
      rfl

theorem submit_eq_verdict (j : Job) (client : Option SessionId) :
    (e.submit j client).1 = e.verdict (e.identify j).1 := by
  have hname := functionName_identify e j
  unfold verdict
  split
  · next live hlive => rw [submit_eq, hlive]
  · next hnew =>
    rcases submit_cases he hnamed htended j client hnew with
      ⟨hfull, hsubmit⟩ | ⟨hfull, reply, store, hwrite, ⟨rfl, hsubmit⟩ | ⟨hreply, hsubmit⟩⟩
    · rw [hsubmit, hname, if_pos hfull]
    · rw [hsubmit, hname, if_neg hfull, hwrite]
    · rw [hsubmit, hname, if_neg hfull, hwrite]
      rcases reply with _ | _ | _
      · rfl
      · rfl
      · exact absurd rfl hreply

/-- What a submission is refused for, and what it has done. -/
theorem submit_of_error {err : JobError} (h : (e.submit j client).1 = .error err) :
    (∃ n, err = .queueFull j.functionName n ∧
        (e.submit j client).2 = { e.prepared j with handles := e.handles.next.2 }) ∨
      ∃ reason reply store, err = .enqueue j.functionName (e.identify j).1.uniqueId reason ∧
        JobStore.write (e.admitted (e.identify j).1) e.store = (reply, store) ∧ reply ≠ .ok true ∧
        (e.submit j client).2 = { e.prepared j with handles := e.handles.next.2, store } := by
  cases hnew : e.live.find? (e.identify j).1.key with
  | some live =>
    rw [submit_eq, hnew] at h
    exact absurd h (by simp)
  | none =>
    rcases submit_cases he hnamed htended j client hnew with
      ⟨-, hsubmit⟩ | ⟨-, reply, store, hwrite, ⟨-, hsubmit⟩ | ⟨hreply, hsubmit⟩⟩
    · rw [hsubmit] at h ⊢
      exact .inl ⟨_, (Except.error.inj h).symm, rfl⟩
    · exact absurd (hsubmit.symm.trans h) (by simp)
    · rw [hsubmit] at h ⊢
      exact .inr ⟨_, reply, store, (Except.error.inj h).symm, hwrite, hreply, rfl⟩

/-- After a job was let in, no more jobs are queued than the limit of its queue allows. -/
theorem within_of_ok {j' : Job} (h : (e.submit j client).1 = .ok j')
    (hnew : e.live.find? (e.identify j).1.key = none) :
    let queue := ((e.submit j client).2.workshop j.functionName).queue
    queue.maxSize = (e.workshop j.functionName).queue.maxSize ∧ (0 < queue.maxSize →
      (e.submit j client).2.countLive j.functionName (·.state = .queued) ≤ queue.maxSize) := by
  intro queue
  obtain ⟨q, hq⟩ : ∃ q, (e.workshop j.functionName).queue = q := ⟨_, rfl⟩
  have hfull : ¬ e.Full j.functionName := by
    intro hfull
    rcases submit_cases he hnamed htended j client hnew with ⟨-, hsubmit⟩ | ⟨hnot, -⟩
    · exact absurd ((congrArg Prod.fst hsubmit).symm.trans h) (by simp)
    · exact hnot hfull
  have haccepted : ∃ i, queue = q.accept i := by
    have htaken := taken_submit e j client
    rw [h] at htaken
    generalize hcore : (e.submit j client).2.core = c' at htaken
    have hqueue : queue = c'.queues j.functionName := congrArg (·.queues j.functionName) hcore
    cases htaken with
    | joined hlive => exact absurd (hnew.symm.trans hlive) (by simp)
    | letIn _ hj _ =>
      have hname : j'.functionName = j.functionName := hj ▸ functionName_identify e j
      refine ⟨j'.summary, hqueue.trans ?_⟩
      show update e.core.queues j'.functionName _ j.functionName = _
      rw [hname, Function.update_self, ← hq]
      rfl
  obtain ⟨i, hi⟩ := haccepted
  have hmaxSize : queue.maxSize = q.maxSize := hi ▸ rfl
  refine ⟨hmaxSize.trans (hq ▸ rfl), fun hpos => ?_⟩
  have hafter := size_eq_countLive (f := j.functionName) (he.act (.submit j client))
    ((tended_act htended (.submit j client)).orderly j.functionName)
  have hbefore := size_eq_countLive he (htended.orderly j.functionName)
  have hsize : queue.size = q.size + 1 := hi ▸ Queue.size_accept q i
  have hroom : q.size < q.maxSize := by
    by_contra hle
    refine hfull ⟨?_, ?_⟩
    · rw [hq]
      omega
    · rw [← hbefore]
      show (e.workshop j.functionName).queue.maxSize ≤ (e.workshop j.functionName).queue.size
      rw [hq]
      omega
  show (e.act (.submit j client)).countLive j.functionName (·.state = .queued) ≤ queue.maxSize
  rw [← hafter]
  show queue.size ≤ queue.maxSize
  omega

theorem ruled [RecordStore σ] (j : Job) (client : Option SessionId) : e.Ruled j client where
  answer := submit_eq_verdict he hnamed htended j client
  not_internal := by
    intro text h
    rcases submit_of_error he hnamed htended h with ⟨n, herr, -⟩ | ⟨reason, _, _, herr, -⟩
    · exact absurd herr (by simp)
    · exact absurd herr (by simp)
  spurned := by
    intro err h
    rcases submit_of_error he hnamed htended h with
      ⟨n, -, hsubmit⟩ | ⟨reason, reply, store, -, hwrite, hreply, hsubmit⟩
    · rw [hsubmit]
      exact ⟨rfl, workshop_prepared e j, rfl⟩
    · rw [hsubmit]
      exact ⟨rfl, workshop_prepared e j, RecordStore.record?_write_of_ne hwrite hreply⟩
  store_of_full := by
    intro g n h
    rcases submit_of_error he hnamed htended h with ⟨m, -, hsubmit⟩ | ⟨reason, _, _, herr, -⟩
    · rw [hsubmit]
      rfl
    · exact absurd herr (by simp)
  admitted := by
    intro j' h hnew
    have htaken := taken_submit e j client
    rw [h] at htaken
    generalize hcore : (e.submit j client).2.core = c' at htaken
    rw [show (e.submit j client).2.live = c'.live from congrArg Core.live hcore,
      show (e.submit j client).2.store = c'.store from congrArg Core.store hcore]
    cases htaken with
    | joined hlive => exact absurd (hnew.symm.trans hlive) (by simp)
    | letIn _ _ hwrite => exact ⟨by simp, RecordStore.record?_write hwrite⟩
  within := fun j' h hnew => within_of_ok he hnamed htended h hnew

end Ruled

/-! ### Fresh handles -/

/-- Handles are given out by submissions only. -/
theorem handles_of_not_submits {a : Action σ} (ha : (Deed.act a).submits = false) :
    (e.act a).handles = e.handles := by
  by_cases halter : ∃ change, a = .alterStore change
  · obtain ⟨change, rfl⟩ := halter
    rfl
  · have hshifts := shifts_of_no_submission e (fun change h => halter ⟨change, h⟩)
      fun j client h => absurd ha (by simp [h, Deed.submits])
    exact Core.handles_eq_of_shifts hshifts

variable [RecordStore σ]

theorem passed_of_calls (he : e.core.Addressed) {k : JobKey} {handle : String}
    (h : e.core.Calls k handle) : e.handles.Passed handle := by
  obtain ⟨n, hle, rfl⟩ := he.issued h
  exact fun m hm => Handle.render_injective hm ▸ hle

/-- A handle that was passed stays so. -/
theorem passed_performAll (hread : ∀ s : σ, record? (JobStore.readAll s).2 = record? s)
    {ds : List (Deed σ)} (hkept : ∀ change, .act (.alterStore change) ∈ ds → OnlyLoses change)
    (he : e.core.Addressed) (hf : e.Filed)
    (hroom : e.handles.last.toNat + ds.countP Deed.submits < UInt64.size) {handle : String}
    (hp : e.handles.Passed handle) : (e.performAll ds).handles.Passed handle := by
  induction ds generalizing e with
  | nil => exact hp
  | cons d ds ih =>
    rw [List.countP_cons] at hroom
    obtain ⟨hcore, hlast⟩ := addressed_perform hread he hf
      (fun change h => hkept change (h ▸ List.mem_cons_self)) (d := d) (by omega)
    refine ih (fun change h => hkept change (List.mem_cons_of_mem d h)) hcore (hf.perform d)
      (by omega) ?_
    cases d with
    | load => exact (addressed_load hread he).2.symm ▸ hp
    | act a =>
      cases ha : (Deed.act a).submits with
      | false => exact (handles_of_not_submits ha).symm ▸ hp
      | true =>
        rw [ha, if_pos rfl] at hroom
        rcases handles_act e a with hsame | hnext
        · exact hsame.symm ▸ hp
        · exact hnext.symm ▸ hp.next (by omega)

/-- Records come and go by the engine's own doing, but for some that may be lost, and handles do
not run out. -/
structure Alone (store : σ) (ds : List (Deed σ)) : Prop where
  empty : ∀ k, record? store k = none
  read : ∀ s : σ, record? (JobStore.readAll s).2 = record? s
  kept : ∀ change, .act (.alterStore change) ∈ ds → OnlyLoses change
  room : ds.countP Deed.submits + 1 < UInt64.size

/-- No job, live or on record, has ever had the next handle. -/
theorem ne_next_of_calls (settings : EngineSettings) {store : σ} (now : Int64)
    (newId : Nat → String) (isLinked : Bool) {past later : List (Deed σ)}
    (h : Alone store (past ++ later)) {k : JobKey} {handle : String}
    (hcalls : ((start settings store now newId isLinked).performAll past).core.Calls k handle) :
    handle ≠
      ((start settings store now newId isLinked).performAll (past ++ later)).handles.next.1 := by
  obtain ⟨e₀, he₀⟩ : ∃ e₀, start settings store now newId isLinked = e₀ := ⟨_, rfl⟩
  have hroom := h.room
  rw [List.countP_append] at hroom
  have hfiled : e₀.Filed := he₀ ▸ Filed.start settings store now newId isLinked
  have hlast : e₀.handles.last.toNat = 0 := he₀ ▸ rfl
  have haddressed : e₀.core.Addressed := he₀ ▸ addressed_start settings now newId isLinked h.empty
  obtain ⟨hpast, hlastPast⟩ := addressed_performAll h.read
    (fun change (hc : .act (.alterStore change) ∈ past) =>
      h.kept change (List.mem_append_left later hc)) haddressed hfiled (by omega)
  have hkept : ∀ change, .act (.alterStore change) ∈ later → OnlyLoses change := fun change hc =>
    h.kept change (List.mem_append_right past hc)
  obtain ⟨-, hlastLater⟩ := addressed_performAll h.read hkept hpast (hfiled.performAll past)
    (by omega)
  rw [he₀] at hcalls ⊢
  have hpassed := passed_performAll h.read hkept hpast (hfiled.performAll past) (by omega)
    (passed_of_calls hpast hcalls)
  rw [performAll, List.foldl_append]
  exact hpassed.ne_next (by omega)

/-- Whatever was done to an engine since it started: the answer to a submission follows from what
the engine holds, a refusal changes nothing, and the handle of a job that is let in is one that no
job has ever had. -/
theorem ruled_performAll (settings : EngineSettings) (store : σ) (now : Int64)
    (newId : Nat → String) (isLinked : Bool) (ds : List (Deed σ)) (j : Job)
    (client : Option SessionId) :
    let e := (start settings store now newId isLinked).performAll ds
    e.Ruled j client ∧ (Alone store ds → ∀ past later, ds = past ++ later → ∀ k handle,
      ((start settings store now newId isLinked).performAll past).core.Calls k handle →
        handle ≠ (e.admitted (e.identify j).1).handle) := by
  intro e
  have hfiled := (Filed.start settings store now newId isLinked).performAll ds
  have hnamed := named_performAll (e := start settings store now newId isLinked) (fun _ => rfl) ds
  have htended := (unmanned_start settings store now newId isLinked).wakeful.toTended
  refine ⟨ruled hfiled hnamed (tended_performAll htended ds) j client, ?_⟩
  rintro halone past later rfl k handle hcalls
  exact ne_next_of_calls settings now newId isLinked halone hcalls

/-- A job that comes back goes into a queue that is full already, and nothing is let in behind it.
When there is room, a record may still be refused or declined. -/
theorem ruled_performAll_requeued :
    let plan : Nat → Option Fault :=
      fun n => if n = 3 then some .refuse else if n = 4 then some .decline else none
    let ds : List (Deed UnreliableStore) :=
      [.act (.setMaxQueue "f" 1), .act (.arrive "1.1.1.1:1"), .act (.connect 0),
        .act (.canDo 0 "f" none), .act (.submit (.new "f" "a" []) none), .act (.grab 0),
        .act (.submit (.new "f" "b" []) none), .act (.disconnect 0)]
    let full :=
      (start EngineSettings.default (UnreliableStore.new plan) 0 decimal true).performAll ds
    let room := [.setMaxQueue "f" 3, .submit (.new "f" "c" []) none].foldl act full
    let c := { Job.new "f" "c" [] with
      handle := "H:localhost:1", state := .working, numerator := 7 }
    Alone (UnreliableStore.new plan) ds ∧ full.Ruled c none ∧
      full.core.Calls ⟨"f", "a"⟩ "H:localhost:1" ∧
      (full.admitted (full.identify c).1).handle ≠ "H:localhost:1" ∧
      (full.submit c none).1 = .error (.queueFull "f" 1) ∧
      (room.submit c none).1 = .error (.enqueue "f" "c" "rejected by persistence engine") ∧
      ((room.submit c none).2.submit c none).1 =
        .ok { Job.new "f" "c" [] with handle := "H:localhost:5" } := by
  intro plan ds full room c
  have halone : Alone (UnreliableStore.new plan) ds :=
    ⟨fun _ => rfl, fun s => congrArg MemoryStore.find? (UnreliableStore.records_readAll s),
      by simp [ds], by decide⟩
  have hcalls : full.core.Calls ⟨"f", "a"⟩ "H:localhost:1" :=
    ⟨{ Job.new "f" "a" [] with handle := "H:localhost:1" }, .inl (by decide +kernel), rfl⟩
  obtain ⟨hruled, hfresh⟩ :=
    ruled_performAll EngineSettings.default (UnreliableStore.new plan) 0 decimal true ds c none
  exact ⟨halone, hruled, hcalls,
    (hfresh halone ds [] (List.append_nil ds).symm ⟨"f", "a"⟩ _ hcalls).symm, by decide +kernel,
    by decide +kernel, by decide +kernel⟩

end Engine

end JobBroker
