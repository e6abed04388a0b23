import JobBroker.Proofs.Broker.Episodes

/-!
# What is handed in is handed on

A job goes from the packet that submits it through the store and the queue, perhaps to another
broker that takes up the store, and at last to the worker that it is assigned to. What a worker
reports on it goes through the outboxes of clients. Neither is changed on the way.

* `Broker.FirstAnswered` : the submission that was the first to be answered with a handle.
* `Traced` : jobs are as they were submitted, and what is in the outboxes as it was reported.
* `faithful_passAll` : so is what is written.
-/

namespace JobBroker

open RecordStore (record?)

/-! ### What packets carry -/

namespace Body

/-- The handle of the job that a packet assigns to a worker. -/
def assigned? : Body → Option String
  | .jobAssign handle _ _ | .jobAssignUniq handle _ _ _
  | .jobAssignAll handle _ _ _ _ => some handle
  | _ => none

/-- The handle of the job that a packet brings data about, and the data. -/
def report? : Body → Option (String × Bytes)
  | .workData handle data | .workWarning handle data | .workComplete handle data
  | .workException handle data => some (handle, data)
  | _ => none

/-- The packet assigns a job under a handle, with all that its layout has of the job. -/
inductive Assigns (handle : String) (j : Job) : Body → Prop
  | plain : Assigns handle j (.jobAssign handle j.functionName j.data)
  | unique : Assigns handle j (.jobAssignUniq handle j.functionName j.uniqueId j.data)
  | all : Assigns handle j
    (.jobAssignAll handle j.functionName j.uniqueId (j.reducer.getD "") j.data)

end Body

/-- Two jobs ask for the same work. -/
structure Job.SameWork (j i : Job) : Prop where
  functionName : j.functionName = i.functionName
  uniqueId : j.uniqueId = i.uniqueId
  data : j.data = i.data
  reducer : j.reducer = i.reducer

theorem Grab.assigned?_assignment (g : Grab) (j : Job) :
    (g.assignment j).assigned? = some j.handle := by
  cases g <;> rfl

theorem Job.SameWork.assigns {j i : Job} (h : j.renewed.SameWork i) (g : Grab) :
    (g.assignment j).Assigns j.handle i := by
  have hfunction : j.functionName = i.functionName := h.functionName
  have hunique : j.uniqueId = i.uniqueId := h.uniqueId
  have hdata : j.data = i.data := h.data
  have hreducer : j.reducer = i.reducer := h.reducer
  cases g with
  | plain =>
    simp only [Grab.assignment, hfunction, hdata]
    exact .plain
  | unique =>
    simp only [Grab.assignment, hfunction, hunique, hdata]
    exact .unique
  | all =>
    simp only [Grab.assignment, hfunction, hunique, hreducer, hdata]
    exact .all

/-- The exchange answers with a handle. -/
def Exchange.Creates (handle : String) : Exchange → Prop
  | answered _ _ reply => .packet (.response (.jobCreated handle)) ∈ reply
  | pushed _ _ => False

variable {σ : Type}

/-- Data for clients comes with what happens: a worker reports it in a packet of its own, or another
broker has told it. -/
inductive Happening.Reports : Happening σ → Body → Prop
  | read (id : SessionId) (body : Body) : Reports (.read id (.frame (.packet (.request body)))) body
  | hear (event : PeerEvent) {handle : String} {body : Body} :
    body.report? = some (handle, event.data) → Reports (.hear event) body

/-- The packet assigns no job, and brings only data that comes with what happens. -/
structure Happening.Fits (x : Happening σ) (p : Packet) : Prop where
  assigned? : p.body.assigned? = none
  reports : p.body.report?.isSome → x.Reports p.body

/-! ### Where jobs and reports come from -/

variable [JobStore σ]

namespace Broker

/-- The first submission that is answered with the handle is that of `j`, which has a unique id that
was made up for it if it came without one. -/
def FirstAnswered (b : Broker σ) (es : List (Episode σ)) (handle : String) (j : Job) : Prop :=
  ∃ past id event i later, es = past ++ .happen (.read id event) :: later ∧
    event.submission? = some i ∧ j = ((b.passAll past).2.engine.identify i).1 ∧
    (∃ y ∈ ((b.passAll past).2.happen (.read id event)).1, y.Creates handle) ∧
    ∀ y ∈ (b.passAll past).1, ¬ y.Creates handle

/-- The job asks for the work of the submission that was the first to be answered with its
handle. -/
def Submitted (b : Broker σ) (es : List (Episode σ)) (j : Job) : Prop :=
  j.handle ≠ "" ∧ ∃ i, b.FirstAnswered es j.handle i ∧ j.SameWork i

/-- Since the last start something has happened that put a packet into the outbox of a session, and
brought what is in the packet. -/
def Reported (b : Broker σ) (es : List (Episode σ)) (id : SessionId) (p : Packet) : Prop :=
  ∃ past x later, es = past ++ (x :: later).map .happen ∧ (b.passAll past).2.Puts x id p ∧
    x.Reports p.body

/-- Jobs and reports on them are written as they were read. -/
structure Faithful (b : Broker σ) (es : List (Episode σ)) : Prop where
  assigned : ∀ past x later, es = past ++ x :: later → ∀ y ∈ ((b.passAll past).2.pass x).1,
    ∀ p, .packet p ∈ y.frames → ∀ handle, p.body.assigned? = some handle →
      ∃ j, b.FirstAnswered past handle j ∧ p.body.Assigns handle j
  /-- What is put into outboxes about the report of a worker. -/
  put : ∀ past w body later,
    es = past ++ .happen (.read w (.frame (.packet (.request body)))) :: later →
    ∀ id p, (b.passAll past).2.Puts (.read w (.frame (.packet (.request body)))) id p →
      p.body.report?.isSome → p.body = body
  reported : ∀ past x later, es = past ++ x :: later → ∀ y ∈ ((b.passAll past).2.pass x).1,
    ∀ p, .packet p ∈ y.frames → p.body.report?.isSome →
      ∃ id, y = .pushed id p ∧ b.Reported past id p

variable {b : Broker σ} {es : List (Episode σ)} {x : Happening σ} {y : Exchange}

theorem FirstAnswered.mono {handle : String} {j : Job} (h : b.FirstAnswered es handle j)
    (fs : List (Episode σ)) : b.FirstAnswered (es ++ fs) handle j := by
  obtain ⟨past, id, event, i, later, rfl, h⟩ := h
  exact ⟨past, id, event, i, later ++ fs, by simp, h⟩

/-- What was first answered with a handle was answered with it. -/
theorem FirstAnswered.exists_creates {handle : String} {j : Job} (h : b.FirstAnswered es handle j) :
    ∃ y ∈ (b.passAll es).1, y.Creates handle := by
  obtain ⟨past, id, event, i, later, rfl, -, -, ⟨y, hy, hcreates⟩, -⟩ := h
  refine ⟨y, ?_, hcreates⟩
  rw [passAll_append]
  exact List.mem_append_right _ (List.mem_append_left _ hy)

theorem Submitted.mono {j : Job} (h : b.Submitted es j) (fs : List (Episode σ)) :
    b.Submitted (es ++ fs) j := by
  obtain ⟨hne, i, hi, hsame⟩ := h
  exact ⟨hne, i, hi.mono fs, hsame⟩

theorem Reported.happen {id : SessionId} {p : Packet} (h : b.Reported es id p)
    (x : Happening σ) : b.Reported (es ++ [.happen x]) id p := by
  obtain ⟨past, y, later, rfl, h⟩ := h
  exact ⟨past, y, later ++ [x], by simp, h⟩

end Broker

/-! ### What is put into outboxes -/

omit [JobStore σ] in
theorem Packet.Bare.fits {p : Packet} (h : p.Bare) (x : Happening σ) : x.Fits p := by
  cases h with
  | noop => exact ⟨rfl, nofun⟩
  | workFail handle => exact ⟨rfl, nofun⟩

namespace Engine

variable {e : Engine σ} {id : SessionId} {a : Action σ} {x : Happening σ} {p : Packet}

/-- Jobs are assigned in reply to whoever asks for one. -/
theorem Replies.nextJob_of_assigned {body b : Body} (h : e.Replies id body b) {handle : String}
    (hb : b.assigned? = some handle) :
    ∃ (g : Grab) (j : Job), (e.nextJob id).1 = some j ∧ b = g.assignment j := by
  cases h with
  | assigned g hj => exact ⟨g, _, hj, rfl⟩
  | _ => exact nomatch hb

theorem Replies.report?_eq_none {body b : Body} (h : e.Replies id body b) : b.report? = none := by
  cases h with
  | assigned g _ => cases g <;> rfl
  | _ => rfl

omit [JobStore σ] in
/-- What an action tells about a request is no data, or the request itself. -/
theorem Tells.fits_of_request {body : Body} (ha : body.action? id = some a) (h : e.Tells a p) :
    (Happening.read id (.frame (.packet (.request body))) : Happening σ).Fits p := by
  have hself : ∀ {body' : Body}, body' = body → body.assigned? = none →
      (Happening.read id (.frame (.packet (.request body))) : Happening σ).Fits
        (.response body') := by
    rintro _ rfl hassigned
    exact ⟨hassigned, fun _ => .read id _⟩
  have hbare : (∀ q : Packet, e.Tells a q → q.Bare) →
      (Happening.read id (.frame (.packet (.request body))) : Happening σ).Fits p := fun hbare =>
    (hbare p h).fits _
  cases body with
  | workData | workWarning | workComplete =>
    obtain rfl := Option.some.inj ha
    cases h with
    | bare h => exact h.fits _
    | _ => exact hself rfl rfl
  | workStatus | workFail =>
    obtain rfl := Option.some.inj ha
    cases h with
    | bare h => exact h.fits _
    | _ => exact ⟨rfl, fun h => absurd h Bool.false_ne_true⟩
  | workException handle data =>
    obtain rfl := Option.some.inj ha
    cases h with
    | bare h => exact h.fits _
    | finish _ _ s =>
      simp only [Outcome.packet]
      split
      · exact hself rfl rfl
      · exact ⟨rfl, fun h => absurd h Bool.false_ne_true⟩
  | optionReq option =>
    simp only [Body.action?] at ha
    split at ha
    · obtain rfl := Option.some.inj ha
      exact hbare fun q hq => by cases hq; assumption
    · cases ha
  | submitJob | submitJobEpoch | submitReduceJob | canDo | canDoTimeout | cantDo | resetAbilities
  | preSleep | grabJob | grabJobUniq | grabJobAll | setClientId =>
    obtain rfl := Option.some.inj ha
    exact hbare fun q hq => by cases hq; assumption
  | _ => cases ha

omit [JobStore σ] in
theorem Tells.fits_of_causes (hcauses : x.Causes a) (h : e.Tells a p) : x.Fits p := by
  cases hcauses with
  | react ha =>
    rcases Event.request_of_action ha with ⟨body, rfl, ha⟩ | ⟨f, size, rfl⟩
    · exact h.fits_of_request ha
    · cases h with
      | bare h => exact h.fits _
  | hear event =>
    cases h with
    | bare h => exact h.fits _
    | heard | settled => exact ⟨rfl, fun _ => .hear event rfl⟩
  | _ =>
    cases h with
    | bare h => exact h.fits _

end Engine

omit [JobStore σ] in
theorem Happening.Tells.fits {x : Happening σ} {p : Packet} (h : x.Tells p) : x.Fits p :=
  let ⟨_, _, hcauses, htells⟩ := h
  htells.fits_of_causes hcauses

namespace Broker

variable {b : Broker σ} {x : Happening σ} {id : SessionId} {p : Packet}

/-- What is put into outboxes about a request, if it is data, is the request. -/
theorem Puts.body_eq {w : SessionId} {body : Body}
    (h : b.Puts (.read w (.frame (.packet (.request body)))) id p)
    (hreport : p.body.report?.isSome) : p.body = body := by
  obtain ⟨ps, hps, hp⟩ := h
  obtain ⟨ps', hps', htells⟩ := posts_happen (b := b)
    (x := .read w (.frame (.packet (.request body)))) nofun nofun id
  obtain rfl := List.append_cancel_left (hps.symm.trans hps')
  have hreports := (htells p hp).fits.reports hreport
  generalize p.body = body' at hreports
  cases hreports
  rfl

/-! ### Jobs -/

section Jobs

variable [RecordStore σ]

/-- Each job is that of the submission that was the first to be answered with its handle, and what
is in the outboxes was reported. -/
structure Traced (b : Broker σ) (es : List (Episode σ)) : Prop where
  jobs : (b.passAll es).2.engine.core.Holds (b.Submitted es)
  /-- Whatever else is answered with a handle has joined a job. -/
  admitted : ∀ {y handle}, y ∈ (b.passAll es).1 → y.Creates handle → handle ∈ b.admitted es
  mail : ∀ {id p}, p ∈ (b.passAll es).2.engine.outbox id →
    p.body.assigned? = none ∧ (p.body.report?.isSome → b.Reported es id p)

namespace Traced

variable {es : List (Episode σ)} {y : Exchange} {handle : String}

theorem jobs_happen (h : Traced b es) (halter : ∀ change, x ≠ .alterStore change)
    (hnodup : (b.admitted (es ++ [.happen x])).Nodup) :
    ((b.passAll es).2.happen x).2.engine.core.Holds (b.Submitted (es ++ [.happen x])) := by
  refine holds_happen (h.jobs.mono fun _ hj => hj.mono _) halter ?_
  rintro id event j handle rfl hj hnext hletIn hanswer
  -- a handle that was answered before was let in before, so this is the first answer with it
  have hnew : handle ∉ b.admitted es := fun hold => by
    rw [admitted_append] at hnodup
    refine (List.nodup_append.mp hnodup).2.2 handle hold handle ?_ rfl
    simp [Broker.admitted, hletIn]
  refine ⟨hnext ▸ Handle.render_ne_empty _ _, ((b.passAll es).2.engine.identify j).1, ?_,
    ⟨rfl, rfl, rfl, rfl⟩⟩
  refine ⟨es, id, event, j, [], rfl, hj, rfl, ⟨_, hanswer, List.mem_singleton_self _⟩, ?_⟩
  exact fun y hy hcreates => hnew (h.admitted hy hcreates)

theorem admitted_happen (h : Traced b es) (hy : y ∈ ((b.passAll es).2.happen x).1)
    (hcreates : y.Creates handle) : handle ∈ b.admitted (es ++ [.happen x]) := by
  rw [admitted_append]
  rcases mem_happen hy with ⟨id, event, rfl, hid, rfl⟩ | ⟨id, p, ps, -, -, rfl⟩
  · rcases Engine.mem_reply hcreates with ⟨body, b', rfl, hb', hanswer⟩ | ⟨err, -, hp⟩
    · obtain rfl := (Packet.mk.inj hb').2
      obtain ⟨j, j', hj, hok, rfl⟩ := (Engine.replies_answer hanswer).submit_of_created rfl
      have htaken := Engine.taken_submit (b.passAll es).2.engine j
        (if j.background then none else some id)
      rw [hok] at htaken
      rcases htaken.joined_or_free with ⟨live, hlive, rfl⟩ | hfree
      · -- the handle of the job that is joined was answered when that job was let in
        obtain ⟨-, i, hfirst, -⟩ := h.jobs.of_find? hlive
        obtain ⟨y, hy, hcreates⟩ := hfirst.exists_creates
        exact List.mem_append_left _ (h.admitted hy hcreates)
      · have hevent : (Event.frame (.packet (.request body))).submission? = some j := hj
        have hletIn := admission?_of_submit hid hevent hfree hok
        refine List.mem_append_right _ ?_
        simp [Broker.admitted, hletIn]
    · cases hp
  · exact hcreates.elim

theorem mail_happen (h : Traced b es) (hp : p ∈ ((b.passAll es).2.happen x).2.engine.outbox id) :
    p.body.assigned? = none ∧
      (p.body.report?.isSome → b.Reported (es ++ [.happen x]) id p) := by
  rcases mem_outbox_happen hp with hp | ⟨hputs, htells⟩
  · obtain ⟨hassigned, hreported⟩ := h.mail hp
    exact ⟨hassigned, fun hr => (hreported hr).happen x⟩
  · exact ⟨htells.fits.assigned?, fun hr => ⟨es, x, [], rfl, hputs, htells.fits.reports hr⟩⟩

theorem happen (h : Traced b es) (halter : ∀ change, x ≠ .alterStore change)
    (hnodup : (b.admitted (es ++ [.happen x])).Nodup) : Traced b (es ++ [.happen x]) := by
  have hpass := passAll_concat b es (.happen x)
  constructor
  · rw [hpass]
    exact h.jobs_happen halter hnodup
  · intro y handle hy hcreates
    rw [hpass] at hy
    rcases List.mem_append.mp hy with hy | hy
    · rw [admitted_append]
      exact List.mem_append_left _ (h.admitted hy hcreates)
    · exact h.admitted_happen hy hcreates
  · intro id p hp
    rw [hpass] at hp
    exact h.mail_happen hp

/-- Another broker takes up jobs with their handles, and its outboxes are empty. -/
theorem restart (hread : ∀ s : σ, record? (JobStore.readAll s).2 = record? s) (h : Traced b es)
    (settings : Settings) (now : Int64) (newId : Nat → String) (name : SessionId → String) :
    Traced b (es ++ [.restart settings now newId name]) := by
  have hpass := passAll_concat b es (.restart settings now newId name)
  constructor
  · rw [hpass]
    exact (holds_start now newId name (fun j n hj hempty => absurd hempty hj.1) (hread _)
      fun hr => (h.jobs.record hr).mono _).1
  · intro y handle hy hcreates
    rw [hpass] at hy
    rw [admitted_append]
    rcases List.mem_append.mp hy with hy | hy
    · exact List.mem_append_left _ (h.admitted hy hcreates)
    · exact absurd hy List.not_mem_nil
  · intro id p hp
    rw [hpass, pass, outbox_start] at hp
    exact absurd hp List.not_mem_nil

/-- Before anything has happened there are no jobs. -/
theorem start (hread : ∀ s : σ, record? (JobStore.readAll s).2 = record? s) (settings : Settings)
    {store : σ} (now : Int64) (newId : Nat → String) (name : SessionId → String)
    (hempty : ∀ k, record? store k = none) :
    Traced (Broker.start settings store now newId name).2 [] := by
  have hnone : (Broker.start settings store now newId name).2.engine.core.Holds fun _ => False :=
    (holds_start now newId name (fun _ _ hj _ => hj) (hread _)
      fun hr => absurd ((hempty _).symm.trans hr) nofun).1
  constructor
  · exact hnone.mono fun _ => False.elim
  · exact fun hy => absurd hy List.not_mem_nil
  · intro id p hp
    rw [Broker.passAll, outbox_start] at hp
    exact absurd hp List.not_mem_nil

/-- Over whatever happens to a broker and to those that follow it, if no two jobs are let in under
one handle. -/
theorem passAll (hread : ∀ s : σ, record? (JobStore.readAll s).2 = record? s) (h : Traced b [])
    (es : List (Episode σ)) (halter : ∀ change, .happen (.alterStore change) ∉ es)
    (hnodup : (b.admitted es).Nodup) : Traced b es := by
  induction es using List.reverseRecOn with
  | nil => exact h
  | append_singleton es x ih =>
    have hbefore := ih (fun change hx => halter change (List.mem_append_left _ hx))
      (hnodup.sublist (admitted_append b es [x] ▸ List.sublist_append_left _ _))
    cases x with
    | happen x =>
      refine hbefore.happen (fun change hx => halter change ?_) hnodup
      exact hx ▸ List.mem_append_right _ (List.mem_singleton_self _)
    | restart settings now newId name => exact hbefore.restart hread settings now newId name

/-! ### What is written -/

theorem assigned (h : Traced b es) {x : Episode σ} (hy : y ∈ ((b.passAll es).2.pass x).1)
    (hp : .packet p ∈ y.frames) (hassigned : p.body.assigned? = some handle) :
    ∃ j, b.FirstAnswered es handle j ∧ p.body.Assigns handle j := by
  cases x with
  | restart settings now newId name => exact absurd hy List.not_mem_nil
  | happen x =>
    rcases mem_happen hy with ⟨id, event, -, -, rfl⟩ | ⟨id, q, qs, -, hqs, rfl⟩
    · rcases Engine.mem_reply hp with ⟨body, b', -, rfl, hanswer⟩ | ⟨err, -, rfl⟩
      · obtain ⟨g, j, hj, rfl⟩ := (Engine.replies_answer hanswer).nextJob_of_assigned hassigned
        obtain rfl := Option.some.inj ((g.assigned?_assignment j).symm.trans hassigned)
        obtain ⟨-, i, hfirst, hsame⟩ := Engine.holds_nextJob h.jobs hj
        exact ⟨i, hfirst, hsame.assigns g⟩
      · cases hassigned
    · obtain rfl := Frame.packet.inj (List.mem_singleton.mp hp)
      have hmail := (h.mail (hqs ▸ List.mem_cons_self)).1
      exact absurd (hmail.symm.trans hassigned) nofun

theorem reported (h : Traced b es) {x : Episode σ} (hy : y ∈ ((b.passAll es).2.pass x).1)
    (hp : .packet p ∈ y.frames) (hreport : p.body.report?.isSome) :
    ∃ id, y = .pushed id p ∧ b.Reported es id p := by
  cases x with
  | restart settings now newId name => exact absurd hy List.not_mem_nil
  | happen x =>
    rcases mem_happen hy with ⟨id, event, -, -, rfl⟩ | ⟨id, q, qs, -, hqs, rfl⟩
    · rcases Engine.mem_reply hp with ⟨body, b', -, rfl, hanswer⟩ | ⟨err, -, rfl⟩
      · have hnone := (Engine.replies_answer hanswer).report?_eq_none
        exact absurd hreport (by simp [Packet.response, hnone])
      · cases hreport
    · obtain rfl := Frame.packet.inj (List.mem_singleton.mp hp)
      exact ⟨id, rfl, (h.mail (hqs ▸ List.mem_cons_self)).2 hreport⟩

end Traced

end Jobs

/-- Whatever happens to a broker with a store in memory, and to the brokers that take up the store
after it, if no two jobs are let in under one handle: jobs are assigned as they were submitted, and
clients are told what workers report. -/
theorem faithful_passAll (settings : Settings) (now : Int64) (newId : Nat → String)
    (name : SessionId → String)
    (es : List (Episode MemoryStore)) (halter : ∀ change, .happen (.alterStore change) ∉ es)
    (hnodup : ((start settings MemoryStore.empty now newId name).2.admitted es).Nodup) :
    Faithful (start settings MemoryStore.empty now newId name).2 es := by
  have hread : ∀ s : MemoryStore, record? (JobStore.readAll s).2 = record? s := fun _ => rfl
  have hempty : ∀ k, record? MemoryStore.empty k = none := fun _ => rfl
  have hstart := Traced.start hread settings now newId name hempty
  have htraced : ∀ {past later}, es = past ++ later →
      Traced (start settings MemoryStore.empty now newId name).2 past := by
    rintro past later rfl
    refine hstart.passAll hread past ?_ ?_
    · exact fun change hx => halter change (List.mem_append_left _ hx)
    · exact hnodup.sublist (admitted_append _ past later ▸ List.sublist_append_left _ _)
  constructor
  · intro past x later hes y hy p hp handle
    exact (htraced hes).assigned hy hp
  · intro past w body later _ id p
    exact Puts.body_eq
  · intro past x later hes y hy p hp
    exact (htraced hes).reported hy hp

/-- A job without a unique id is joined twice with other data, once after a restart; a worker leaves
it, and another one brings a part of the result and the result. -/
theorem faithful_passAll_restart :
    ∃ es : List (Episode MemoryStore),
      (∀ change, .happen (.alterStore change) ∉ es) ∧
      (start .default MemoryStore.empty 0 (fun _ => "U1") fun _ => "").2.admitted es =
        ["H:localhost:1"] ∧
      ((start .default MemoryStore.empty 0 (fun _ => "U1") fun _ => "").2.passAll es).1.flatMap
          Exchange.frames =
        [.packet (.response (.jobCreated "H:localhost:1")),
          .packet (.response (.jobCreated "H:localhost:1")),
          .packet (.response (.jobAssignAll "H:localhost:1" "f" "U1" "r" [1, 0])),
          .packet (.response (.jobCreated "H:localhost:1")),
          .packet (.response (.jobAssignUniq "H:localhost:1" "f" "U1" [1, 0])),
          .packet (.response (.workData "H:localhost:1" [9])),
          .packet (.response (.workComplete "H:localhost:1" [7, 0]))] ∧
      Faithful (start .default MemoryStore.empty 0 (fun _ => "U1") fun _ => "").2 es := by
  let ask (id : SessionId) (body : Body) : Episode MemoryStore :=
    .happen (.read id (.frame (.packet (.request body))))
  let es : List (Episode MemoryStore) :=
    [.happen (.accept "1.1.1.1:1"), .happen (.accept "1.1.1.1:2"),
      ask 0 (.submitReduceJob false "f" "" "r" [1, 0]),
      ask 0 (.submitJob .normal false "f" "U1" [2]),
      ask 1 (.canDo "f"), ask 1 .grabJobAll, .happen (.hangUp 1),
      .restart .default 0 (fun _ => "U1") fun _ => "",
      .happen (.accept "1.1.1.1:1"), .happen (.accept "1.1.1.1:3"),
      ask 0 (.submitJob .normal false "f" "U1" [3]), ask 1 (.canDo "f"), ask 1 .grabJobUniq,
      ask 1 (.workData "H:localhost:1" [9]), .happen (.push 0),
      ask 1 (.workComplete "H:localhost:1" [7, 0]), .happen (.push 0)]
  have halter : ∀ change, .happen (.alterStore change) ∉ es := by simp [es, ask]
  have hadmitted :
      (start .default MemoryStore.empty 0 (fun _ => "U1") fun _ => "").2.admitted es =
        ["H:localhost:1"] := by
    decide +kernel
  refine ⟨es, halter, hadmitted, by decide +kernel, ?_⟩
  exact faithful_passAll .default 0 (fun _ => "U1") (fun _ => "") es halter
    (hadmitted ▸ List.nodup_singleton _)

end Broker

end JobBroker
