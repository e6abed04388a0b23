import JobBroker.Proofs.Broker.Run

/-!
# What a broker does about what happens

Everything that happens to a broker makes its engine act in ways that are known from the outside,
and what is then written on a connection is of few kinds.

* `Body.action?`, `Happening.Causes` : the actions that a request, and anything else, is done by.
* `happen_of_act` : what these actions keep, and the writing of packets keeps, is kept.
* `mem_outbox_happen` : what is put into outboxes.
* `replies_answer`, `mem_happen` : what is written.
-/

namespace JobBroker

variable {σ : Type}

/-! ### Actions -/

/-- What the engine does about a request of a session. -/
def Body.action? (id : SessionId) : Body → Option (Action σ)
  | .canDo f => some (.canDo id f none)
  | .canDoTimeout f t => some (.canDo id f (some t))
  | .cantDo f => some (.cantDo id f)
  | .resetAbilities => some (.resetAbilities id)
  | .preSleep => some (.sleep id)
  | .grabJob | .grabJobUniq | .grabJobAll => some (.grab id)
  | .workStatus h n d => some (.progress h n d)
  | .workData h data => some (.data h data)
  | .workWarning h data => some (.warning h data)
  | .workComplete h data => some (.finish h (.complete data))
  | .workFail h => some (.finish h .fail)
  | .workException h data => some (.finish h (.exception data))
  | .setClientId i => some (.setClientId id i)
  | .optionReq option => if option = "exceptions" then some (.wantExceptions id true) else none
  | body => body.submission?.map fun j => .submit j (if j.background then none else some id)

/-- What the engine does about an event. -/
def Event.action? (id : SessionId) : Event → Option (Action σ)
  | .frame (.packet ⟨.request, body⟩) => body.action? id
  | .frame (.text line) =>
    match AdminCommand.parse line with
    | .maxQueue f size => some (.setMaxQueue f (size.getD 0))
    | _ => none
  | _ => none

/-- What may be done about something that happens. A connection that is closed disconnects its
session. -/
inductive Happening.Causes : Happening σ → Action σ → Prop
  | arrive (peer : String) : Causes (.accept peer) (.arrive peer)
  | connect (peer : String) (id : SessionId) : Causes (.accept peer) (.connect id)
  | react {id : SessionId} {event : Event} {a : Action σ} : event.action? id = some a →
    Causes (.read id event) a
  | close (id : SessionId) (event : Event) (i : SessionId) :
    Causes (.read id event) (.disconnect i)
  | hangUp (id : SessionId) : Causes (.hangUp id) (.disconnect id)
  | elapse (seconds : Nat) : Causes (.elapse seconds) (.elapse seconds)
  | wake (seconds : Nat) (id : SessionId) : Causes (.elapse seconds) (.wake id)
  | setClock (now : Int64) : Causes (.setClock now) (.setClock now)
  | hear (event : PeerEvent) : Causes (.hear event) (.hear event)
  | alterStore (change : σ → σ) : Causes (.alterStore change) (.alterStore change)

/-- What is done about an event is done about a request, or sets the size of a queue. -/
theorem Event.request_of_action {event : Event} {id : SessionId} {a : Action σ}
    (h : event.action? id = some a) :
    (∃ body : Body, event = .frame (.packet (.request body)) ∧ body.action? id = some a) ∨
      ∃ f size, a = .setMaxQueue f size := by
  cases event with
  | error err => exact nomatch h
  | frame frame =>
    cases frame with
    | packet p =>
      obtain ⟨_ | _, body⟩ := p
      · exact .inl ⟨body, rfl, h⟩
      · exact nomatch h
    | text line =>
      simp only [action?] at h
      split at h
      · exact .inr ⟨_, _, (Option.some.inj h).symm⟩
      · exact nomatch h

/-- A session begins, or the store is altered: nobody asks for that. -/
def Action.isUnasked : Action σ → Bool
  | .arrive _ | .alterStore _ => true
  | _ => false

/-- A request does nothing that nobody asks for, and submits a job only if it is a submission. -/
theorem Body.of_action {body : Body} {id : SessionId} {a : Action σ}
    (h : body.action? id = some a) :
    a.isUnasked = false ∧ ∀ j client, a = .submit j client → body.submission? = some j := by
  have hsubmit : (body.submission?.map fun i =>
      (.submit i (if i.background then none else some id) : Action σ)) = some a →
      a.isUnasked = false ∧ ∀ j client, a = .submit j client → body.submission? = some j := by
    intro h
    obtain ⟨i, hi, rfl⟩ := Option.map_eq_some_iff.mp h
    exact ⟨rfl, fun j client ha => hi.trans (congrArg some (Action.submit.inj ha).1)⟩
  have hother : ∀ {a' : Action σ}, some a' = some a → a'.isUnasked = false → a'.submits = false →
      a.isUnasked = false ∧ ∀ j client, a = .submit j client → body.submission? = some j := by
    intro a' h hasked hsubmits
    obtain rfl := Option.some.inj h
    exact ⟨hasked, fun j client ha => absurd (hsubmits.symm.trans (ha ▸ rfl)) Bool.false_ne_true⟩
  cases body with
  | submitJob | submitJobEpoch | submitReduceJob => exact hsubmit h
  | canDo | canDoTimeout | cantDo | resetAbilities | preSleep | grabJob | grabJobUniq | grabJobAll
  | workStatus | workData | workWarning | workComplete | workFail | workException | setClientId =>
    exact hother h rfl rfl
  | optionReq option =>
    simp only [action?] at h
    split at h
    · exact hother h rfl rfl
    · exact nomatch h
  | _ => exact nomatch h

theorem Event.isUnasked_of_action {event : Event} {id : SessionId} {a : Action σ}
    (h : event.action? id = some a) : a.isUnasked = false := by
  rcases request_of_action h with ⟨body, rfl, h⟩ | ⟨f, size, rfl⟩
  · exact (Body.of_action h).1
  · rfl

theorem Happening.eq_accept_of_causes {x : Happening σ} {peer : String}
    (h : x.Causes (.arrive peer)) : x = .accept peer := by
  cases h with
  | arrive => rfl
  | react ha => exact nomatch Event.isUnasked_of_action ha

theorem Happening.eq_alterStore_of_causes {x : Happening σ} {change : σ → σ}
    (h : x.Causes (.alterStore change)) : x = .alterStore change := by
  cases h with
  | alterStore => rfl
  | react ha => exact nomatch Event.isUnasked_of_action ha

/-- The job that is submitted by what happens. -/
def Happening.submission? : Happening σ → Option Job
  | .read _ event => event.submission?
  | _ => none

theorem Happening.submission?_of_causes {x : Happening σ} {j : Job} {client : Option SessionId}
    (h : x.Causes (.submit j client)) : x.submission? = some j := by
  cases h with
  | @react id event _ ha =>
    rcases Event.request_of_action ha with ⟨body, rfl, ha⟩ | ⟨f, size, ha⟩
    · exact (Body.of_action ha).2 j client rfl
    · exact nomatch ha

variable [JobStore σ]

namespace Engine

variable {e : Engine σ} {id : SessionId}

theorem answer_snd (e : Engine σ) (id : SessionId) (body : Body) :
    (e.answer id body).2 = (body.action? id).elim e e.act := by
  cases body with
  | submitJob priority background f u data =>
    rw [answer_of_submission rfl, answerSubmission_eq]
    rfl
  | submitJobEpoch f u epoch data =>
    rw [answer_of_submission rfl, answerSubmission_eq]
    rfl
  | submitReduceJob background f u reducer data =>
    rw [answer_of_submission rfl, answerSubmission_eq]
    rfl
  | grabJob | grabJobUniq | grabJobAll => exact answerGrab_snd e id _
  | workStatus | workData | workWarning | workComplete | workFail | workException =>
    exact answerReport_snd _
  | optionReq option =>
    simp only [answer, Body.action?]
    split <;> rfl
  | _ => rfl

theorem react_snd (e : Engine σ) (name : SessionId → String) (id : SessionId) (event : Event) :
    (e.react name id event).2 = (event.action? id).elim e e.act := by
  cases event with
  | error err =>
    simp only [react]
    split <;> rfl
  | frame frame =>
    cases frame with
    | text line =>
      simp only [react, Event.action?]
      cases AdminCommand.parse line <;> rfl
    | packet p =>
      obtain ⟨_ | _, body⟩ := p
      · exact answer_snd e id body
      · rfl

end Engine

namespace Broker

variable {b : Broker σ} {P : Engine σ → Prop}

theorem close_of_act {id : SessionId} (hact : ∀ e, P e → P (e.act (.disconnect id)))
    (h : P b.engine) : P (b.close id).engine := by
  unfold close
  split
  · exact hact _ h
  · exact h

theorem stop_of_act (hact : ∀ e i, P e → P (e.act (.disconnect i))) (h : P b.engine) :
    P b.stop.engine := by
  suffices hids : ∀ (ids : List SessionId) (b : Broker σ), P b.engine →
      P (ids.foldl close b).engine from hids b.streams.keys b h
  intro ids
  induction ids with
  | nil => exact fun _ h => h
  | cons id ids ih => exact fun b h => ih (b.close id) (close_of_act (hact · id) h)

theorem react_of_act {id : SessionId} {event : Event}
    (hact : ∀ e a, (Happening.read id event).Causes a → P e → P (e.act a)) (h : P b.engine) :
    P (b.react id [event]).2.engine := by
  obtain ⟨r, engine, hreact, -, hb⟩ := react_singleton b id event
  have hclose : ∀ e i, P e → P (e.act (.disconnect i)) := fun e i => hact e _ (.close id event i)
  have hengine : P engine := by
    have hsnd := Engine.react_snd b.engine b.sessionName id event
    rw [hreact] at hsnd
    rw [show engine = _ from hsnd]
    cases ha : event.action? id with
    | none => exact h
    | some a => exact hact _ a (.react ha) h
  rw [hb]
  split
  · exact stop_of_act hclose (close_of_act (hclose · id) hengine)
  · split
    · exact close_of_act (hclose · id) hengine
    · exact hengine

/-- What is kept by each action that something causes, and when a packet is written, is kept. -/
theorem happen_of_act {x : Happening σ} (hact : ∀ e a, x.Causes a → P e → P (e.act a))
    (hpush : ∀ id p ps, x = .push id → b.engine.outbox id = p :: ps → P (b.engine.setOutbox id ps))
    (h : P b.engine) : P (b.happen x).2.engine := by
  cases x with
  | accept peer => exact hact _ _ (.connect peer _) (hact _ _ (.arrive peer) h)
  | read id event =>
    simp only [happen]
    split
    · exact react_of_act hact h
    · exact h
  | push id =>
    simp only [happen, push]
    split
    · split
      · exact h
      · next p ps hps => exact hpush id p ps rfl hps
    · exact h
  | hangUp id => exact close_of_act (fun e => hact e _ (.hangUp id)) h
  | elapse seconds =>
    suffices hwake : ∀ (ss : List (SessionId × Session)) (e : Engine σ), P e →
        P (ss.foldl (fun e s => e.wake s.1) e) from hwake _ _ (hact _ _ (.elapse seconds) h)
    intro ss
    induction ss with
    | nil => exact fun _ h => h
    | cons s ss ih => exact fun e h => ih (e.wake s.1) (hact e _ (.wake seconds s.1) h)
  | setClock now => exact hact _ _ (.setClock now) h
  | hear event => exact hact _ _ (.hear event) h
  | alterStore change => exact hact _ _ (.alterStore change) h

end Broker

/-! ### What is put into outboxes -/

/-- The packets that may be put into outboxes when something happens. -/
def Happening.Tells (x : Happening σ) (p : Packet) : Prop :=
  ∃ (e : Engine σ) (a : Action σ), x.Causes a ∧ e.Tells a p

namespace Broker

variable {b : Broker σ} {x : Happening σ} {id : SessionId} {p : Packet}

/-- When something happens a packet is put into the outbox of a session. -/
def Puts (b : Broker σ) (x : Happening σ) (id : SessionId) (p : Packet) : Prop :=
  ∃ ps, (b.happen x).2.engine.outbox id = b.engine.outbox id ++ ps ∧ p ∈ ps

/-- What is put into outboxes comes behind what is there. -/
theorem posts_happen (haccept : ∀ peer, x ≠ .accept peer) (hpush : ∀ i, x ≠ .push i) :
    b.engine.Posts x.Tells (b.happen x).2.engine := by
  refine happen_of_act (P := b.engine.Posts x.Tells) (fun e a hcauses h => h.trans ?_)
    (fun i _ _ hx _ => absurd hx (hpush i)) (.refl _)
  have ha : ∀ peer, a ≠ .arrive peer := by
    rintro peer rfl
    exact haccept peer (Happening.eq_accept_of_causes hcauses)
  exact Sessions.Adds.mono (fun _ _ htells => ⟨e, a, hcauses, htells⟩) (Engine.posts_act e ha)

theorem mem_outbox_happen (h : p ∈ (b.happen x).2.engine.outbox id) :
    p ∈ b.engine.outbox id ∨ b.Puts x id p ∧ x.Tells p := by
  by_cases haccept : ∃ peer, x = .accept peer
  · obtain ⟨peer, rfl⟩ := haccept
    have hsessions : (b.happen (.accept peer)).2.engine.sessions =
        Table.insert b.engine.sessions b.engine.sessions.size (.new peer) := by
      show (Engine.connect _ _).sessions = _
      unfold Engine.connect
      split <;> rfl
    rw [Engine.outbox, hsessions, Sessions.outbox, Table.get?_insert] at h
    split at h
    · exact absurd h (by simp [Session.new])
    · exact .inl h
  by_cases hpush : ∃ i, x = .push i
  · obtain ⟨i, rfl⟩ := hpush
    simp only [happen, push] at h
    split at h
    · split at h
      · exact .inl h
      · next q qs hqs =>
        rw [Engine.outbox_setOutbox hqs] at h
        split at h
        · next hi => exact .inl (hi ▸ hqs ▸ List.mem_cons_of_mem q h)
        · exact .inl h
    · exact .inl h
  obtain ⟨ps, hps, htells⟩ := posts_happen (b := b) (fun peer h => haccept ⟨peer, h⟩)
    (fun i h => hpush ⟨i, h⟩) id
  rw [Engine.outbox, hps] at h
  exact (List.mem_append.mp h).imp_right fun hp => ⟨⟨ps, hps, hp⟩, htells p hp⟩

end Broker

/-! ### What is written -/

namespace Engine

variable {e : Engine σ} {id : SessionId}

/-- The replies to a request. -/
inductive Replies (e : Engine σ) (id : SessionId) : Body → Body → Prop
  | echo (data : Bytes) : Replies e id (.echoReq data) (.echoRes data)
  | option (o : String) : Replies e id (.optionReq o) (.optionRes o)
  | created {body : Body} {j j' : Job} : body.submission? = some j →
    (e.submit j (if j.background then none else some id)).1 = .ok j' →
    Replies e id body (.jobCreated j'.handle)
  | assigned {body : Body} (g : Grab) {j : Job} : (e.nextJob id).1 = some j →
    Replies e id body (g.assignment j)
  | idle (body : Body) : Replies e id body .noJob
  | status (h : String) (known running : Bool) (n d : UInt32) :
    Replies e id (.getStatus h) (.statusRes h known running n d)
  | statusOfUnique (u : String) (known running : Bool) (n d waiting : UInt32) :
    Replies e id (.getStatusUnique u) (.statusResUnique u known running n d waiting)
  | refused (body : Body) (err : JobError) : Replies e id body (refusal err)
  | unsupported (body : Body) (text : String) : Replies e id body (.error "ERR_NOT_SUPPORTED" text)
  | unknownOption (body : Body) (text : String) :
    Replies e id body (.error "ERR_UNKNOWN_OPTION" text)

theorem replies_of_submission {body b : Body} {j : Job} (hj : body.submission? = some j)
    (h : (e.answer id body).1 = some b) : e.Replies id body b := by
  rw [answer_of_submission hj, answerSubmission_eq] at h
  obtain rfl := Option.some.inj h
  split
  · next j' hsubmit => exact .created hj hsubmit
  · next err _ => exact .refused body err

theorem replies_of_report {body b : Body} {α : Type} {r : Except JobError α × Engine σ}
    (h : (answerReport r).1 = some b) : e.Replies id body b := by
  obtain ⟨answer, e'⟩ := r
  cases answer with
  | ok a => exact absurd h (by simp [answerReport])
  | error err =>
    obtain rfl := Option.some.inj h
    exact .refused body err

theorem replies_of_grab {body b : Body} {g : Grab} (h : (e.answerGrab id g).1 = some b) :
    e.Replies id body b := by
  unfold answerGrab at h
  split at h
  · next j _ hj =>
    obtain rfl := Option.some.inj h
    exact .assigned g (by rw [hj])
  · obtain rfl := Option.some.inj h
    exact .idle body

theorem replies_answer {body b : Body} (h : (e.answer id body).1 = some b) :
    e.Replies id body b := by
  cases body with
  | submitJob | submitJobEpoch | submitReduceJob => exact replies_of_submission rfl h
  | grabJob | grabJobUniq | grabJobAll => exact replies_of_grab h
  | workStatus | workData | workWarning | workComplete | workFail | workException =>
    exact replies_of_report h
  | echoReq data => exact Option.some.inj h ▸ .echo data
  | submitJobSched => exact Option.some.inj h ▸ .unsupported _ _
  | getStatus handle => exact Option.some.inj h ▸ .status handle _ _ _ _
  | getStatusUnique u => exact Option.some.inj h ▸ .statusOfUnique u _ _ _ _ _
  | optionReq o =>
    simp only [answer] at h
    split at h
    · exact Option.some.inj h ▸ .option o
    · exact Option.some.inj h ▸ .unknownOption _ _
  | _ => exact absurd h (by simp [answer])

theorem Replies.submit_of_created {body b : Body} (h : e.Replies id body b) {handle : String}
    (hb : b = .jobCreated handle) : ∃ j j', body.submission? = some j ∧
      (e.submit j (if j.background then none else some id)).1 = .ok j' ∧ handle = j'.handle := by
  cases h with
  | created hj hsubmit => exact ⟨_, _, hj, hsubmit, (Body.jobCreated.inj hb).symm⟩
  | assigned g _ => cases g <;> exact nomatch hb
  | _ => exact nomatch hb

/-- A packet that is written in reply answers a request, or complains about what was sent. -/
theorem mem_reply {name : SessionId → String} {event : Event} {p : Packet}
    (h : .packet p ∈ (e.react name id event).1.reply.toList) :
    (∃ body b, event = .frame (.packet (.request body)) ∧ p = .response b ∧
      (e.answer id body).1 = some b) ∨
      ∃ err : ProtocolError, event = .error err ∧
        p = .response (.error "ERR_PROTOCOL" err.message) := by
  cases event with
  | error err =>
    simp only [react] at h
    split at h
    · exact absurd h (by simp)
    · exact .inr ⟨err, rfl, by simpa using h⟩
  | frame frame =>
    cases frame with
    | text line => exact absurd h (by simp [react])
    | packet q =>
      obtain ⟨_ | _, body⟩ := q
      · simp only [react, Option.mem_toList, Option.map_eq_some_iff] at h
        obtain ⟨b, hb, hp⟩ := h
        exact .inl ⟨body, b, rfl, (Frame.packet.inj hp).symm, hb⟩
      · exact absurd h (by simp [react])

end Engine

namespace Broker

variable {b : Broker σ} {x : Happening σ} {y : Exchange}

theorem happen_read {id : SessionId} (hid : b.isOpen id = true) (event : Event) :
    (b.happen (.read id event)).1 =
      [.answered id event (b.engine.react b.sessionName id event).1.reply.toList] := by
  obtain ⟨r, engine, hreact, hreply, -⟩ := react_singleton b id event
  simp only [happen, hid, if_true, hreply, hreact]

/-- A frame that submits a job is answered with its handle or with a refusal, and does nothing
else. -/
theorem happen_of_submission {id : SessionId} (hid : b.isOpen id = true) {event : Event} {j : Job}
    (hj : event.submission? = some j) :
    b.happen (.read id event) =
      ([.answered id event [.packet (.response
          (match (b.engine.submit j (if j.background then none else some id)).1 with
            | .ok j => .jobCreated j.handle
            | .error err => Engine.refusal err))]],
        b.act (.submit j (if j.background then none else some id))) := by
  have hreact := Engine.react_of_submission hj b.engine b.sessionName id
  rw [Engine.answerSubmission_eq] at hreact
  refine Prod.ext ?_ ?_
  · rw [happen_read hid, hreact]
    rfl
  · simp only [happen, hid, if_true, react, hreact]
    rfl

/-- What passes over a connection is a frame with the reply to it, or a packet of the outbox. -/
theorem mem_happen (h : y ∈ (b.happen x).1) :
    (∃ id event, x = .read id event ∧ b.isOpen id = true ∧
      y = .answered id event (b.engine.react b.sessionName id event).1.reply.toList) ∨
      ∃ id p ps, x = .push id ∧ b.engine.outbox id = p :: ps ∧ y = .pushed id p := by
  cases x with
  | read id event =>
    by_cases hid : b.isOpen id = true
    · rw [happen_read hid] at h
      exact .inl ⟨id, event, rfl, hid, List.mem_singleton.mp h⟩
    · exact absurd h (by simp [happen, hid])
  | push id =>
    simp only [happen, push] at h
    split at h
    · split at h
      · exact absurd h (by simp)
      · next p ps hps => exact .inr ⟨id, p, ps, rfl, hps, by simpa using h⟩
    · exact absurd h (by simp)
  | _ => exact absurd h (by simp [happen])

end Broker

end JobBroker
