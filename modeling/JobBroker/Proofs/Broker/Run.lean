import JobBroker.Broker.Basic
import JobBroker.Proofs.Engine.Mail

/-!
# Runs of a broker

What happens to a broker one thing at a time: a connection is opened, a frame is read and handled
to completion, a packet of an outbox is written, a connection is closed, time passes. An exchange
is what then passes over a connection.

* `happen_emits` : whatever happens is done by actions of the engine, and one exchange at most.
* `InStep.happen` : the open connections are those of the connected sessions.
* `receive_eq_run`, `flush_eq_run` : to take in octets is to read frames one by one, and to empty an
  outbox is to write its packets one by one.
-/

namespace JobBroker

open Relation (ReflTransGen)

/-! ### What is asked and what is written -/

/-- The job that a request submits. -/
def Body.submission? : Body → Option Job
  | .submitJob priority background f u data => some { Job.new f u data with priority, background }
  | .submitJobEpoch f u epoch data =>
    some { Job.new f u data with background := true, timeToRun := epoch }
  | .submitReduceJob background f u reducer data =>
    some { Job.new f u data with background, reducer := some reducer }
  | _ => none

def Event.submission? : Event → Option Job
  | .frame (.packet ⟨.request, body⟩) => body.submission?
  | _ => none

/-- What passes over a connection. -/
inductive Exchange
  /-- A frame or an error is read, and the reply to it written. -/
  | answered (id : SessionId) (event : Event) (reply : List Frame)
  /-- The first packet of the outbox is written. -/
  | pushed (id : SessionId) (packet : Packet)

namespace Exchange

def frames : Exchange → List Frame
  | answered _ _ reply => reply
  | pushed _ p => [.packet p]

/-- The packets that are written on a connection. -/
def packetsTo (id : SessionId) : Exchange → List Packet
  | answered i _ reply =>
    if i = id then reply.filterMap fun | .packet p => some p | .text _ => none else []
  | pushed i p => if i = id then [p] else []

end Exchange

/-- What may happen to a broker over a store of type `σ`. -/
inductive Happening (σ : Type)
  | accept (peer : String)
  | read (id : SessionId) (event : Event)
  | push (id : SessionId)
  | hangUp (id : SessionId)
  | elapse (seconds : Nat)
  | setClock (now : Int64)
  | hear (event : PeerEvent)
  /-- Something happens to the store, such as the loss of a record or the beginning of a fault. -/
  | alterStore (change : σ → σ)

namespace Action

variable {σ : Type}

def submits : Action σ → Bool
  | submit .. => true
  | _ => false

/-- The action connects or disconnects a session. -/
def relinks : Action σ → Bool
  | connect _ | disconnect _ => true
  | _ => false

end Action

def Engine.setOutbox {σ : Type} (e : Engine σ) (id : SessionId) (ps : List Packet) : Engine σ :=
  e.modifySession id fun s => { s with outbox := ps }

namespace Broker

variable {σ : Type} [JobStore σ]

def act (b : Broker σ) (a : Action σ) : Broker σ := { b with engine := b.engine.act a }

/-- Takes the first packet out of the outbox of an open connection. -/
def push (b : Broker σ) (id : SessionId) : Option Packet × Broker σ :=
  if b.isOpen id then
    match b.engine.outbox id with
    | [] => (none, b)
    | p :: ps =>
      (some p, { b with engine := b.engine.setOutbox id ps })
  else (none, b)

def happen (b : Broker σ) : Happening σ → List Exchange × Broker σ
  | .accept peer => ([], (b.accept peer).2)
  | .read id event =>
    if b.isOpen id then
      let (reply, b) := b.react id [event]
      ([.answered id event reply], b)
    else ([], b)
  | .push id =>
    let (p, b) := b.push id
    (p.toList.map (.pushed id), b)
  | .hangUp id => ([], b.hangUp id)
  | .elapse seconds => ([], b.elapse seconds)
  | .setClock now => ([], b.act (.setClock now))
  | .hear event => ([], b.act (.hear event))
  | .alterStore change => ([], b.act (.alterStore change))

def run (b : Broker σ) : List (Happening σ) → List Exchange × Broker σ
  | [] => ([], b)
  | h :: hs =>
    let (xs, b) := b.happen h
    let (ys, b) := b.run hs
    (xs ++ ys, b)

/-- How many handles a run uses up. -/
def issued (b : Broker σ) : List (Happening σ) → Nat
  | [] => 0
  | h :: hs =>
    (if (b.happen h).2.engine.handles = b.engine.handles then 0 else 1) + (b.happen h).2.issued hs

end Broker

/-! ### Outboxes -/

namespace Engine

variable {σ : Type} {e : Engine σ}

theorem outbox_setOutbox {id : SessionId} {p : Packet} {ps : List Packet}
    (h : e.outbox id = p :: ps) (ps' : List Packet) (i : SessionId) :
    (e.setOutbox id ps').outbox i = if i = id then ps' else e.outbox i := by
  show ((Table.get? (Table.modify _ _ _) i).map Session.outbox).getD [] = _
  rw [Table.get?_modify]
  by_cases hi : i = id
  · subst hi
    cases hs : e.session? i with
    | none => simp [outbox, Sessions.outbox, show e.sessions.get? i = none from hs] at h
    | some s => simp [show e.sessions.get? i = some s from hs]
  · rw [if_neg (Ne.symm hi), if_neg hi]
    rfl

theorem setOutbox_self {id : SessionId} {ps : List Packet} (h : e.outbox id = ps) :
    e.setOutbox id ps = e := by
  have hsessions : Table.modify e.sessions id (fun s => { s with outbox := ps }) = e.sessions := by
    refine Table.modify_eq_self fun s hs => ?_
    rw [← h, outbox, Sessions.outbox, hs]
    rfl
  rw [setOutbox, modifySession, hsessions]

theorem setOutbox_setOutbox (e : Engine σ) (id : SessionId) (ps ps' : List Packet) :
    (e.setOutbox id ps).setOutbox id ps' = e.setOutbox id ps' := by
  simp only [setOutbox, modifySession, Table.modify_modify]
  rfl

theorem notices_eq_filter (e : Engine σ) (id : SessionId) :
    e.notices id = (e.outbox id).filter (·.ends?.isSome) := by
  show ((e.session? id).map Session.notices).getD [] =
    (((e.session? id).map Session.outbox).getD []).filter _
  cases e.session? id <;> rfl

/-- An engine in order stays so when a packet is taken out of an outbox. -/
theorem InOrder.setOutbox (he : e.InOrder) {id : SessionId} {p : Packet} {ps : List Packet}
    (hps : e.outbox id = p :: ps) : (e.setOutbox id ps).InOrder := by
  have hnotices : ∀ i, (e.setOutbox id ps).notices i =
      if i = id then ps.filter (·.ends?.isSome) else e.notices i := by
    intro i
    rw [notices_eq_filter, outbox_setOutbox hps, notices_eq_filter]
    split <;> rfl
  have hkeeps : (e.setOutbox id ps).Keeps
      { e.ledger with notices := (e.setOutbox id ps).notices } := by
    refine he.keeps.withSessions (e.setOutbox id ps).sessions (Table.size_modify _ _ _)
      (book?_modifySession e id (fun b => { b with notices := ps.filter (·.ends?.isSome) })
        fun _ => rfl)
      (fun i b => ?_) (fun i _ b _ hb => ?_) (fun i _ b => ?_)
      (fun i b _ hb => ?_) (fun i b _ hb => ?_) (fun i hb => ⟨rfl, ?_⟩)
    · split <;> rfl
    · rw [← hb]
      split <;> rfl
    · split <;> rfl
    · rw [← hb]
      split <;> rfl
    · rw [hnotices]
      by_cases hi : i = id
      · simp [hi]
      · rw [if_neg hi, if_neg (Ne.symm hi)]
        exact hb
    · rw [hnotices]
      split
      · next hi =>
        have hnone : e.session? id = none := by simpa [book?, hi] using hb
        have hempty : e.outbox id = [] := by
          show ((e.session? id).map Session.outbox).getD [] = []
          rw [hnone]
          rfl
        exact absurd (hps.symm.trans hempty) (by simp)
      · rfl
  have hconsistent :
      Ledger.Consistent { e.ledger with notices := (e.setOutbox id ps).notices } :=
    { he.consistent with
      spent_of_notice := by
        intro i q handle hq hends
        have hkept : q ∈ e.notices i := by
          replace hq : q ∈ (e.setOutbox id ps).notices i := hq
          rw [hnotices] at hq
          split at hq
          · next hi =>
            rw [notices_eq_filter, hi, hps]
            exact ((List.sublist_cons_self p ps).filter _).subset hq
          · exact hq
        exact he.consistent.spent_of_notice hkept hends }
  have hledger := hkeeps.ledger_eq he.keeps.idle
  exact ⟨hledger ▸ hkeeps, hledger ▸ hconsistent⟩

/-! ### What the engine does -/

variable [JobStore σ] {e' e'' : Engine σ} {a : Action σ}

/-- The engine gets from `e` to `e'` by legal actions none of which submits a job. -/
def Works (e e' : Engine σ) : Prop :=
  ReflTransGen (fun e e' : Engine σ => ∃ a, e.Legal a ∧ a.submits = false ∧ e' = e.act a) e e'

theorem Works.refl (e : Engine σ) : Works e e := ReflTransGen.refl

theorem Works.trans (h : Works e e') (h' : Works e' e'') : Works e e'' :=
  ReflTransGen.trans h h'

theorem Works.single (ha : e.Legal a) (hsubmit : a.submits = false) : Works e (e.act a) :=
  ReflTransGen.single ⟨a, ha, hsubmit, rfl⟩

/-- What passes over a connection, and what the engine does about it. -/
inductive Emits (e : Engine σ) : List Exchange → Engine σ → Prop
  | nothing : Emits e [] e
  /-- A reply that is about no job that a client may wait for. -/
  | reply {id : SessionId} {event : Event} {frames : List Frame} :
    (∀ p, .packet p ∈ frames → p.about? = none) → Emits e [.answered id event frames] e
  | submit {id : SessionId} {event : Event} {j : Job} : id ∈ e.connected →
    event.submission? = some j →
    Emits e [.answered id event
      ((e.answerSubmission id j).1.map fun b => Frame.packet (.response b)).toList]
      (e.answerSubmission id j).2
  | push {id : SessionId} {p : Packet} {ps : List Packet} : e.outbox id = p :: ps →
    Emits e [.pushed id p] (e.setOutbox id ps)

theorem connected_act (e : Engine σ) (ha : a.relinks = false) :
    (e.act a).connected = e.connected := by
  cases a with
  | connect id => exact nomatch ha
  | disconnect id => exact nomatch ha
  | canDo id f timeout => exact (undisturbed_addAbility e id f timeout).connected
  | cantDo id f => exact (undisturbed_removeAbility e id f).connected
  | resetAbilities id => exact (undisturbed_resetAbilities e id).connected
  | sleep id => exact (undisturbed_sleep e id).connected
  | wake id => exact (undisturbed_wake e id).connected
  | grab id => exact (steady_takeFrom e id _).connected
  | submit j client => exact (steady_submit e j client).connected
  | finish handle o => exact (steady_finish e handle o).connected
  | progress handle n d => exact (steady_reportProgress e handle n d).connected
  | data handle data => exact (undisturbed_reportData e handle data).connected
  | warning handle data => exact (undisturbed_reportWarning e handle data).connected
  | remove handle => exact (steady_remove e handle).connected
  | setMaxQueue f size => exact (undisturbed_setMaxQueue e f size).connected
  | hear event =>
    show (e.hear event).connected = _
    unfold hear
    dsimp only
    split
    · rfl
    · exact (Undisturbed.wakeCrew e _).connected
    · rfl
    · rfl
    · split
      · rfl
      · exact (steady_settle e _ _).connected
  | _ => rfl

omit [JobStore σ] in
theorem mem_connected_connect (e : Engine σ) (id i : SessionId) :
    i ∈ (e.connect id).connected ↔ i ∈ e.connected ∨ i = id := by
  unfold connect
  split
  · next h => exact ⟨.inl, fun hi => hi.elim (fun hi => hi) fun hi => hi ▸ h⟩
  · simp

/-- An action that neither submits a job nor changes which sessions are connected. -/
inductive Inner (e : Engine σ) : Engine σ → Prop
  | stay : Inner e e
  | act {a : Action σ} : e.Legal a → a.submits = false → a.relinks = false → Inner e (e.act a)

theorem Inner.works (h : e.Inner e') : Works e e' := by
  cases h with
  | stay => exact .refl e
  | act ha hsubmit _ => exact .single ha hsubmit

theorem Inner.connected (h : e.Inner e') : e'.connected = e.connected := by
  cases h with
  | stay => rfl
  | act _ _ hlinks => exact connected_act e hlinks

/-! ### Answers -/

theorem answer_of_submission {body : Body} {j : Job} (h : body.submission? = some j)
    (e : Engine σ) (id : SessionId) : e.answer id body = e.answerSubmission id j := by
  cases body <;> first | exact Option.some.inj h ▸ rfl | exact nomatch h

omit [JobStore σ] in
theorem answerReport_snd {α : Type} (r : Except JobError α × Engine σ) :
    (answerReport r).2 = r.2 := by
  obtain ⟨answer, e⟩ := r
  cases answer <;> rfl

omit [JobStore σ] in
theorem about?_answerReport {α : Type} (r : Except JobError α × Engine σ) :
    ∀ b ∈ (answerReport r).1, (Packet.response b).about? = none := by
  obtain ⟨answer, e⟩ := r
  cases answer with
  | ok a => simp [answerReport]
  | error err =>
    rintro _ ⟨⟩
    rfl

theorem answerGrab_snd (e : Engine σ) (id : SessionId) (g : Grab) :
    (e.answerGrab id g).2 = (e.nextJob id).2 := by
  unfold answerGrab
  split <;> next h => rw [h]

theorem about?_answerGrab (e : Engine σ) (id : SessionId) (g : Grab) :
    ∀ b ∈ (e.answerGrab id g).1, (Packet.response b).about? = none := by
  unfold answerGrab
  split
  · rintro _ ⟨⟩
    cases g <;> rfl
  · rintro _ ⟨⟩
    rfl

/-- A request that submits no job is answered by nothing about a job, and done by one action at
most. -/
theorem answer_of_no_submission {body : Body} (h : body.submission? = none) {id : SessionId}
    (hid : id ∈ e.connected) :
    (∀ b ∈ (e.answer id body).1, (Packet.response b).about? = none) ∧
      e.Inner (e.answer id body).2 := by
  have hreport : ∀ {α : Type} (r : Except JobError α × Engine σ), e.Inner r.2 →
      (∀ b ∈ (answerReport r).1, (Packet.response b).about? = none) ∧
        e.Inner (answerReport r).2 := fun r hr =>
    ⟨about?_answerReport r, (answerReport_snd r).symm ▸ hr⟩
  have hgrab : ∀ g, (∀ b ∈ (e.answerGrab id g).1, (Packet.response b).about? = none) ∧
      e.Inner (e.answerGrab id g).2 := fun g =>
    ⟨about?_answerGrab e id g, answerGrab_snd e id g ▸
      .act (a := .grab id) hid rfl rfl⟩
  have hsilent : ∀ {e' : Engine σ}, e.Inner e' →
      (∀ b ∈ (none : Option Body), (Packet.response b).about? = none) ∧ e.Inner e' := fun h =>
    ⟨by simp, h⟩
  cases body with
  | submitJob => exact nomatch h
  | submitJobEpoch => exact nomatch h
  | submitReduceJob => exact nomatch h
  | canDo f => exact hsilent (.act (a := .canDo id f none) hid rfl rfl)
  | canDoTimeout f t => exact hsilent (.act (a := .canDo id f (some t)) hid rfl rfl)
  | cantDo f => exact hsilent (.act (a := .cantDo id f) hid rfl rfl)
  | resetAbilities => exact hsilent (.act (a := .resetAbilities id) hid rfl rfl)
  | preSleep => exact hsilent (.act (a := .sleep id) hid rfl rfl)
  | grabJob => exact hgrab .plain
  | grabJobUniq => exact hgrab .unique
  | grabJobAll => exact hgrab .all
  | workStatus handle n d =>
    exact hreport _ (.act (a := .progress handle n d) trivial rfl rfl)
  | workData handle data =>
    exact hreport _ (.act (a := .data handle data) trivial rfl rfl)
  | workWarning handle data =>
    exact hreport _ (.act (a := .warning handle data) trivial rfl rfl)
  | workComplete handle data =>
    exact hreport _ (.act (a := .finish handle (.complete data)) trivial rfl rfl)
  | workFail handle =>
    exact hreport _ (.act (a := .finish handle .fail) trivial rfl rfl)
  | workException handle data =>
    exact hreport _ (.act (a := .finish handle (.exception data)) trivial rfl rfl)
  | setClientId i => exact hsilent (.act (a := .setClientId id i) hid rfl rfl)
  | optionReq option =>
    by_cases ho : option = "exceptions"
    · simp only [answer, ho, if_true]
      exact ⟨by simp [Packet.about?, Packet.response],
        .act (a := .wantExceptions id true) hid rfl rfl⟩
    · simp only [answer, ho, if_false]
      exact ⟨by simp [Packet.about?, Packet.response], .stay⟩
  | echoReq | submitJobSched | getStatus | getStatusUnique =>
    exact ⟨by simp [answer, Packet.about?, Packet.response], .stay⟩
  | _ => exact ⟨by simp [answer], .stay⟩

/-- A submission is answered by the handle of its job, or by why there is none. -/
theorem answerSubmission_eq (e : Engine σ) (id : SessionId) (j : Job) :
    e.answerSubmission id j =
      (some (match (e.submit j (if j.background then none else some id)).1 with
        | .ok j => .jobCreated j.handle
        | .error err => refusal err),
      e.act (.submit j (if j.background then none else some id))) := by
  unfold answerSubmission
  split <;> next h => simp only [act, h]

theorem react_of_submission {event : Event} {j : Job} (h : event.submission? = some j)
    (e : Engine σ) (name : SessionId → String) (id : SessionId) :
    e.react name id event =
      (⟨(e.answerSubmission id j).1.map fun b => .packet (.response b), false, false⟩,
        (e.answerSubmission id j).2) := by
  cases event with
  | error err => exact nomatch h
  | frame frame =>
    cases frame with
    | text line => exact nomatch h
    | packet p =>
      obtain ⟨_ | _, body⟩ := p
      · simp only [react, answer_of_submission h]
      · exact nomatch h

theorem react_of_no_submission {event : Event} (h : event.submission? = none) {id : SessionId}
    (hid : id ∈ e.connected) (name : SessionId → String) :
    (∀ p, .packet p ∈ (e.react name id event).1.reply.toList → p.about? = none) ∧
      e.Inner (e.react name id event).2 := by
  cases event with
  | error err =>
    simp only [react]
    split
    · exact ⟨by simp, .stay⟩
    · exact ⟨by simp [Packet.about?, Packet.response], .stay⟩
  | frame frame =>
    cases frame with
    | text line =>
      refine ⟨by simp [react], ?_⟩
      simp only [react]
      cases AdminCommand.parse line with
      | maxQueue f size =>
        exact .act (a := .setMaxQueue f (size.getD 0)) trivial rfl rfl
      | _ => exact .stay
    | packet p =>
      obtain ⟨_ | _, body⟩ := p
      · obtain ⟨habout, hinner⟩ := answer_of_no_submission h hid
        refine ⟨fun p hp => ?_, hinner⟩
        simp only [react, Option.mem_toList, Option.map_eq_some_iff] at hp
        obtain ⟨b, hb, hp⟩ := hp
        obtain rfl := Frame.packet.inj hp
        exact habout b hb
      · exact ⟨by simp [react], .stay⟩

theorem works_wakes (ss : List (SessionId × Session)) (e : Engine σ) :
    Works e (ss.foldl (fun e s => e.wake s.1) e) ∧
      (ss.foldl (fun e s => e.wake s.1) e).connected = e.connected := by
  induction ss generalizing e with
  | nil => exact ⟨.refl e, rfl⟩
  | cons s ss ih =>
    obtain ⟨hworks, hconnected⟩ := ih (e.wake s.1)
    have hwake : Works e (e.wake s.1) := .single (a := .wake s.1) trivial rfl
    exact ⟨hwake.trans hworks, hconnected.trans (undisturbed_wake e s.1).connected⟩

end Engine

/-! ### What happens to a broker -/

namespace Broker

variable {σ : Type} [JobStore σ] {b : Broker σ}

/-- The open connections are those of the connected sessions. -/
def InStep (b : Broker σ) : Prop := ∀ id, b.isOpen id = true ↔ id ∈ b.engine.connected

omit [JobStore σ] in
theorem InStep.congr {b' : Broker σ} (h : b.InStep) (hstreams : b'.streams = b.streams)
    (hconnected : b'.engine.connected = b.engine.connected) : b'.InStep := by
  intro id
  rw [isOpen, hstreams, hconnected]
  exact h id

theorem works_close (b : Broker σ) (id : SessionId) : b.engine.Works (b.close id).engine := by
  unfold close
  split
  · exact .single (a := .disconnect id) trivial rfl
  · exact .refl _

theorem isOpen_close (b : Broker σ) (id i : SessionId) :
    (b.close id).isOpen i = true ↔ b.isOpen i = true ∧ i ≠ id := by
  unfold close
  split
  · simp only [isOpen, Table.contains, Table.get?_erase]
    by_cases h : id = i
    · simp [h]
    · simp [h, Ne.symm h]
  · next h =>
    constructor
    · exact fun hi => ⟨hi, fun hii => h (hii ▸ hi)⟩
    · exact fun hi => hi.1

theorem InStep.close (h : b.InStep) (id : SessionId) : (b.close id).InStep := by
  intro i
  rw [isOpen_close, h]
  unfold Broker.close
  split
  · rw [Engine.connected_disconnect]
    simp
  · next hid =>
    constructor
    · exact fun hi => hi.1
    · exact fun hi => ⟨hi, fun hii => hid ((h id).mpr (hii ▸ hi))⟩

theorem works_stop (b : Broker σ) : b.engine.Works b.stop.engine := by
  suffices h : ∀ (ids : List SessionId) (b : Broker σ),
      b.engine.Works (ids.foldl Broker.close b).engine from h b.streams.keys b
  intro ids
  induction ids with
  | nil => exact fun b => .refl b.engine
  | cons id ids ih => exact fun b => (works_close b id).trans (ih (b.close id))

theorem InStep.stop (h : b.InStep) : b.stop.InStep := by
  suffices hids : ∀ (ids : List SessionId) (b : Broker σ), b.InStep →
      (ids.foldl Broker.close b).InStep from hids b.streams.keys b h
  intro ids
  induction ids with
  | nil => exact fun _ h => h
  | cons id ids ih => exact fun b h => ih (b.close id) (h.close id)

/-- What is done about one event: the reaction of the engine, and perhaps connections are closed. -/
theorem react_singleton (b : Broker σ) (id : SessionId) (event : Event) :
    ∃ r engine, b.engine.react b.sessionName id event = (r, engine) ∧
      (b.react id [event]).1 = r.reply.toList ∧
      (b.react id [event]).2 =
        if r.stops then ({ b with engine }.close id).stop
        else if r.closes then { b with engine }.close id else { b with engine } := by
  rcases h : b.engine.react b.sessionName id event with ⟨r, engine⟩
  refine ⟨r, engine, rfl, ?_⟩
  simp only [react, h]
  split
  · exact ⟨rfl, rfl⟩
  · split
    · exact ⟨rfl, rfl⟩
    · exact ⟨List.append_nil _, rfl⟩

omit [JobStore σ] in
theorem InStep.accept (h : b.InStep) (peer : String) : (b.accept peer).2.InStep := by
  intro i
  show ((b.streams.insert b.engine.sessions.size _).get? i).isSome = true ↔
    i ∈ (Engine.connect _ _).connected
  rw [Engine.mem_connected_connect, Table.get?_insert]
  split
  · next hi => simp [← hi]
  · next hi =>
    refine (h i).trans ⟨.inl, ?_⟩
    exact fun hi' => hi'.resolve_right (Ne.symm hi)

theorem InStep.react (h : b.InStep) {id : SessionId} (hid : id ∈ b.engine.connected)
    (event : Event) : (b.react id [event]).2.InStep := by
  obtain ⟨r, engine, hreact, -, hb⟩ := react_singleton b id event
  have hconnected : engine.connected = b.engine.connected := by
    cases hj : event.submission? with
    | none =>
      have hinner := (Engine.react_of_no_submission hj hid b.sessionName).2
      rw [hreact] at hinner
      exact hinner.connected
    | some j =>
      rw [Engine.react_of_submission hj] at hreact
      obtain ⟨-, rfl⟩ := Prod.mk.inj hreact
      rw [Engine.answerSubmission_eq]
      exact Engine.connected_act _ rfl
  have hstep : ({ b with engine } : Broker σ).InStep := h.congr rfl hconnected
  rw [hb]
  split
  · exact (hstep.close id).stop
  · split
    · exact hstep.close id
    · exact hstep

theorem InStep.happen (h : b.InStep) (x : Happening σ) : (b.happen x).2.InStep := by
  cases x with
  | accept peer => exact h.accept peer
  | read id event =>
    simp only [Broker.happen]
    split
    · next hid => exact h.react ((h id).mp hid) event
    · exact h
  | push id =>
    simp only [Broker.happen, push]
    split
    · split
      · exact h
      · exact h.congr rfl rfl
    · exact h
  | hangUp id => exact h.close id
  | elapse seconds =>
    exact h.congr rfl (Engine.works_wakes _ (b.engine.act (.elapse seconds))).2
  | setClock now => exact h.congr rfl rfl
  | hear event => exact h.congr rfl (Engine.connected_act (a := .hear event) b.engine rfl)
  | alterStore change => exact h.congr rfl rfl

/-- A frame is either a submission, which does nothing else, or it is answered after all work on it
is done. -/
theorem react_emits {id : SessionId} (hid : id ∈ b.engine.connected) (event : Event) :
    ∃ e, b.engine.Works e ∧
      e.Emits [.answered id event (b.react id [event]).1] (b.react id [event]).2.engine := by
  obtain ⟨r, engine, hreact, hreply, hb⟩ := react_singleton b id event
  rw [hreply, hb]
  cases hj : event.submission? with
  | some j =>
    rw [Engine.react_of_submission hj] at hreact
    obtain ⟨rfl, rfl⟩ := Prod.mk.inj hreact
    exact ⟨b.engine, .refl _, .submit hid hj⟩
  | none =>
    have hother := Engine.react_of_no_submission hj hid b.sessionName
    rw [hreact] at hother
    refine ⟨_, hother.2.works.trans ?_, .reply hother.1⟩
    split
    · exact (works_close { b with engine } id).trans (works_stop _)
    · split
      · exact works_close { b with engine } id
      · exact .refl _

/-- Whatever happens to a broker is done by actions of the engine, and one exchange at most. -/
theorem happen_emits (h : b.InStep) (x : Happening σ) :
    ∃ e, b.engine.Works e ∧ e.Emits (b.happen x).1 (b.happen x).2.engine := by
  cases x with
  | accept peer =>
    have harrive : b.engine.Works (b.engine.act (.arrive peer)) :=
      .single (a := .arrive peer) trivial rfl
    have hsession : ((b.engine.act (.arrive peer)).session? b.engine.sessions.size).isSome := by
      show (Table.get? (Table.insert _ _ _) _).isSome
      rw [Table.get?_insert, if_pos rfl]
      rfl
    have hconnect := Engine.Works.single (a := .connect b.engine.sessions.size) hsession rfl
    exact ⟨_, harrive.trans hconnect, .nothing⟩
  | read id event =>
    simp only [Broker.happen]
    split
    · next hid => exact react_emits ((h id).mp hid) event
    · exact ⟨_, .refl _, .nothing⟩
  | push id =>
    simp only [Broker.happen, push]
    split
    · split
      · exact ⟨_, .refl _, .nothing⟩
      · next hps => exact ⟨_, .refl _, .push hps⟩
    · exact ⟨_, .refl _, .nothing⟩
  | hangUp id => exact ⟨_, works_close b id, .nothing⟩
  | elapse seconds =>
    have hclock : b.engine.Works (b.engine.act (.elapse seconds)) :=
      .single (a := .elapse seconds) trivial rfl
    exact ⟨_, hclock.trans (Engine.works_wakes _ _).1, .nothing⟩
  | setClock now => exact ⟨_, .single (a := .setClock now) trivial rfl, .nothing⟩
  | hear event => exact ⟨_, .single (a := .hear event) trivial rfl, .nothing⟩
  | alterStore change => exact ⟨_, .single (a := .alterStore change) trivial rfl, .nothing⟩

/-! ### Octets and whole outboxes -/

theorem isOpen_of_stop {id : SessionId} (h : b.stop.isOpen id = true) : b.isOpen id = true := by
  suffices hids : ∀ (ids : List SessionId) (b : Broker σ),
      (ids.foldl close b).isOpen id = true → b.isOpen id = true from hids b.streams.keys b h
  intro ids
  induction ids with
  | nil => exact fun _ h => h
  | cons i ids ih => exact fun b h => ((isOpen_close b i id).mp (ih (b.close i) h)).1

/-- After an event the rest is reacted to, unless the connection is closed. -/
theorem react_cons (b : Broker σ) {id : SessionId} (hid : b.isOpen id = true) (event : Event)
    (events : List Event) : b.react id (event :: events) =
      if (b.react id [event]).2.isOpen id then
        ((b.react id [event]).1 ++ ((b.react id [event]).2.react id events).1,
          ((b.react id [event]).2.react id events).2)
      else b.react id [event] := by
  rcases h : b.engine.react b.sessionName id event with ⟨r, engine⟩
  have hclosed : ({ b with engine }.close id).isOpen id ≠ true := fun h =>
    ((isOpen_close _ id id).mp h).2 rfl
  have hopen : isOpen { b with engine } id = true := hid
  simp only [react, h]
  by_cases hstops : r.stops
  · simp only [hstops, if_true]
    rw [if_neg fun h => hclosed (isOpen_of_stop h)]
  · by_cases hcloses : r.closes
    · simp only [hstops, hcloses, Bool.false_eq_true, if_true, if_false, if_neg hclosed]
    · simp only [hstops, hcloses, Bool.false_eq_true, if_false, if_pos hopen, List.append_nil]

theorem run_read_of_not_isOpen {id : SessionId} (hid : b.isOpen id ≠ true) (events : List Event) :
    b.run (events.map (.read id)) = ([], b) := by
  induction events with
  | nil => rfl
  | cons event events ih => simp [run, happen, hid, ih]

/-- To react to the events of a connection is to read them one by one. -/
theorem react_eq_run {id : SessionId} (hid : b.isOpen id = true) (events : List Event) :
    b.react id events = ((b.run (events.map (.read id))).1.flatMap Exchange.frames,
      (b.run (events.map (.read id))).2) := by
  induction events generalizing b with
  | nil => rfl
  | cons event events ih =>
    rw [react_cons b hid]
    simp only [List.map_cons, run, happen, hid, if_true, List.flatMap_append]
    split
    · next hopen => rw [ih hopen]; simp [Exchange.frames]
    · next hclosed => simp [run_read_of_not_isOpen hclosed, Exchange.frames]

/-- To take in octets is to read the frames in them one by one. -/
theorem receive_eq_run {id : SessionId} {d : Decoder} (hd : b.streams.get? id = some d)
    (bytes : Bytes) :
    b.receive id bytes =
      let (events, d) := (d.feed bytes).drain
      let (exchanges, b) :=
        { b with streams := b.streams.insert id d }.run (events.map (.read id))
      (exchanges.flatMap Exchange.frames, b) := by
  have hopen :
      isOpen { b with streams := b.streams.insert id (d.feed bytes).drain.2 } id = true := by
    show ((b.streams.insert id _).get? id).isSome = true
    rw [Table.get?_insert, if_pos rfl]
    rfl
  simp only [receive, hd]
  exact react_eq_run hopen _

/-- To empty an outbox is to write its packets one by one. -/
theorem flush_eq_run {id : SessionId} (hid : b.isOpen id = true) {ps : List Packet}
    (hps : b.engine.outbox id = ps) :
    b.flush id =
      ((b.run (List.replicate ps.length (.push id))).1.flatMap (Exchange.packetsTo id),
        (b.run (List.replicate ps.length (.push id))).2) := by
  have hflush : ∀ {b : Broker σ}, b.isOpen id = true →
      b.flush id = (b.engine.outbox id, { b with engine := b.engine.setOutbox id [] }) :=
    fun hid => if_pos hid
  induction ps generalizing b with
  | nil =>
    have hsame : b.engine.setOutbox id [] = b.engine := Engine.setOutbox_self hps
    rw [hflush hid, hps, hsame]
    rfl
  | cons p ps ih =>
    obtain ⟨b₁, hb₁⟩ : ∃ b₁ : Broker σ, { b with engine := b.engine.setOutbox id ps } = b₁ :=
      ⟨_, rfl⟩
    have hpush : b.happen (.push id) = ([.pushed id p], b₁) := by
      simp [happen, push, hid, hps, hb₁]
    have hid₁ : b₁.isOpen id = true := hb₁ ▸ hid
    have hrest : b₁.engine.outbox id = ps := by
      rw [← hb₁, Engine.outbox_setOutbox hps, if_pos rfl]
    have hempty : { b₁ with engine := b₁.engine.setOutbox id [] } =
        { b with engine := b.engine.setOutbox id [] } := by
      rw [← hb₁, Engine.setOutbox_setOutbox]
    obtain ⟨hframes, hend⟩ := Prod.mk.inj ((hflush hid₁).symm.trans (ih hid₁ hrest))
    rw [hflush hid, hps, List.length_cons, List.replicate_succ]
    simp only [run, hpush, List.flatMap_append, ← hframes, ← hend, hrest, hempty]
    simp [Exchange.packetsTo]

end Broker

end JobBroker
