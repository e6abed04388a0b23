import JobBroker.Proofs.Broker.Owed
import JobBroker.Proofs.Frame.Units
import JobBroker.Store.Memory

/-!
# Requests and replies

A peer sends octets as it likes, many requests before the first reply, and what else happens to the
broker happens in between. The replies on its connection come in the order of the units in what it
has sent, for each unit those that are owed for it, and none besides.

* `Broker.occur` : one thing that occurs, octets and whole outboxes among them.
* `Broker.dialogue` : the units that a connection handles, with the replies to each.
* `Heard.occur` : how far a connection has come in its stream is known after whatever occurs.
* `accounted_occurAll` : all replies are accounted for by units of the stream, and all units by
  replies as long as the connection is open.
-/

namespace JobBroker

open Text (decimal)

open Relation (ReflTransGen)

/-- What may occur to a broker, with streams as they come and outboxes as they are emptied. -/
inductive Occurrence (σ : Type)
  | accept (peer : String)
  | octets (id : SessionId) (bytes : Bytes)
  | flush (id : SessionId)
  | hangUp (id : SessionId)
  | elapse (seconds : Nat)
  | setClock (now : Int64)
  | hear (event : PeerEvent)
  | alterStore (change : σ → σ)

/-- What a peer sends on its connection. -/
def Occurrence.sent {σ : Type} (id : SessionId) : Occurrence σ → Bytes
  | .octets i bytes => if i = id then bytes else []
  | _ => []

/-- The stream of a connection. -/
def sentOn {σ : Type} (id : SessionId) (os : List (Occurrence σ)) : Bytes :=
  os.flatMap (Occurrence.sent id)

/-- The units in the octets of a stream, up to the first that is fatal. -/
def unitsIn (limits : Limits) (bytes : Bytes) : List Event :=
  ((Decoder.new limits).feed bytes).drain.1

/-- A connection reacts to one unit. -/
structure Turn (σ : Type) where
  before : Broker σ
  event : Event
  reply : List Frame
  after : Broker σ

namespace Broker

variable {σ : Type} [JobStore σ]

def occur (b : Broker σ) : Occurrence σ → Broker σ
  | .accept peer => (b.accept peer).2
  | .octets id bytes => (b.receive id bytes).2
  | .flush id => (b.flush id).2
  | .hangUp id => b.hangUp id
  | .elapse seconds => b.elapse seconds
  | .setClock now => b.act (.setClock now)
  | .hear event => b.act (.hear event)
  | .alterStore change => b.act (.alterStore change)

def occurAll (b : Broker σ) (os : List (Occurrence σ)) : Broker σ := os.foldl occur b

/-- What is written on a connection in answer to what its peer sends. -/
def replies (b : Broker σ) (id : SessionId) : List (Occurrence σ) → List Frame
  | [] => []
  | .octets i bytes :: os =>
    (if i = id then (b.receive i bytes).1 else []) ++ (b.receive i bytes).2.replies id os
  | o :: os => (b.occur o).replies id os

/-- The turns in which a connection reacts to units, until it is closed. -/
def turns (b : Broker σ) (id : SessionId) : List Event → List (Turn σ)
  | [] => []
  | event :: events =>
    ⟨b, event, (b.react id [event]).1, (b.react id [event]).2⟩ ::
      if (b.react id [event]).2.isOpen id then (b.react id [event]).2.turns id events else []

/-- The turns of a connection when something occurs. -/
def turnsOf (b : Broker σ) (id : SessionId) : Occurrence σ → List (Turn σ)
  | .octets i bytes =>
    if i = id then
      match b.streams.get? id with
      | none => []
      | some d =>
        { b with streams := b.streams.insert id (d.feed bytes).drain.2 }.turns id
          (d.feed bytes).drain.1
    else []
  | _ => []

/-- All turns of a connection, each at the broker as it is by then. -/
def dialogue (b : Broker σ) (id : SessionId) : List (Occurrence σ) → List (Turn σ)
  | [] => []
  | o :: os => b.turnsOf id o ++ (b.occur o).dialogue id os

end Broker

/-! ### Numbers of sessions -/

theorem Watch.Turn.mem_roll {w w' : Watch} (h : w.Turn w') {i : SessionId} (hi : i ∈ w.roll) :
    i ∈ w'.roll := by
  cases h with
  | arrive => exact List.mem_append_left _ hi
  | _ => exact hi

theorem Watch.mem_roll_of_turns {w w' : Watch} (h : ReflTransGen Watch.Turn w w') {i : SessionId}
    (hi : i ∈ w.roll) : i ∈ w'.roll := by
  induction h with
  | refl => exact hi
  | tail _ hturn ih => exact hturn.mem_roll ih

namespace Engine

variable {σ : Type} [JobStore σ] {e : Engine σ} {id : SessionId}

/-- The session has begun, so that its number is not given again. -/
structure Knows (e : Engine σ) (id : SessionId) : Prop where
  tended : e.watch.Tended
  mem_roll : id ∈ e.watch.roll

theorem Knows.act (h : e.Knows id) (a : Action σ) : (e.act a).Knows id := by
  refine ⟨tended_act h.tended a, ?_⟩
  by_cases hlearn : ∃ i f timeout, a = .canDo i f timeout
  · obtain ⟨i, f, timeout, rfl⟩ := hlearn
    have hwatch : (e.act (.canDo i f timeout)).watch = _ := watch_addAbility e i f timeout
    rw [hwatch]
    split <;> exact h.mem_roll
  by_cases hclock : ∃ now, a = .setClock now
  · obtain ⟨now, rfl⟩ := hclock
    exact h.mem_roll
  · exact Watch.mem_roll_of_turns (turns_act h.tended.roll_lt
      (fun now ha => absurd ⟨now, ha⟩ hclock) fun i f timeout ha => hlearn ⟨i, f, timeout, ha⟩)
      h.mem_roll

omit [JobStore σ] in
theorem watch_setOutbox (e : Engine σ) (i : SessionId) (ps : List Packet) :
    (e.setOutbox i ps).watch = e.watch :=
  watch_modifySession_of_eq e i (fun _ => rfl) fun _ => rfl

omit [JobStore σ] in
theorem Knows.ne_size (h : e.Knows id) : e.sessions.size ≠ id := by
  have hlt := h.tended.roll_lt id h.mem_roll
  have hsize : e.watch.roll.length = e.sessions.size := List.length_map ..
  exact (hsize ▸ hlt).ne'

end Engine

namespace Broker

variable {σ : Type} [JobStore σ] {b : Broker σ} {id i : SessionId} {o : Occurrence σ}

theorem receive_of_get? {d : Decoder} (hd : b.streams.get? i = some d) (bytes : Bytes) :
    b.receive i bytes =
      { b with streams := b.streams.insert i (d.feed bytes).drain.2 }.react i
        (d.feed bytes).drain.1 := by
  simp only [receive, hd]

/-! ### What is kept by all that occurs -/

section Kept

variable {P : Engine σ → Prop} (hact : ∀ e a, P e → P (e.act a))
include hact

theorem reactAll_of_act (h : P b.engine) (i : SessionId) (events : List Event) :
    P (b.react i events).2.engine := by
  have hclose : ∀ e j, P e → P (e.act (.disconnect j)) := fun e j => hact e _
  induction events generalizing b with
  | nil => exact h
  | cons event events ih =>
    rcases hreact : b.engine.react b.sessionName i event with ⟨r, engine⟩
    have hengine : P engine := by
      have hsnd := Engine.react_snd b.engine b.sessionName i event
      rw [hreact] at hsnd
      rw [show engine = _ from hsnd]
      cases event.action? i with
      | none => exact h
      | some a => exact hact _ a h
    simp only [react, hreact]
    split
    · exact stop_of_act hclose (close_of_act (hclose · i) hengine)
    · split
      · exact close_of_act (hclose · i) hengine
      · exact ih (b := { b with engine }) hengine

theorem occur_of_act (hflush : ∀ e i, P e → P (e.setOutbox i [])) (h : P b.engine)
    (o : Occurrence σ) : P (b.occur o).engine := by
  have hhappen : ∀ x : Happening σ, (∀ i, x ≠ .push i) → P (b.happen x).2.engine := fun x hx =>
    happen_of_act (fun e a _ => hact e a) (fun i _ _ hpush => absurd hpush (hx i)) h
  cases o with
  | octets i bytes =>
    show P (b.receive i bytes).2.engine
    cases hd : b.streams.get? i with
    | none => simpa only [receive, hd] using h
    | some d =>
      rw [receive_of_get? hd]
      exact reactAll_of_act hact (b := { b with streams := b.streams.insert i _ }) h i _
  | flush i =>
    show P (b.flush i).2.engine
    unfold flush
    split
    · exact hflush _ i h
    · exact h
  | accept peer => exact hhappen (.accept peer) (by simp)
  | hangUp i => exact hhappen (.hangUp i) (by simp)
  | elapse seconds => exact hhappen (.elapse seconds) (by simp)
  | setClock now => exact hhappen (.setClock now) (by simp)
  | hear event => exact hhappen (.hear event) (by simp)
  | alterStore change => exact hhappen (.alterStore change) (by simp)

end Kept

theorem knows_occur (h : b.engine.Knows id) (o : Occurrence σ) : (b.occur o).engine.Knows id := by
  refine occur_of_act (P := (·.Knows id)) (fun _ a he => he.act a) (fun e i he => ?_) h o
  exact ⟨Engine.watch_setOutbox e i [] ▸ he.tended, Engine.watch_setOutbox e i [] ▸ he.mem_roll⟩

/-! ### Streams -/

/-- A connection that is open has been open before, with the same decoder. -/
def Retains (b b' : Broker σ) (id : SessionId) : Prop :=
  ∀ d, b'.streams.get? id = some d → b.streams.get? id = some d

theorem retains_close (b : Broker σ) (i id : SessionId) : b.Retains (b.close i) id := by
  intro d hd
  unfold close at hd
  split at hd
  · rw [Table.get?_erase] at hd
    split at hd
    · exact absurd hd (by simp)
    · exact hd
  · exact hd

theorem retains_stop (b : Broker σ) (id : SessionId) : b.Retains b.stop id := by
  suffices hids : ∀ (ids : List SessionId) (b : Broker σ), b.Retains (ids.foldl close b) id from
    hids b.streams.keys b
  intro ids
  induction ids with
  | nil => exact fun _ _ hd => hd
  | cons i ids ih => exact fun b d hd => retains_close b i id d (ih (b.close i) d hd)

theorem retains_react (b : Broker σ) (i id : SessionId) (events : List Event) :
    b.Retains (b.react i events).2 id := by
  induction events generalizing b with
  | nil => exact fun _ hd => hd
  | cons event events ih =>
    rcases hreact : b.engine.react b.sessionName i event with ⟨r, engine⟩
    intro d hd
    simp only [react, hreact] at hd
    split at hd
    · exact retains_close { b with engine } i id d (retains_stop _ id d hd)
    · split at hd
      · exact retains_close { b with engine } i id d hd
      · exact ih { b with engine } d hd

/-- Nothing but what its own peer sends takes a decoder on. -/
theorem retains_occur (h : b.engine.Knows id) (ho : ∀ bytes, o ≠ .octets id bytes) :
    b.Retains (b.occur o) id := by
  intro d hd
  cases o with
  | octets i bytes =>
    have hne : i ≠ id := fun hi => ho bytes (hi ▸ rfl)
    cases hi : b.streams.get? i with
    | none =>
      have hsame : (b.receive i bytes).2 = b := by simp only [receive, hi]
      exact hsame ▸ hd
    | some d' =>
      replace hd : (b.receive i bytes).2.streams.get? id = some d := hd
      rw [receive_of_get? hi] at hd
      have hbefore : (b.streams.insert i _).get? id = some d := retains_react _ i id _ d hd
      rwa [Table.get?_insert, if_neg hne] at hbefore
  | accept peer =>
    have hinsert : (b.streams.insert b.engine.sessions.size _).get? id = some d := hd
    rwa [Table.get?_insert, if_neg h.ne_size] at hinsert
  | flush i =>
    have hsame : (b.flush i).2.streams = b.streams := by
      unfold flush
      split <;> rfl
    exact hsame ▸ hd
  | hangUp i => exact retains_close b i id d hd
  | elapse | setClock | hear | alterStore => exact hd

/-! ### Why a connection is closed -/

theorem isStopped_close (b : Broker σ) (i : SessionId) : (b.close i).isStopped = b.isStopped := by
  unfold close
  split <;> rfl

theorem isStopped_react (h : b.isStopped = true) (i : SessionId) (events : List Event) :
    (b.react i events).2.isStopped = true := by
  induction events generalizing b with
  | nil => exact h
  | cons event events ih =>
    rcases hreact : b.engine.react b.sessionName i event with ⟨r, engine⟩
    simp only [react, hreact]
    split
    · rfl
    · split
      · exact (isStopped_close { b with engine } i).trans h
      · exact ih (b := { b with engine }) h

theorem isStopped_occur (h : b.isStopped = true) (o : Occurrence σ) :
    (b.occur o).isStopped = true := by
  cases o with
  | octets i bytes =>
    show (b.receive i bytes).2.isStopped = true
    cases hd : b.streams.get? i with
    | none => simpa only [receive, hd] using h
    | some d =>
      rw [receive_of_get? hd]
      exact isStopped_react (b := { b with streams := b.streams.insert i _ }) h i _
  | flush i =>
    show (b.flush i).2.isStopped = true
    unfold flush
    split <;> exact h
  | hangUp i => exact (isStopped_close b i).trans h
  | accept | elapse | setClock | hear | alterStore => exact h

/-- While units are handled, a connection is closed only with the broker, or for a unit of its own
stream. -/
theorem isOpen_react (h : b.isOpen id = true) (i : SessionId) (events : List Event) :
    (b.react i events).2.isOpen id = true ∨ (b.react i events).2.isStopped = true ∨
      i = id ∧ events.any Event.isFatal = true := by
  induction events generalizing b with
  | nil => exact .inl h
  | cons event events ih =>
    rcases hreact : b.engine.react b.sessionName i event with ⟨r, engine⟩
    have hcloses := Engine.react_closes b.engine b.sessionName i event
    rw [hreact] at hcloses
    simp only [react, hreact]
    split
    · exact .inr (.inl rfl)
    · next hstops =>
      split
      · next hclosed =>
        by_cases hi : i = id
        · have hfatal : event.isFatal = true := (hcloses.mp hclosed).resolve_right hstops
          exact .inr (.inr ⟨hi, by simp [hfatal]⟩)
        · exact .inl ((isOpen_close { b with engine } i id).mpr ⟨h, Ne.symm hi⟩)
      · rcases ih (b := { b with engine }) h with hopen | hstopped | ⟨hi, hfatal⟩
        · exact .inl hopen
        · exact .inr (.inl hstopped)
        · exact .inr (.inr ⟨hi, by simp [hfatal]⟩)

theorem isOpen_occur (h : b.isOpen id = true) (ho : ∀ bytes, o ≠ .octets id bytes) :
    (b.occur o).isOpen id = true ∨ (b.occur o).isStopped = true ∨ o = .hangUp id := by
  cases o with
  | octets i bytes =>
    have hne : i ≠ id := fun hi => ho bytes (hi ▸ rfl)
    show (b.receive i bytes).2.isOpen id = true ∨ (b.receive i bytes).2.isStopped = true ∨ _
    cases hd : b.streams.get? i with
    | none => exact .inl (by simpa only [receive, hd] using h)
    | some d =>
      have hopen : ({ b with streams := b.streams.insert i (d.feed bytes).drain.2 } :
          Broker σ).isOpen id = true := by
        show ((b.streams.insert i _).get? id).isSome = true
        rw [Table.get?_insert, if_neg hne]
        exact h
      rw [receive_of_get? hd]
      rcases isOpen_react hopen i (d.feed bytes).drain.1 with hopen | hstopped | ⟨hi, -⟩
      · exact .inl hopen
      · exact .inr (.inl hstopped)
      · exact absurd hi hne
  | accept peer =>
    refine .inl ?_
    show ((b.streams.insert b.engine.sessions.size _).get? id).isSome = true
    rw [Table.get?_insert]
    split
    · rfl
    · exact h
  | flush i =>
    refine .inl ?_
    show (b.flush i).2.isOpen id = true
    unfold flush
    split <;> exact h
  | hangUp i =>
    by_cases hi : i = id
    · exact .inr (.inr (hi ▸ rfl))
    · exact .inl ((isOpen_close b i id).mpr ⟨h, Ne.symm hi⟩)
  | elapse | setClock | hear | alterStore => exact .inl h

/-! ### Turns -/

/-- To react to units is to take the turns, to the end if the connection is still open. -/
theorem react_eq_turns (h : b.isOpen id = true) (events : List Event) :
    (b.react id events).1 = (b.turns id events).flatMap Turn.reply ∧
      (b.turns id events).map Turn.event <+: events ∧
      ((b.react id events).2.isOpen id = true → (b.turns id events).map Turn.event = events ∧
        events.any Event.isFatal = false) := by
  induction events generalizing b with
  | nil => exact ⟨rfl, List.nil_prefix, fun _ => ⟨rfl, rfl⟩⟩
  | cons event events ih =>
    rw [react_cons b h, turns]
    split
    · next hopen =>
      obtain ⟨hreplies, hprefix, hall⟩ := ih hopen
      refine ⟨?_, ?_, fun hend => ⟨?_, ?_⟩⟩
      · rw [List.flatMap_cons, hreplies]
      · rw [List.map_cons]
        exact List.cons_prefix_cons.mpr ⟨rfl, hprefix⟩
      · rw [List.map_cons, (hall hend).1]
      · have hfatal : event.isFatal = false := by
          refine Bool.eq_false_iff.mpr fun hfatal => ?_
          exact not_isOpen_of_isFatal hfatal hopen
        rw [List.any_cons, hfatal, (hall hend).2]
        rfl
    · next hclosed =>
      refine ⟨by simp, ?_, fun hend => absurd hend hclosed⟩
      exact List.cons_prefix_cons.mpr ⟨rfl, List.nil_prefix⟩

theorem mem_turns {events : List Event} {t : Turn σ} (ht : t ∈ b.turns id events) :
    t.before.react id [t.event] = (t.reply, t.after) := by
  induction events generalizing b with
  | nil => exact absurd ht List.not_mem_nil
  | cons event events ih =>
    rw [turns] at ht
    rcases List.mem_cons.mp ht with rfl | ht
    · rfl
    · split at ht
      · exact ih ht
      · exact absurd ht List.not_mem_nil

theorem mem_dialogue {os : List (Occurrence σ)} {t : Turn σ} (ht : t ∈ b.dialogue id os) :
    t.before.react id [t.event] = (t.reply, t.after) := by
  induction os generalizing b with
  | nil => exact absurd ht List.not_mem_nil
  | cons o os ih =>
    rcases List.mem_append.mp ht with ht | ht
    · unfold turnsOf at ht
      split at ht
      · split at ht
        · split at ht
          · exact absurd ht List.not_mem_nil
          · exact mem_turns ht
        · exact absurd ht List.not_mem_nil
      · exact absurd ht List.not_mem_nil
    · exact ih ht

omit [JobStore σ] in
theorem isOpen_insert (b : Broker σ) (id : SessionId) (d : Decoder) :
    ({ b with streams := b.streams.insert id d } : Broker σ).isOpen id = true := by
  show ((b.streams.insert id d).get? id).isSome = true
  rw [Table.get?_insert, if_pos rfl]
  rfl

theorem receive_eq_turnsOf (b : Broker σ) (id : SessionId) (bytes : Bytes) :
    (b.receive id bytes).1 = (b.turnsOf id (.octets id bytes)).flatMap Turn.reply := by
  simp only [receive, turnsOf, if_true]
  cases hd : b.streams.get? id with
  | none => rfl
  | some d => exact (react_eq_turns (isOpen_insert b id _) _).1

theorem replies_eq_dialogue (b : Broker σ) (id : SessionId) (os : List (Occurrence σ)) :
    b.replies id os = (b.dialogue id os).flatMap Turn.reply := by
  induction os generalizing b with
  | nil => rfl
  | cons o os ih =>
    rw [dialogue, List.flatMap_append, ← ih]
    cases o with
    | octets i bytes =>
      by_cases hi : i = id
      · subst hi
        rw [← receive_eq_turnsOf]
        simp only [replies, if_true]
        rfl
      · simp only [replies, turnsOf, if_neg hi]
        rfl
    | _ => rfl

/-! ### How far a connection has come -/

theorem unitsIn_prefix (limits : Limits) (bytes more : Bytes) :
    unitsIn limits bytes <+: unitsIn limits (bytes ++ more) := by
  rw [unitsIn, unitsIn, Decoder.feed_append]
  by_cases hfatal : ((Decoder.new limits).feed bytes).drain.1.any Event.isFatal = true
  · exact (Decoder.drain_feed_of_fatal hfatal more).symm ▸ List.prefix_rfl
  · rw [Decoder.drain_feed (Bool.eq_false_iff.mpr hfatal)]
    exact List.prefix_append _ _

/-- A connection has handled events, of the octets that have been sent on it. -/
structure Heard (b : Broker σ) (id : SessionId) (limits : Limits) (os : List (Occurrence σ))
    (events : List Event) : Prop where
  knows : b.engine.Knows id
  handled : events <+: unitsIn limits (sentOn id os)
  /-- An open connection has handled all, and its decoder has read all. -/
  ofOpen : ∀ d, b.streams.get? id = some d →
    d = ((Decoder.new limits).feed (sentOn id os)).drain.2 ∧
      (unitsIn limits (sentOn id os)).any Event.isFatal = false ∧
      events = unitsIn limits (sentOn id os)
  ofClosed : b.isOpen id = false → b.isStopped = true ∨ .hangUp id ∈ os ∨
    (unitsIn limits (sentOn id os)).any Event.isFatal = true

section Heard

variable {limits : Limits} {past : List (Occurrence σ)} {events : List Event}

theorem any_isFatal_mono {us vs : List Event} (h : us <+: vs)
    (hfatal : us.any Event.isFatal = true) : vs.any Event.isFatal = true := by
  obtain ⟨rest, rfl⟩ := h
  rw [List.any_append, hfatal, Bool.true_or]

/-- When something else occurs than that its peer sends, a connection stays where it is. -/
theorem Heard.occur_other (h : b.Heard id limits past events) (ho : ∀ bytes, o ≠ .octets id bytes) :
    (b.occur o).Heard id limits (past ++ [o]) events := by
  have hsent : sentOn id (past ++ [o]) = sentOn id past := by
    have hnone : o.sent id = [] := by
      cases o with
      | octets i bytes =>
        have hne : i ≠ id := fun hi => ho bytes (hi ▸ rfl)
        exact if_neg hne
      | _ => rfl
    simp [sentOn, hnone]
  exact {
    knows := knows_occur h.knows o
    handled := hsent ▸ h.handled
    ofOpen := by
      intro d hd
      rw [hsent]
      exact h.ofOpen d (retains_occur h.knows ho d hd)
    ofClosed := by
      intro hclosed
      rw [hsent]
      by_cases hopen : b.isOpen id = true
      · rcases isOpen_occur hopen ho with hopen' | hstopped | rfl
        · exact absurd (hclosed.symm.trans hopen') (by simp)
        · exact .inl hstopped
        · exact .inr (.inl (by simp))
      · rcases h.ofClosed (Bool.eq_false_iff.mpr hopen) with hstopped | hhung | hfatal
        · exact .inl (isStopped_occur hstopped o)
        · exact .inr (.inl (List.mem_append_left _ hhung))
        · exact .inr (.inr hfatal) }

/-- The units in what a peer sends are handled behind those before, until the connection is
closed. -/
theorem Heard.occur_octets (h : b.Heard id limits past events) (bytes : Bytes) :
    (b.occur (.octets id bytes)).Heard id limits (past ++ [.octets id bytes])
      (events ++ (b.turnsOf id (.octets id bytes)).map Turn.event) := by
  have hsent : sentOn id (past ++ [.octets id bytes]) = sentOn id past ++ bytes := by
    simp [sentOn, Occurrence.sent]
  have hknows : (b.receive id bytes).2.engine.Knows id := knows_occur h.knows (.octets id bytes)
  show (b.receive id bytes).2.Heard id limits _ _
  cases hd : b.streams.get? id with
  | none =>
    have hsame : (b.receive id bytes).2 = b := by simp only [receive, hd]
    have hturns : b.turnsOf id (.octets id bytes) = [] := by simp only [turnsOf, if_true, hd]
    have hunits := unitsIn_prefix limits (sentOn id past) bytes
    rw [hsame, hturns, List.map_nil, List.append_nil]
    exact {
      knows := h.knows
      handled := hsent ▸ h.handled.trans hunits
      ofOpen := fun d hd' => absurd (hd.symm.trans hd') (by simp)
      ofClosed := by
        intro hclosed
        rcases h.ofClosed hclosed with hstopped | hhung | hfatal
        · exact .inl hstopped
        · exact .inr (.inl (List.mem_append_left _ hhung))
        · exact .inr (.inr (hsent ▸ any_isFatal_mono hunits hfatal)) }
  | some d =>
    obtain ⟨hdecoder, hnofatal, hevents⟩ := h.ofOpen d hd
    obtain ⟨b₀, hb₀⟩ : ∃ b₀ : Broker σ,
        { b with streams := b.streams.insert id (d.feed bytes).drain.2 } = b₀ := ⟨_, rfl⟩
    have hopen : b₀.isOpen id = true := hb₀ ▸ isOpen_insert b id _
    have hget : b₀.streams.get? id = some (d.feed bytes).drain.2 := by
      rw [← hb₀]
      exact (Table.get?_insert ..).trans (if_pos rfl)
    have hreceive : b.receive id bytes = b₀.react id (d.feed bytes).drain.1 :=
      hb₀ ▸ receive_of_get? hd bytes
    have hturns : b.turnsOf id (.octets id bytes) = b₀.turns id (d.feed bytes).drain.1 := by
      simp only [turnsOf, if_true, hd, hb₀]
    -- what the decoder finds in the new octets stands behind what it has found
    have hdrain : ((Decoder.new limits).feed (sentOn id past ++ bytes)).drain =
        (events ++ (d.feed bytes).drain.1, (d.feed bytes).drain.2) := by
      rw [Decoder.feed_append, Decoder.drain_feed hnofatal, ← hdecoder, hevents]
      rfl
    have hunits : unitsIn limits (sentOn id past ++ bytes) =
        events ++ (d.feed bytes).drain.1 := congrArg Prod.fst hdrain
    obtain ⟨-, hprefix, hall⟩ := react_eq_turns hopen (d.feed bytes).drain.1
    rw [hreceive] at hknows
    rw [hreceive, hturns]
    exact {
      knows := hknows
      handled := by
        rw [hsent, hunits]
        exact (List.prefix_append_right_inj events).mpr hprefix
      ofOpen := by
        intro d' hd'
        have hstill : (b₀.react id (d.feed bytes).drain.1).2.isOpen id = true :=
          Option.isSome_of_eq_some hd'
        obtain rfl : (d.feed bytes).drain.2 = d' :=
          Option.some.inj (hget.symm.trans (retains_react b₀ id id _ d' hd'))
        obtain ⟨hhandled, hnofatal'⟩ := hall hstill
        rw [hsent, hunits, hhandled, List.any_append, hevents, hnofatal, hnofatal', hdrain]
        exact ⟨rfl, rfl, rfl⟩
      ofClosed := by
        intro hclosed
        rcases isOpen_react hopen id (d.feed bytes).drain.1 with hopen' | hstopped | ⟨-, hfatal⟩
        · exact absurd (hclosed.symm.trans hopen') (by simp)
        · exact .inl hstopped
        · refine .inr (.inr ?_)
          rw [hsent, hunits, List.any_append, hfatal, Bool.or_true] }

theorem Heard.occur (h : b.Heard id limits past events) (o : Occurrence σ) :
    (b.occur o).Heard id limits (past ++ [o]) (events ++ (b.turnsOf id o).map Turn.event) := by
  by_cases ho : ∃ bytes, o = .octets id bytes
  · obtain ⟨bytes, rfl⟩ := ho
    exact h.occur_octets bytes
  · have hnone : b.turnsOf id o = [] := by
      cases o with
      | octets i bytes =>
        have hne : i ≠ id := fun hi => ho ⟨bytes, hi ▸ rfl⟩
        exact if_neg hne
      | _ => rfl
    rw [hnone, List.map_nil, List.append_nil]
    exact h.occur_other fun bytes hbytes => ho ⟨bytes, hbytes⟩

theorem Heard.occurAll (h : b.Heard id limits past events) (os : List (Occurrence σ)) :
    (b.occurAll os).Heard id limits (past ++ os)
      (events ++ (b.dialogue id os).map Turn.event) := by
  induction os generalizing b past events with
  | nil => simpa [Broker.occurAll, dialogue] using h
  | cons o os ih =>
    have hrest := ih (h.occur o)
    rwa [List.append_assoc, List.append_assoc, ← List.map_append] at hrest

/-- A connection that has just been opened has heard nothing. -/
theorem heard_accept (hb : b.engine.watch.Tended) (peer : String) :
    (b.accept peer).2.Heard b.engine.sessions.size b.limits [] [] := by
  have hsize : b.engine.watch.roll.length = b.engine.sessions.size := List.length_map ..
  have hroll : b.engine.sessions.size ∈ (b.engine.act (.arrive peer)).watch.roll := by
    have hwatch : (b.engine.act (.arrive peer)).watch = b.engine.watch.arrive :=
      Engine.watch_newSession hb.roll_lt peer
    rw [hwatch]
    exact List.mem_append_right _ (List.mem_singleton.mpr hsize.symm)
  have hknows : (b.engine.act (.arrive peer)).Knows b.engine.sessions.size :=
    ⟨Engine.tended_act hb (.arrive peer), hroll⟩
  have hget : (b.accept peer).2.streams.get? b.engine.sessions.size = some (.new b.limits) :=
    (Table.get?_insert ..).trans (if_pos rfl)
  have hdrain : (Decoder.new b.limits).drain = ([], .new b.limits) :=
    Decoder.drain_of_wait (Decoder.step_new _)
  exact {
    knows := hknows.act (.connect b.engine.sessions.size)
    handled := List.nil_prefix
    ofOpen := by
      intro d hd
      obtain rfl := Option.some.inj (hget.symm.trans hd)
      simp [unitsIn, sentOn, hdrain]
    ofClosed := fun hclosed =>
      absurd (hclosed.symm.trans (Option.isSome_of_eq_some hget)) (by simp) }

end Heard

/-! ### Whole courses -/

/-- From now on the replies on a connection are those that are owed for the units of its stream. -/
structure Accounted (b : Broker σ) (id : SessionId) (limits : Limits) (os : List (Occurrence σ)) :
    Prop where
  replies : b.replies id os = (b.dialogue id os).flatMap Turn.reply
  handled : (b.dialogue id os).map Turn.event <+: unitsIn limits (sentOn id os)
  /-- A connection that is open has handled all units. -/
  all : (b.occurAll os).isOpen id = true →
    (b.dialogue id os).map Turn.event = unitsIn limits (sentOn id os)
  /-- What closes a connection is a unit that is fatal, its peer, or a stop of the whole broker. -/
  isOpen : (unitsIn limits (sentOn id os)).any Event.isFatal = false →
    .hangUp id ∉ os → (b.occurAll os).isStopped = false → (b.occurAll os).isOpen id = true
  owed : ∀ t ∈ b.dialogue id os,
    t.before.engine.Owed t.before.sessionName id t.event t.reply
  inert : ∀ t ∈ b.dialogue id os, t.event.isInert = true → t.after = t.before

theorem tended_start (settings : Settings) (store : σ) (now : Int64) (newId : Nat → String)
    (name : SessionId → String) : (start settings store now newId name).2.engine.watch.Tended :=
  (Engine.unmanned_start settings.engine store now newId false).load.1.wakeful.toTended

theorem tended_occurAll (hb : b.engine.watch.Tended) (os : List (Occurrence σ)) :
    (b.occurAll os).engine.watch.Tended := by
  induction os generalizing b with
  | nil => exact hb
  | cons o os ih =>
    refine ih (occur_of_act (P := fun e => e.watch.Tended) (fun _ a he => Engine.tended_act he a)
      (fun e i he => ?_) hb o)
    rw [Engine.watch_setOutbox]
    exact he

/-- Whatever has occurred to a broker and whatever occurs then, the replies on a connection that is
opened are, unit by unit of what its peer sends, those that are owed. -/
theorem accounted_occurAll (settings : Settings) (store : σ) (now : Int64)
    (newId : Nat → String) (name : SessionId → String) (past : List (Occurrence σ)) (peer : String)
    (os : List (Occurrence σ)) :
    let b := (start settings store now newId name).2.occurAll past
    (b.accept peer).2.Accounted (b.accept peer).1 b.limits os := by
  intro b
  have hheard := (heard_accept (tended_occurAll (tended_start settings store now newId name) past)
    peer).occurAll os
  exact {
    replies := replies_eq_dialogue _ _ os
    handled := hheard.handled
    all := by
      intro hopen
      obtain ⟨d, hd⟩ := Option.isSome_iff_exists.mp hopen
      exact (hheard.ofOpen d hd).2.2
    isOpen := by
      intro hnofatal hhung hstopped
      by_contra hclosed
      rcases hheard.ofClosed (Bool.eq_false_iff.mpr hclosed) with h | h | h
      · exact absurd (hstopped.symm.trans h) (by simp)
      · exact hhung h
      · exact absurd (hnofatal.symm.trans h) (by simp)
    owed := by
      intro t ht
      have hreply : (t.before.react _ [t.event]).1 = t.reply := congrArg Prod.fst (mem_dialogue ht)
      exact hreply ▸ owed_react t.before _ t.event
    inert := by
      intro t ht hinert
      have hafter : (t.before.react _ [t.event]).2 = t.after := congrArg Prod.snd (mem_dialogue ht)
      exact hafter.symm.trans (react_of_isInert hinert t.before _) }

/-- Octets that are cut inside a request, with another session that begins between the parts: each
request is answered in its turn, also behind one that is malformed. -/
theorem accounted_occurAll_pipelined :
    let b := (start .default MemoryStore.empty 0 decimal fun _ => "").2
    let malformed : Bytes := (StreamUnit.packet 0x00524551 5 [1]).toBytes
    let first : List Body := [.echoReq [7], .canDo "f", .noop, .submitJob .normal false "f" "u" [1]]
    let second : List Body := [.grabJobAll, .workData "H:localhost:2" [], .optionReq "x"]
    let bytes := first.flatMap (Packet.request · |>.toBytes) ++ malformed ++
      second.flatMap (Packet.request · |>.toBytes)
    let os : List (Occurrence MemoryStore) :=
      [.octets 0 (bytes.take 31), .accept "1.1.1.1:2", .octets 1 [120, 10],
        .octets 0 (bytes.drop 31)]
    (b.accept "1.1.1.1:1").2.Accounted 0 b.limits os ∧
      (b.accept "1.1.1.1:1").2.replies 0 os =
        ([.echoRes [7], .jobCreated "H:localhost:1", .error "ERR_PROTOCOL" "Unknown packet type: 5",
          .jobAssignAll "H:localhost:1" "f" "u" "" [1],
          .error "ERR_JOB_NOT_FOUND" "Job not found: H:localhost:2",
          .error "ERR_UNKNOWN_OPTION" "Unknown option: x"] : List Body).map
            (.packet <| .response ·) := by
  intro b malformed first second bytes os
  exact ⟨accounted_occurAll .default MemoryStore.empty 0 decimal (fun _ => "") [] "1.1.1.1:1" os,
    by decide +kernel⟩

end Broker

end JobBroker
