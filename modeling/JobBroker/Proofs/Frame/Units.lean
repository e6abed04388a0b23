import JobBroker.Proofs.Frame.Chunks

/-!
# Streams of whole units

A stream that keeps to the protocol is made of packets within the limit and of lines within theirs.
The decoder takes such a unit off its buffer and stands before what follows as if the stream began
there (`drain_feed_unit`), whether or not it could make sense of the unit.

* `ofParts_of_drain` : a packet that is found in a stream was read from some header and payload.
* `readChunks_units` : a stream of units is read as one event for each unit but for blank lines, and
  a unit that is refused leaves no trace in what is read after it.
-/

namespace JobBroker

/-! ### Errors inside a packet -/

/-- What is wrong inside a packet is known when the packet has been taken off the stream. -/
theorem Layout.isFatal_of_read {kind : Kind} {l : Layout} {bytes : Bytes} {err : ProtocolError}
    (h : l.read kind bytes = .error err) : err.isFatal = false := by
  have hfield : ∀ {f : Field} {bytes : Bytes}, readField kind f bytes = .error err →
      err.isFatal = false := by
    intro f bytes h
    unfold readField at h
    split at h <;> simp at h <;> simp [← h, ProtocolError.isFatal]
  fun_induction Layout.read kind l bytes with
  | case1 => simp at h
  | case2 f bytes =>
    cases hf : readField kind f bytes with
    | error e =>
      obtain rfl : e = err := by simpa [hf, Except.map] using h
      exact hfield hf
    | ok v => simp [hf, Except.map] at h
  | case3 => simp at h; simp [← h, ProtocolError.isFatal]
  | case4 f g fs bytes head rest hc ih =>
    cases hf : readField kind f head with
    | error e =>
      obtain rfl : e = err := by simpa [hf, bind, Except.bind] using h
      exact hfield hf
    | ok v =>
      cases hfs : Layout.read kind (g :: fs) rest with
      | error e =>
        obtain rfl : e = err := by simpa [hf, hfs, bind, Except.bind] using h
        exact ih hfs
      | ok vs => simp [hf, hfs, bind, Except.bind, pure, Except.pure] at h

theorem Packet.isFatal_of_ofParts {magic kind : UInt32} {payload : Bytes} {err : ProtocolError}
    (h : ofParts magic kind payload = .error err) : err.isFatal = false := by
  unfold ofParts at h
  split at h
  · simp at h; simp [← h, ProtocolError.isFatal]
  · split at h
    · simp at h; simp [← h, ProtocolError.isFatal]
    · next k _ =>
      cases hr : k.layout.read k payload with
      | error e =>
        obtain rfl : e = err := by simpa [Body.ofPayload, hr, Except.map] using h
        exact Layout.isFatal_of_read hr
      | ok v => simp [Body.ofPayload, hr, Except.map] at h

/-! ### Units -/

/-- A whole piece of a stream: a packet as the three parts that it is made of, whatever they say, or
a line without its end. -/
inductive StreamUnit
  | packet (magic kind : UInt32) (payload : Bytes)
  | line (text : Bytes)
deriving DecidableEq, Repr

namespace StreamUnit

def toBytes : StreamUnit → Bytes
  | packet magic kind payload =>
    Bytes.ofWord magic ++ Bytes.ofWord kind ++ Bytes.ofWord (UInt32.ofNat payload.length) ++ payload
  | line text => text ++ [10]

/-- The unit starts as units of its sort do, and is no longer than the limits allow. -/
def Fits (limits : Limits) : StreamUnit → Prop
  | packet magic _ payload =>
    magic.toNat < 16777216 ∧ payload.length ≤ limits.payload ∧ payload.length < UInt32.size
  | line text => text.head? ≠ some 0 ∧ 10 ∉ text ∧ text.length ≤ limits.line

instance (limits : Limits) : (u : StreamUnit) → Decidable (u.Fits limits)
  | packet .. | line .. => inferInstanceAs (Decidable (_ ∧ _ ∧ _))

/-- What the unit is read as, wherever it stands. -/
def event? : StreamUnit → Option Event
  | packet magic kind payload => some (.ofPacket (Packet.ofParts magic kind payload))
  | line text => (Frame.ofLine? text).map .frame

theorem isFatal_event {u : StreamUnit} {e : Event} (h : u.event? = some e) : e.isFatal = false := by
  cases u with
  | packet magic kind payload =>
    obtain rfl : Event.ofPacket (Packet.ofParts magic kind payload) = e := by
      simpa [event?] using h
    cases hp : Packet.ofParts magic kind payload with
    | error err => exact Packet.isFatal_of_ofParts hp
    | ok p => rfl
  | line text =>
    obtain ⟨f, -, rfl⟩ := Option.map_eq_some_iff.mp h
    rfl

end StreamUnit

/-! ### One unit -/

namespace Decoder

variable {limits : Limits}

theorem buffer_feed_new (limits : Limits) (bytes : Bytes) :
    (new limits).feed bytes = ⟨limits, .header, bytes⟩ := by simp [new, feed]

/-- The first octet of a packet is that of its magic word. -/
theorem step_feed_packet {magic kind : UInt32} {payload : Bytes}
    (h : (StreamUnit.packet magic kind payload).Fits limits) (rest : Bytes) :
    ((new limits).feed ((StreamUnit.packet magic kind payload).toBytes ++ rest)).step =
      .advance ⟨limits, .payload magic kind payload.length, payload ++ rest⟩ := by
  obtain ⟨hmagic, hlimit, hsize⟩ := h
  have hlength : (UInt32.ofNat payload.length).toNat = payload.length := by
    rw [UInt32.toNat_ofNat', Nat.mod_eq_of_lt hsize]
  have hheader : Packet.header? ((StreamUnit.packet magic kind payload).toBytes ++ rest) =
      some (magic, kind, payload.length, payload ++ rest) := by
    simp [StreamUnit.toBytes, Packet.header?, hlength]
  have hfirst : UInt8.ofNat (magic.toNat / 16777216) = 0 := by
    rw [Nat.div_eq_of_lt hmagic]
    rfl
  obtain ⟨tail, htail⟩ :
      ∃ tail, (StreamUnit.packet magic kind payload).toBytes ++ rest = 0 :: tail :=
    ⟨_, by rw [StreamUnit.toBytes, Bytes.ofWord, hfirst]; rfl⟩
  rw [buffer_feed_new]
  rw [htail] at hheader ⊢
  simp only [step, if_true, stepHeader, hheader, if_neg (Nat.not_lt.mpr hlimit)]

theorem step_payload (magic kind : UInt32) (payload rest : Bytes) :
    step ⟨limits, .payload magic kind payload.length, payload ++ rest⟩ =
      .emit (.ofPacket (Packet.ofParts magic kind payload)) ⟨limits, .header, rest⟩ := by
  simp [step]

theorem step_feed_line {text : Bytes} (h : (StreamUnit.line text).Fits limits) (rest : Bytes) :
    ((new limits).feed ((StreamUnit.line text).toBytes ++ rest)).step =
      match Frame.ofLine? text with
      | none => .advance ⟨limits, .header, rest⟩
      | some f => .emit (.frame f) ⟨limits, .header, rest⟩ := by
  obtain ⟨hfirst, hfree, hlimit⟩ := h
  have hcut : Bytes.cut 10 (text ++ 10 :: rest) = some (text, rest) :=
    Bytes.cut_eq_some_iff.mpr ⟨rfl, hfree⟩
  have hline : step ⟨limits, .header, text ++ 10 :: rest⟩ =
      stepLine ⟨limits, .header, text ++ 10 :: rest⟩ := by
    cases text with
    | nil => simp [step]
    | cons b text =>
      have hb : b ≠ 0 := by simpa using hfirst
      simp [step, hb]
  rw [buffer_feed_new, StreamUnit.toBytes, List.append_assoc, List.singleton_append, hline]
  cases hf : Frame.ofLine? text <;>
    simp only [stepLine, hcut, if_neg (Nat.not_lt.mpr hlimit), hf]

/-- A unit is taken off the buffer whole, and what is behind it is read as if it came first. -/
theorem drain_feed_unit {u : StreamUnit} (h : u.Fits limits) (rest : Bytes) :
    ((new limits).feed (u.toBytes ++ rest)).drain =
      (u.event?.toList ++ ((new limits).feed rest).drain.1, ((new limits).feed rest).drain.2) := by
  cases he : u.event? with
  | none =>
    -- only a blank line is no event
    cases u with
    | packet magic kind payload => simp [StreamUnit.event?] at he
    | line text =>
      have hline : Frame.ofLine? text = none := by simpa [StreamUnit.event?] using he
      have hstep := step_feed_line h rest
      rw [hline] at hstep
      rw [buffer_feed_new limits rest]
      exact drain_congr (next_of_advance hstep)
  | some e =>
    have hnext : ((new limits).feed (u.toBytes ++ rest)).next =
        (some e, (new limits).feed rest) := by
      rw [buffer_feed_new limits rest]
      cases u with
      | packet magic kind payload =>
        obtain rfl : Event.ofPacket (Packet.ofParts magic kind payload) = e := by
          simpa [StreamUnit.event?] using he
        rw [next_of_advance (step_feed_packet h rest), next_of_emit (step_payload ..)]
      | line text =>
        obtain ⟨f, hf, rfl⟩ := Option.map_eq_some_iff.mp he
        have hstep := step_feed_line h rest
        rw [hf] at hstep
        exact next_of_emit hstep
    rw [drain_of_next_some hnext, StreamUnit.isFatal_event he]
    rfl

/-! ### Packets that are read -/

section Read

variable {d d' : Decoder} {p : Packet}

theorem ofParts_of_step (h : d.step = .emit (.frame (.packet p)) d') :
    ∃ magic kind payload, Packet.ofParts magic kind payload = .ok p := by
  unfold step at h
  split at h
  · next magic kind length _ =>
    split at h
    · simp at h
    · obtain ⟨hevent, -⟩ := Step.emit.inj h
      cases hp : Packet.ofParts magic kind (d.buffer.take length) with
      | error err => simp [hp, Event.ofPacket] at hevent
      | ok q =>
        obtain rfl : q = p := by simpa [hp, Event.ofPacket] using hevent
        exact ⟨magic, kind, _, hp⟩
  · split at h
    · simp at h
    · split at h
      · unfold stepHeader at h
        split at h
        · simp at h
        · split at h <;> simp at h
      · unfold stepLine at h
        split at h
        · split at h <;> simp at h
        · split at h
          · simp at h
          · split at h
            · simp at h
            · next line _ _ f hf =>
              obtain ⟨hevent, -⟩ := Step.emit.inj h
              obtain rfl := Event.frame.inj hevent
              -- a line is read as text
              unfold Frame.ofLine? at hf
              split at hf <;> simp at hf

theorem ofParts_of_next (h : d.next = (some (.frame (.packet p)), d')) :
    ∃ magic kind payload, Packet.ofParts magic kind payload = .ok p := by
  fun_induction next d with
  | case1 d hs => simp at h
  | case2 d d₁ hs ih => exact ih h
  | case3 d e d₁ hs =>
    obtain ⟨rfl, rfl⟩ : e = .frame (.packet p) ∧ d₁ = d' := by simpa using h
    exact ofParts_of_step hs

/-- Each packet that is found in a stream is one that some header and payload are read as. -/
theorem ofParts_of_drain (h : .frame (.packet p) ∈ d.drain.1) :
    ∃ magic kind payload, Packet.ofParts magic kind payload = .ok p := by
  fun_induction drain d with
  | case1 d d' hn => exact absurd h List.not_mem_nil
  | case2 d e d' hn he =>
    obtain rfl := List.mem_singleton.mp h
    exact ofParts_of_next hn
  | case3 d e d' hn he ih =>
    rcases List.mem_cons.mp h with rfl | h
    · exact ofParts_of_next hn
    · exact ih h

end Read

/-! ### Streams of units -/

theorem drain_feed_units {us : List StreamUnit} (h : ∀ u ∈ us, u.Fits limits) (rest : Bytes) :
    ((new limits).feed (us.flatMap StreamUnit.toBytes ++ rest)).drain =
      (us.filterMap StreamUnit.event? ++ ((new limits).feed rest).drain.1,
        ((new limits).feed rest).drain.2) := by
  induction us with
  | nil => rfl
  | cons u us ih =>
    rw [List.flatMap_cons, List.append_assoc, drain_feed_unit (h u (by simp)),
      ih fun u' hu' => h u' (List.mem_cons_of_mem u hu'), List.filterMap_cons]
    cases u.event? <;> rfl

theorem isFatal_of_units {us : List StreamUnit} :
    ∀ e ∈ us.filterMap StreamUnit.event?, e.isFatal = false := by
  intro e he
  obtain ⟨u, -, hu⟩ := List.mem_filterMap.mp he
  exact StreamUnit.isFatal_event hu

theorem readChunks_of_units {us : List StreamUnit} (h : ∀ u ∈ us, u.Fits limits) {cs : List Bytes}
    (hcs : cs.flatten = us.flatMap StreamUnit.toBytes) :
    (new limits).readChunks cs = (us.filterMap StreamUnit.event?, new limits) := by
  have hdrain : ((new limits).feed cs.flatten).drain =
      (us.filterMap StreamUnit.event?, new limits) := by
    have := drain_feed_units h []
    rwa [List.append_nil, ← hcs, feed_nil, drain_of_wait (step_new limits), List.append_nil] at this
  obtain ⟨hevents, hend⟩ := readChunks_eq_drain (step_new limits) cs
  rw [hdrain] at hevents hend
  refine Prod.ext hevents (hend ?_)
  rw [hevents, List.any_eq_false]
  exact fun e he => by simp [isFatal_of_units e he]

/-- A stream of units, however it is cut, is read to its end as one event for each unit but for
blank lines, none of them fatal, and leaves the decoder as it was at the start. Behind a packet that
is refused comes what a decoder finds that starts there. -/
theorem readChunks_units {us : List StreamUnit} (h : ∀ u ∈ us, u.Fits limits) {cs : List Bytes}
    (hcs : cs.flatten = us.flatMap StreamUnit.toBytes) :
    (new limits).readChunks cs = (us.filterMap StreamUnit.event?, new limits) ∧
      (∀ e ∈ us.filterMap StreamUnit.event?, e.isFatal = false) ∧
      ∀ before after magic kind payload err cs',
        us = before ++ .packet magic kind payload :: after →
        Packet.ofParts magic kind payload = .error err →
        cs'.flatten = after.flatMap StreamUnit.toBytes →
        ((new limits).readChunks cs).1 = before.filterMap StreamUnit.event? ++
          .error err :: ((new limits).readChunks cs').1 := by
  refine ⟨readChunks_of_units h hcs, isFatal_of_units, ?_⟩
  rintro before after magic kind payload err cs' rfl herr hcs'
  have hafter : ∀ u ∈ after, u.Fits limits := fun u hu => h u (by simp [hu])
  rw [readChunks_of_units h hcs, readChunks_of_units hafter hcs']
  simp [StreamUnit.event?, herr, Event.ofPacket]

/-- A packet of no known magic whose payload looks like a line and like a header, a blank line, a
packet without payload, a line, a packet of no known kind, and a number that is none. -/
theorem readChunks_units_refused :
    let us : List StreamUnit :=
      [.packet 1 7 [97, 10, 0, 0x52], .line [32], .packet 0x00524551 16 [], .line [104, 105],
        .packet 0x00524551 99 [0], .packet 0x00524551 23 [102, 0, 120]]
    let events : List Event :=
      [.error (.unknownMagic 1), .frame (.packet (.request (.echoReq []))), .frame (.text "hi"),
        .error (.unknownKind 99), .error (.invalidNumber .canDoTimeout "timeout" "x")]
    (∀ u ∈ us, u.Fits ⟨4, 2⟩) ∧
      (new ⟨4, 2⟩).readChunks [us.flatMap StreamUnit.toBytes] = (events, new ⟨4, 2⟩) ∧
      ((new ⟨4, 2⟩).readChunks [us.flatMap StreamUnit.toBytes]).1 =
        .error (.unknownMagic 1) ::
          ((new ⟨4, 2⟩).readChunks [us.tail.flatMap StreamUnit.toBytes]).1 := by
  intro us events
  have hfits : ∀ u ∈ us, u.Fits ⟨4, 2⟩ := by decide
  have hflatten : [us.flatMap StreamUnit.toBytes].flatten = us.flatMap StreamUnit.toBytes :=
    List.flatten_singleton ..
  obtain ⟨hread, -, hrest⟩ := readChunks_units hfits hflatten
  refine ⟨hfits, hread.trans (Prod.ext (by decide +kernel) rfl), ?_⟩
  exact hrest [] us.tail 1 7 [97, 10, 0, 0x52] (.unknownMagic 1) _ rfl rfl
    (List.flatten_singleton ..)

end Decoder

end JobBroker
