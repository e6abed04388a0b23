import JobBroker.Frame.Basic

/-!
# Decoding a stream

The decoder of one stream. Octets are appended to its buffer as they come (`feed`), and `next` takes
the first event off the buffer: a frame, or an error. A packet that is malformed inside its declared
length is an error after which the stream goes on; `drain` takes events until none is left or one
is fatal.

* `weight_lt_of_next` : every event that is not fatal uses up the buffer or the header before it,
  so that draining ends.
-/

namespace JobBroker

/-- The longest payload and the longest line, in octets, that a peer may send. -/
structure Limits where
  payload : Nat
  line : Nat
deriving DecidableEq, Repr

namespace Limits

def default : Limits := ⟨67108864, 8192⟩

instance : Inhabited Limits := ⟨default⟩

end Limits

/-- What the decoder meets in a stream. -/
inductive Event
  | frame (frame : Frame)
  | error (error : ProtocolError)
deriving DecidableEq, Repr

namespace Event

def isFatal : Event → Bool
  | frame _ => false
  | error e => e.isFatal

def ofPacket : Except ProtocolError Packet → Event
  | .ok p => frame (.packet p)
  | .error e => error e

end Event

namespace Decoder

/-- What the buffer starts with: a header or a line, or the payload of a header already read. -/
inductive Awaiting
  | header
  | payload (magic kind : UInt32) (length : Nat)
deriving DecidableEq, Repr

end Decoder

structure Decoder where
  limits : Limits
  awaiting : Decoder.Awaiting
  buffer : Bytes
deriving DecidableEq, Repr

namespace Decoder

def new (limits : Limits) : Decoder := ⟨limits, .header, []⟩

def feed (d : Decoder) (bytes : Bytes) : Decoder := { d with buffer := d.buffer ++ bytes }

/-- What one step finds: too little to go on, something that is no event (a header, a blank line),
or an event. -/
inductive Step
  | wait
  | advance (d : Decoder)
  | emit (e : Event) (d : Decoder)
deriving DecidableEq, Repr

/-- A line counts as too long without its end, whether or not the end has come. -/
def stepLine (d : Decoder) : Step :=
  match Bytes.cut 10 d.buffer with
  | none =>
    if d.limits.line < d.buffer.length then .emit (.error (.lineTooLong d.limits.line)) d else .wait
  | some (line, rest) =>
    if d.limits.line < line.length then .emit (.error (.lineTooLong d.limits.line)) d
    else
      match Frame.ofLine? line with
      | none => .advance { d with buffer := rest }
      | some f => .emit (.frame f) { d with buffer := rest }

def stepHeader (d : Decoder) : Step :=
  match Packet.header? d.buffer with
  | none => .wait
  | some (magic, kind, length, rest) =>
    if d.limits.payload < length then
      .emit (.error (.payloadTooLarge length d.limits.payload)) { d with buffer := rest }
    else .advance { d with awaiting := .payload magic kind length, buffer := rest }

def step (d : Decoder) : Step :=
  match d.awaiting with
  | .payload magic kind length =>
    if d.buffer.length < length then .wait
    else
      .emit (.ofPacket (Packet.ofParts magic kind (d.buffer.take length)))
        { d with awaiting := .header, buffer := d.buffer.drop length }
  | .header =>
    match d.buffer with
    | [] => .wait
    | b :: _ => if b = 0 then d.stepHeader else d.stepLine

/-- Twice the octets in the buffer, and one more when a header has been taken off it. -/
def weight (d : Decoder) : Nat :=
  2 * d.buffer.length + if d.awaiting = .header then 0 else 1

theorem length_of_header? {bytes rest : Bytes} {magic kind : UInt32} {length : Nat}
    (h : Packet.header? bytes = some (magic, kind, length, rest)) :
    bytes.length = rest.length + 12 := by
  have word : ∀ {a b : Bytes} {w : UInt32}, Bytes.word? a = some (w, b) →
      a.length = b.length + 4 := by
    intro a b w hw
    unfold Bytes.word? at hw
    split at hw
    · simp only [Option.some.injEq, Prod.mk.injEq] at hw
      simp [hw.2]
    · simp at hw
  simp only [Packet.header?, bind, Option.bind_eq_some_iff, Prod.exists] at h
  obtain ⟨_, _, h1, _, _, h2, _, _, h3, h4⟩ := h
  simp only [pure, Option.some.injEq, Prod.mk.injEq] at h4
  have := word h1
  have := word h2
  have := word h3
  rw [← h4.2.2.2]
  omega

theorem weight_lt_of_advance {d d' : Decoder} (h : d.step = .advance d') :
    d'.weight < d.weight := by
  unfold step at h
  split at h
  · split at h <;> simp at h
  · next hd =>
    split at h
    · simp at h
    · split at h
      · unfold stepHeader at h
        split at h
        · simp at h
        · next hh =>
          split at h
          · simp at h
          · simp only [Step.advance.injEq] at h
            have := length_of_header? hh
            simp [← h, weight, hd]
            omega
      · unfold stepLine at h
        split at h
        · split at h <;> simp at h
        · next hc =>
          split at h
          · simp at h
          · split at h
            · simp only [Step.advance.injEq] at h
              have := (Bytes.cut_eq_some_iff.mp hc).1
              simp [← h, weight, hd, this]
              omega
            · simp at h

theorem weight_lt_of_emit {d d' : Decoder} {e : Event} (h : d.step = .emit e d')
    (he : e.isFatal = false) : d'.weight < d.weight := by
  unfold step at h
  split at h
  · next hd =>
    split at h
    · simp at h
    · simp only [Step.emit.injEq] at h
      simp only [← h.2, weight, hd, List.length_drop, reduceCtorEq, ↓reduceIte]
      omega
  · next hd =>
    split at h
    · simp at h
    · split at h
      · unfold stepHeader at h
        split at h
        · simp at h
        · split at h
          · simp only [Step.emit.injEq] at h
            rw [← h.1] at he
            simp [Event.isFatal, ProtocolError.isFatal] at he
          · simp at h
      · unfold stepLine at h
        split at h
        · split at h
          · simp only [Step.emit.injEq] at h
            rw [← h.1] at he
            simp [Event.isFatal, ProtocolError.isFatal] at he
          · simp at h
        · next hc =>
          split at h
          · simp only [Step.emit.injEq] at h
            rw [← h.1] at he
            simp [Event.isFatal, ProtocolError.isFatal] at he
          · split at h
            · simp at h
            · simp only [Step.emit.injEq] at h
              have := (Bytes.cut_eq_some_iff.mp hc).1
              simp [← h.2, weight, hd, this]
              omega

/-- The first event in the buffer, if it holds a whole one. -/
def next (d : Decoder) : Option Event × Decoder :=
  match _h : d.step with
  | .wait => (none, d)
  | .advance d' => d'.next
  | .emit e d' => (some e, d')
termination_by d.weight
decreasing_by exact weight_lt_of_advance _h

theorem weight_lt_of_next {d d' : Decoder} {e : Event} (h : d.next = (some e, d'))
    (he : e.isFatal = false) : d'.weight < d.weight := by
  fun_induction next d with
  | case1 d hs => simp at h
  | case2 d d₁ hs ih => exact Nat.lt_trans (ih h) (weight_lt_of_advance hs)
  | case3 d e₁ d₁ hs =>
    simp only [Prod.mk.injEq, Option.some.injEq] at h
    obtain ⟨rfl, rfl⟩ := h
    exact weight_lt_of_emit hs he

/-- The events in the buffer, up to the first fatal one. -/
def drain (d : Decoder) : List Event × Decoder :=
  match _h : d.next with
  | (none, d') => ([], d')
  | (some e, d') =>
    if _he : e.isFatal then ([e], d')
    else (e :: d'.drain.1, d'.drain.2)
termination_by d.weight
decreasing_by all_goals exact weight_lt_of_next _h (by simpa using _he)

/-- The stream stands between two frames. -/
def isClean (d : Decoder) : Bool := d.awaiting = .header && d.buffer.isEmpty

/-- The events in the buffer when nothing more will come. -/
def finish (d : Decoder) : List Event × Decoder :=
  let (events, d') := d.drain
  if events.any Event.isFatal || d'.isClean then (events, d')
  else (events ++ [.error (.truncated d'.buffer.length)], d')

end Decoder

end JobBroker
