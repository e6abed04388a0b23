import JobBroker.Packet.Layout

/-!
# Packets

A packet is a magic word, a kind, and a payload laid out as the kind says. On the wire it is four
octets for the magic word, four for the number of the kind, four for the length of the payload, and
the payload.

* `Body.ofValues_values`, `Body.values_ofValues` : a body is its kind together with the values of
  its fields.
-/

namespace JobBroker

/-- When a recurring job would run. -/
structure Schedule where
  minute : String
  hour : String
  dayOfMonth : String
  month : String
  dayOfWeek : String
deriving DecidableEq, Repr

/-- What a packet says, without the side that says it. -/
inductive Body
  | canDo (function : String)
  | cantDo (function : String)
  | resetAbilities
  | preSleep
  | noop
  | submitJob (priority : Priority) (background : Bool) (function uniqueId : String) (data : Bytes)
  | submitJobSched (function uniqueId : String) (schedule : Schedule) (data : Bytes)
  | submitJobEpoch (function uniqueId : String) (epoch : Int64) (data : Bytes)
  | submitReduceJob (background : Bool) (function uniqueId reducer : String) (data : Bytes)
  | jobCreated (handle : String)
  | grabJob
  | grabJobUniq
  | grabJobAll
  | noJob
  | jobAssign (handle function : String) (data : Bytes)
  | jobAssignUniq (handle function uniqueId : String) (data : Bytes)
  | jobAssignAll (handle function uniqueId reducer : String) (data : Bytes)
  | workStatus (handle : String) (numerator denominator : UInt32)
  | workComplete (handle : String) (data : Bytes)
  | workFail (handle : String)
  | workException (handle : String) (data : Bytes)
  | workData (handle : String) (data : Bytes)
  | workWarning (handle : String) (data : Bytes)
  | getStatus (handle : String)
  | getStatusUnique (uniqueId : String)
  | echoReq (data : Bytes)
  | echoRes (data : Bytes)
  | error (code text : String)
  | statusRes (handle : String) (known running : Bool) (numerator denominator : UInt32)
  | statusResUnique (uniqueId : String) (known running : Bool)
      (numerator denominator waiting : UInt32)
  | setClientId (clientId : String)
  | canDoTimeout (function : String) (timeout : UInt32)
  | allYours
  | optionReq (option : String)
  | optionRes (option : String)
deriving DecidableEq, Repr

namespace Body

def kind : Body → Kind
  | canDo _ => .canDo
  | cantDo _ => .cantDo
  | resetAbilities => .resetAbilities
  | preSleep => .preSleep
  | noop => .noop
  | submitJob p b _ _ _ => .submitJob p b
  | submitJobSched .. => .submitJobSched
  | submitJobEpoch .. => .submitJobEpoch
  | submitReduceJob b _ _ _ _ => .submitReduceJob b
  | jobCreated _ => .jobCreated
  | grabJob => .grabJob
  | grabJobUniq => .grabJobUniq
  | grabJobAll => .grabJobAll
  | noJob => .noJob
  | jobAssign .. => .jobAssign
  | jobAssignUniq .. => .jobAssignUniq
  | jobAssignAll .. => .jobAssignAll
  | workStatus .. => .workStatus
  | workComplete .. => .workComplete
  | workFail _ => .workFail
  | workException .. => .workException
  | workData .. => .workData
  | workWarning .. => .workWarning
  | getStatus _ => .getStatus
  | getStatusUnique _ => .getStatusUnique
  | echoReq _ => .echoReq
  | echoRes _ => .echoRes
  | error .. => .error
  | statusRes .. => .statusRes
  | statusResUnique .. => .statusResUnique
  | setClientId _ => .setClientId
  | canDoTimeout .. => .canDoTimeout
  | allYours => .allYours
  | optionReq _ => .optionReq
  | optionRes _ => .optionRes

/-- The values of the fields, in the order of the layout. -/
def values : (b : Body) → b.kind.layout.Values
  | canDo f | cantDo f => (f, ())
  | resetAbilities | preSleep | noop | grabJob | grabJobUniq | grabJobAll | noJob | allYours => ()
  | submitJob _ _ f u d => (f, u, d, ())
  | submitJobSched f u s d =>
    (f, u, s.minute, s.hour, s.dayOfMonth, s.month, s.dayOfWeek, d, ())
  | submitJobEpoch f u e d => (f, u, e, d, ())
  | submitReduceJob _ f u r d => (f, u, r, d, ())
  | jobCreated h | workFail h | getStatus h => (h, ())
  | jobAssign h f d => (h, f, d, ())
  | jobAssignUniq h f u d => (h, f, u, d, ())
  | jobAssignAll h f u r d => (h, f, u, r, d, ())
  | workStatus h n d => (h, n, d, ())
  | workComplete h d | workException h d | workData h d | workWarning h d => (h, d, ())
  | getStatusUnique u => (u, ())
  | echoReq d | echoRes d => (d, ())
  | error c t => (c, t, ())
  | statusRes h k r n d => (h, k, r, n, d, ())
  | statusResUnique u k r n d w => (u, k, r, n, d, w, ())
  | setClientId i => (i, ())
  | canDoTimeout f t => (f, t, ())
  | optionReq o | optionRes o => (o, ())

/-- The body of a kind whose fields hold the given values. -/
def ofValues : (k : Kind) → k.layout.Values → Body
  | .canDo, (f, ()) => canDo f
  | .cantDo, (f, ()) => cantDo f
  | .resetAbilities, () => resetAbilities
  | .preSleep, () => preSleep
  | .noop, () => noop
  | .submitJob p b, (f, u, d, ()) => submitJob p b f u d
  | .submitJobSched, (f, u, mi, h, dm, mo, dw, d, ()) => submitJobSched f u ⟨mi, h, dm, mo, dw⟩ d
  | .submitJobEpoch, (f, u, e, d, ()) => submitJobEpoch f u e d
  | .submitReduceJob b, (f, u, r, d, ()) => submitReduceJob b f u r d
  | .jobCreated, (h, ()) => jobCreated h
  | .grabJob, () => grabJob
  | .grabJobUniq, () => grabJobUniq
  | .grabJobAll, () => grabJobAll
  | .noJob, () => noJob
  | .jobAssign, (h, f, d, ()) => jobAssign h f d
  | .jobAssignUniq, (h, f, u, d, ()) => jobAssignUniq h f u d
  | .jobAssignAll, (h, f, u, r, d, ()) => jobAssignAll h f u r d
  | .workStatus, (h, n, d, ()) => workStatus h n d
  | .workComplete, (h, d, ()) => workComplete h d
  | .workFail, (h, ()) => workFail h
  | .workException, (h, d, ()) => workException h d
  | .workData, (h, d, ()) => workData h d
  | .workWarning, (h, d, ()) => workWarning h d
  | .getStatus, (h, ()) => getStatus h
  | .getStatusUnique, (u, ()) => getStatusUnique u
  | .echoReq, (d, ()) => echoReq d
  | .echoRes, (d, ()) => echoRes d
  | .error, (c, t, ()) => error c t
  | .statusRes, (h, k, r, n, d, ()) => statusRes h k r n d
  | .statusResUnique, (u, k, r, n, d, w, ()) => statusResUnique u k r n d w
  | .setClientId, (i, ()) => setClientId i
  | .canDoTimeout, (f, t, ()) => canDoTimeout f t
  | .allYours, () => allYours
  | .optionReq, (o, ()) => optionReq o
  | .optionRes, (o, ()) => optionRes o

@[simp] theorem ofValues_values (b : Body) : ofValues b.kind b.values = b := by cases b <;> rfl

@[simp] theorem kind_ofValues (k : Kind) (v : k.layout.Values) : (ofValues k v).kind = k := by
  cases k <;> rfl

theorem values_ofValues (k : Kind) (v : k.layout.Values) : HEq (ofValues k v).values v := by
  cases k <;> rfl

def payload (b : Body) : Bytes := b.kind.layout.write b.values

def ofPayload (k : Kind) (payload : Bytes) : Except ProtocolError Body :=
  (k.layout.read k payload).map (ofValues k)

end Body

structure Packet where
  magic : Magic
  body : Body
deriving DecidableEq, Repr

namespace Packet

def request (body : Body) : Packet := ⟨.request, body⟩

def response (body : Body) : Packet := ⟨.response, body⟩

/-- The magic word is looked at before the kind, and the kind before the payload. -/
def ofParts (magic kind : UInt32) (payload : Bytes) : Except ProtocolError Packet :=
  match Magic.ofCode? magic with
  | none => .error (.unknownMagic magic)
  | some m =>
    match Kind.ofOrdinal? kind with
    | none => .error (.unknownKind kind)
    | some k => (Body.ofPayload k payload).map (Packet.mk m)

/-- Header and payload. The length field holds the length of the payload modulo `2 ^ 32`. -/
def toBytes (p : Packet) : Bytes :=
  Bytes.ofWord p.magic.code ++ Bytes.ofWord p.body.kind.ordinal
    ++ Bytes.ofWord (UInt32.ofNat p.body.payload.length) ++ p.body.payload

/-- The magic word, the number of the kind and the length that a header holds, and what follows. -/
def header? (bytes : Bytes) : Option (UInt32 × UInt32 × Nat × Bytes) := do
  let (magic, bytes) ← Bytes.word? bytes
  let (kind, bytes) ← Bytes.word? bytes
  let (length, bytes) ← Bytes.word? bytes
  return (magic, kind, length.toNat, bytes)

/-- Reads octets that hold one whole packet and nothing else. -/
def ofBytes (bytes : Bytes) : Except ProtocolError Packet :=
  match header? bytes with
  | none => .error (.truncated bytes.length)
  | some (magic, kind, length, payload) =>
    if payload.length = length then ofParts magic kind payload
    else .error (.truncated bytes.length)

end Packet

end JobBroker
