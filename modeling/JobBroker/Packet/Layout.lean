import JobBroker.Packet.Error
import JobBroker.Text.Utf8

/-!
# Field layouts

A payload is a list of fields. Each field but the last is ended by a zero octet, and the last one
takes what is left. A `Layout` names the fields of one kind of packet; `Layout.Values` is what a
payload of that layout holds.
-/

namespace JobBroker

/-- What a field holds: text, octets, yes or no, a 32-bit count, or a time in seconds. -/
inductive FieldType
  | text
  | octets
  | flag
  | count
  | epoch
deriving DecidableEq, Repr

namespace FieldType

/-- The values of a field. -/
abbrev Value : FieldType → Type
  | text => String
  | octets => Bytes
  | flag => Bool
  | count => UInt32
  | epoch => Int64

open Text

def write : (t : FieldType) → t.Value → Bytes
  | text, s => Utf8.encode s
  | octets, b => b
  | flag, b => if b then [49] else [48]
  | count, n => Utf8.encode (decimal n.toNat)
  | epoch, n => Utf8.encode (decimalInt n.toInt)

/-- Why a field cannot be read. -/
inductive Fault
  | notUtf8
  | notNumber (text : String)
deriving DecidableEq, Repr

/-- Reads a number in decimal, once the octets have been read as text. -/
def readNumber {α : Type} (read : List Char → Option α) (bytes : Bytes) : Except Fault α :=
  match Utf8.decode? bytes with
  | none => .error .notUtf8
  | some s =>
    match read s.toList with
    | none => .error (.notNumber s)
    | some n => .ok n

/-- A flag is a number below 256, and set unless it is zero. -/
def read : (t : FieldType) → Bytes → Except Fault t.Value
  | text, b => (Utf8.decode? b).elim (.error .notUtf8) .ok
  | octets, b => .ok b
  | flag, b => (readNumber (readUnsigned 256) b).map (· != 0)
  | count, b => (readNumber (readUnsigned UInt32.size) b).map UInt32.ofNat
  | epoch, b => (readNumber (readSigned 9223372036854775808) b).map Int64.ofInt

end FieldType

structure Field where
  name : String
  type : FieldType
deriving DecidableEq, Repr

abbrev Layout := List Field

namespace Layout

/-- One value for each field. -/
abbrev Values : Layout → Type
  | [] => Unit
  | f :: fs => f.type.Value × Values fs

/-- The payload that holds the given values. -/
def write : (l : Layout) → l.Values → Bytes
  | [], _ => []
  | [f], (v, _) => f.type.write v
  | f :: g :: fs, (v, vs) => f.type.write v ++ 0 :: write (g :: fs) vs

/-- Reads one field, and says in which packet and field a fault lies. -/
def readField (kind : Kind) (f : Field) (bytes : Bytes) : Except ProtocolError f.type.Value :=
  match f.type.read bytes with
  | .ok v => .ok v
  | .error .notUtf8 => .error (.invalidUtf8 kind f.name)
  | .error (.notNumber s) => .error (.invalidNumber kind f.name s)

/-- Reads the fields from left to right. A layout without fields takes any payload. -/
def read (kind : Kind) : (l : Layout) → Bytes → Except ProtocolError l.Values
  | [], _ => .ok ()
  | [f], bytes => (readField kind f bytes).map fun v => (v, ())
  | f :: g :: fs, bytes =>
    match Bytes.cut 0 bytes with
    | none => .error (.missingField kind f.name)
    | some (head, rest) => do
      let v ← readField kind f head
      let vs ← read kind (g :: fs) rest
      return (v, vs)

end Layout

namespace Kind

/-- The fields of each kind of packet, in the order in which they are written. -/
def layout : Kind → Layout
  | canDo | cantDo => [⟨"function", .text⟩]
  | resetAbilities | preSleep | noop | grabJob | grabJobUniq | grabJobAll | noJob | allYours => []
  | submitJob _ _ => [⟨"function", .text⟩, ⟨"unique_id", .text⟩, ⟨"data", .octets⟩]
  | submitJobSched =>
    [⟨"function", .text⟩, ⟨"unique_id", .text⟩, ⟨"minute", .text⟩, ⟨"hour", .text⟩,
      ⟨"day_of_month", .text⟩, ⟨"month", .text⟩, ⟨"day_of_week", .text⟩, ⟨"data", .octets⟩]
  | submitJobEpoch =>
    [⟨"function", .text⟩, ⟨"unique_id", .text⟩, ⟨"epoch", .epoch⟩, ⟨"data", .octets⟩]
  | submitReduceJob _ =>
    [⟨"function", .text⟩, ⟨"unique_id", .text⟩, ⟨"reducer", .text⟩, ⟨"data", .octets⟩]
  | jobCreated | workFail | getStatus => [⟨"handle", .text⟩]
  | jobAssign => [⟨"handle", .text⟩, ⟨"function", .text⟩, ⟨"data", .octets⟩]
  | jobAssignUniq =>
    [⟨"handle", .text⟩, ⟨"function", .text⟩, ⟨"unique_id", .text⟩, ⟨"data", .octets⟩]
  | jobAssignAll =>
    [⟨"handle", .text⟩, ⟨"function", .text⟩, ⟨"unique_id", .text⟩, ⟨"reducer", .text⟩,
      ⟨"data", .octets⟩]
  | workStatus => [⟨"handle", .text⟩, ⟨"numerator", .count⟩, ⟨"denominator", .count⟩]
  | workComplete | workException | workData | workWarning =>
    [⟨"handle", .text⟩, ⟨"data", .octets⟩]
  | getStatusUnique => [⟨"unique_id", .text⟩]
  | echoReq | echoRes => [⟨"data", .octets⟩]
  | error => [⟨"code", .text⟩, ⟨"text", .text⟩]
  | statusRes =>
    [⟨"handle", .text⟩, ⟨"known", .flag⟩, ⟨"running", .flag⟩, ⟨"numerator", .count⟩,
      ⟨"denominator", .count⟩]
  | statusResUnique =>
    [⟨"unique_id", .text⟩, ⟨"known", .flag⟩, ⟨"running", .flag⟩, ⟨"numerator", .count⟩,
      ⟨"denominator", .count⟩, ⟨"waiting", .count⟩]
  | setClientId => [⟨"client_id", .text⟩]
  | canDoTimeout => [⟨"function", .text⟩, ⟨"timeout", .count⟩]
  | optionReq | optionRes => [⟨"option", .text⟩]

end Kind

end JobBroker
