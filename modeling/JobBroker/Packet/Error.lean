import JobBroker.Packet.Kind
import JobBroker.Text.Numeral

/-!
# Protocol errors

What can be wrong with a packet, or with the stream that carries it.
-/

namespace JobBroker

inductive ProtocolError
  | unknownKind (ordinal : UInt32)
  | unknownMagic (code : UInt32)
  | missingField (kind : Kind) (field : String)
  | invalidNumber (kind : Kind) (field value : String)
  | invalidUtf8 (kind : Kind) (field : String)
  | payloadTooLarge (size max : Nat)
  | lineTooLong (max : Nat)
  | truncated (remaining : Nat)
  | io (text : String)
deriving DecidableEq, Repr

namespace ProtocolError

open Text in
def message : ProtocolError → String
  | unknownKind n => "Unknown packet type: " ++ decimal n.toNat
  | unknownMagic c => "Unknown packet magic: 0x" ++ String.ofList (hex 8 c.toNat)
  | missingField k f => "Packet " ++ k.name ++ " is missing field '" ++ f ++ "'"
  | invalidNumber k f v =>
    "Packet " ++ k.name ++ " has an invalid number in '" ++ f ++ "': " ++ v
  | invalidUtf8 k f => "Packet " ++ k.name ++ " has non UTF-8 data in '" ++ f ++ "'"
  | payloadTooLarge s m =>
    "Payload of " ++ decimal s ++ " bytes exceeds the " ++ decimal m ++ " byte limit"
  | lineTooLong m => "Text command exceeds the " ++ decimal m ++ " byte limit"
  | truncated n => "Stream closed with " ++ decimal n ++ " bytes of an incomplete frame"
  | io text => "I/O error: " ++ text

/-- After a fatal error the stream is no longer known to stand between two frames. -/
def isFatal : ProtocolError → Bool
  | payloadTooLarge .. | lineTooLong _ | truncated _ | io _ => true
  | _ => false

end ProtocolError

end JobBroker
