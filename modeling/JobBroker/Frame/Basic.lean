import JobBroker.Packet.Basic
import JobBroker.Text.Blank

/-!
# Frames

A stream carries two sorts of frames. A packet starts with a zero octet, which every magic word
has in front; a frame that starts with any other octet is a line of text.
-/

namespace JobBroker

inductive Frame
  | packet (packet : Packet)
  /-- A line that was received, without the blanks at its ends, or an answer as it is sent. -/
  | text (text : String)
deriving DecidableEq, Repr

namespace Frame

def toBytes : Frame → Bytes
  | packet p => p.toBytes
  | text s => Text.Utf8.encode s

/-- The frame of a received line. A blank line is none. -/
def ofLine? (line : Bytes) : Option Frame :=
  match Text.trim (Text.Utf8.decodeLossy line) with
  | [] => none
  | c :: cs => some (.text (String.ofList (c :: cs)))

end Frame

end JobBroker
