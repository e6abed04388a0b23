import JobBroker.Service
import JobBroker.Settings.Loader
import Std.Time.DateTime.Timestamp

/-!
# The command line

Loads the settings of `./config` and serves one peer on standard input and output.
-/

namespace JobBroker.CommandLine

def readFile? (path : String) : IO (Option String) := do
  try
    return some (← IO.FS.readFile path)
  catch _ => return none

/-- The variables of the environment of this process. -/
def bindings : IO (List (String × String)) := do
  let text := (← readFile? "/proc/self/environ").getD ""
  return (text.splitOn "\x00").filterMap fun entry =>
    match entry.splitOn "=" with
    | name :: value :: rest => some (name, String.intercalate "=" (value :: rest))
    | _ => none

def sources (directory : String) : IO SettingsSources := do
  let s : SettingsSources := ⟨fun _ => none, ← bindings⟩
  let mut files := []
  for name in s.fileNames do
    match ← readFile? (directory ++ "/" ++ name) with
    | some text => files := files ++ [(name, text)]
    | none => pure ()
  return { s with file? := (Table.lookup · files) }

def now : IO Int64 := return (← Std.Time.Timestamp.now).toSecondsSinceUnixEpoch.val.toInt64

def toBytes (b : ByteArray) : Bytes := b.toList

def write (output : IO.FS.Stream) (frames : List Frame) : IO Unit := do
  for f in frames do
    output.write (ByteArray.mk f.toBytes.toArray)
  output.flush

/-- Serves a peer until it leaves or the broker closes the connection. -/
partial def serve (input output : IO.FS.Stream) (id : SessionId) (started : Nat)
    (b : Broker ServiceStore) : IO Unit := do
  let bytes ← input.read 65536
  if bytes.isEmpty then return
  let b := { b with engine := { b.engine with now := ← now } }
  let uptime := ((← IO.monoMsNow) - started) / 1000
  let b := b.elapse (uptime - b.engine.uptime)
  let (replies, b) := b.receive id (toBytes bytes)
  write output replies
  let (pushed, b) := b.flush id
  write output (pushed.map .packet)
  if b.isOpen id then serve input output id started b

def fail (e : BrokerError) : IO UInt32 := do
  IO.eprintln ("error: " ++ e.message)
  return 1

def run : IO UInt32 := do
  match (← sources "./config").load with
  | .error .unreadable => fail (.configuration "the settings cannot be read")
  | .error (.problem p) => fail p.toError
  | .ok settings =>
    match Service.start settings .empty (← now) (Text.decimal ·) (Text.decimal ·) with
    | .error e => fail e
    | .ok b =>
      let (id, b) := b.accept "stdin"
      serve (← IO.getStdin) (← IO.getStdout) id (← IO.monoMsNow) b
      return 0

end JobBroker.CommandLine

def main : IO UInt32 := JobBroker.CommandLine.run
