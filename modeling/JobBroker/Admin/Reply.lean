import JobBroker.Admin.Command
import JobBroker.Engine.Statistics

/-!
# Admin replies

What an admin command does and what is answered. A listing has one line for each item and ends with
a line that holds a full stop.
-/

namespace JobBroker

structure AdminReply where
  text : String
  /-- The broker shall stop. -/
  shutdown : Bool
deriving DecidableEq, Repr

namespace AdminReply

open Text

def ofText (text : String) : AdminReply := ⟨text, false⟩

def listing (lines : List String) : AdminReply :=
  ofText (String.join (lines.map (· ++ "\n")) ++ ".\n")

/-- One line of a listing in columns: a function and some numbers. -/
def columns (functionName : String) (numbers : List Nat) : String :=
  String.intercalate "\t" (functionName :: numbers.map decimal)

def statusLine (s : Statistics) : String := columns s.functionName [s.queued, s.running, s.workers]

def priorityLine (s : Statistics) : String :=
  columns s.functionName [s.high, s.normal, s.low, s.workers]

/-- A session by its name, its address, what it calls itself, and the functions it can do. -/
def workerLine (name : String) (s : Session) : String :=
  name ++ " " ++ s.peer ++ " " ++ s.clientId.getD "-" ++ " :" ++
    String.join (s.abilities.map (" " ++ ·))

end AdminReply

namespace Engine

open AdminReply

variable {σ : Type}

/-- Runs a command; `name` gives sessions their names. -/
def runAdmin (e : Engine σ) (name : SessionId → String) : AdminCommand → AdminReply × Engine σ
  | .status => (listing (e.statistics.map statusLine), e)
  | .priorityStatus => (listing (e.statistics.map priorityLine), e)
  | .workers => (listing (e.connectedSessions.map fun s => workerLine (name s.1) s.2), e)
  | .maxQueue f size => (ofText "OK\n", e.setMaxQueue f (size.getD 0))
  | .version => (ofText ("OK " ++ brokerVersion ++ "\n"), e)
  | .shutdown => (⟨"OK\n", true⟩, e)
  | .unknown _ => (ofText "ERR UNKNOWN_COMMAND Unknown+server+command\n", e)

end Engine

end JobBroker
