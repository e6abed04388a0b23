import JobBroker.Packet.Basic
import JobBroker.Table

/-!
# Sessions

What the broker knows about one connection, and the packets that wait to be written to it. A
session may be a client, a worker, or both.
-/

namespace JobBroker

/-- Sessions are numbered in the order in which they begin. -/
abbrev SessionId := Nat

structure Session where
  /-- The address of the peer. -/
  peer : String
  clientId : Option String
  /-- The functions the peer can do, in the order in which it has said so. -/
  abilities : List String
  /-- Seconds the peer has said it may need for a function. Nothing depends on them. -/
  timeouts : Table String UInt32
  /-- A sleeping session is woken at this second at the latest. It is there exactly while the
  session sleeps: whoever puts it to sleep names a second, and whoever wakes it takes that away. -/
  wakeAt : Option Nat
  wantsExceptions : Bool
  /-- The handles of the jobs the peer works on, each once. They are a set; the order here is that
  in which the peer got them. -/
  assigned : List String
  /-- Packets not yet written, oldest first. -/
  outbox : List Packet
  /-- Nobody takes packets from the outbox any more. -/
  hungUp : Bool
deriving Repr

namespace Session

def new (peer : String) : Session where
  peer := peer
  clientId := none
  abilities := []
  timeouts := .empty
  wakeAt := none
  wantsExceptions := false
  assigned := []
  outbox := []
  hungUp := false

def send (s : Session) (p : Packet) : Session :=
  if s.hungUp then s else { s with outbox := s.outbox ++ [p] }

def canDo (s : Session) (functionName : String) : Bool := s.abilities.contains functionName

def isWorker (s : Session) : Bool := !s.abilities.isEmpty

/-- Puts a function last in the list of abilities, unless it is there already. A timeout is noted
either way. -/
def addAbility (s : Session) (functionName : String) (timeout : Option UInt32) : Session :=
  { s with
    abilities := if s.canDo functionName then s.abilities else s.abilities ++ [functionName]
    timeouts := timeout.elim s.timeouts (s.timeouts.insert functionName) }

def removeAbility (s : Session) (functionName : String) : Session :=
  { s with
    abilities := s.abilities.filter (· ≠ functionName)
    timeouts := s.timeouts.erase functionName }

def clearAbilities (s : Session) : Session := { s with abilities := [], timeouts := .empty }

def isAsleep (s : Session) : Bool := s.wakeAt.isSome

def sleepUntil (s : Session) (second : Nat) : Session := { s with wakeAt := some second }

/-- Ends the sleep of a session and tells the peer that there may be work. -/
def wake (s : Session) : Session :=
  if s.isAsleep then { s with wakeAt := none }.send (.response .noop) else s

def assign (s : Session) (handle : String) : Session :=
  if handle ∈ s.assigned then s else { s with assigned := s.assigned ++ [handle] }

def release (s : Session) (handle : String) : Session :=
  { s with assigned := s.assigned.filter (· ≠ handle) }

end Session

abbrev Sessions := Table SessionId Session

namespace Sessions

/-- Sends each of some sessions a packet that may depend on the session. -/
def send (packet : Session → Packet) (ids : List SessionId) (ss : Sessions) : Sessions :=
  ids.foldl (fun ss id => ss.modify id fun s => s.send (packet s)) ss

def isAsleep (ss : Sessions) (id : SessionId) : Bool := (ss.get? id).any Session.isAsleep

def wake (ids : List SessionId) (ss : Sessions) : Sessions :=
  ids.foldl (fun ss id => ss.modify id Session.wake) ss

end Sessions

end JobBroker
