import JobBroker.Broker.Reaction
import JobBroker.Engine.Recovery

/-!
# The broker

An engine with its open connections. Each connection has a session of the engine and a decoder for
what comes in; what is written to it is the reply to its own frames (`receive`) and the packets of
its outbox (`flush`).
-/

namespace JobBroker

structure Broker (σ : Type) where
  engine : Engine σ
  limits : Limits
  /-- What operators see of a session's number. -/
  sessionName : SessionId → String
  /-- The decoders of the open connections. -/
  streams : Table SessionId Decoder
  /-- An operator has stopped the broker. -/
  isStopped : Bool

namespace Broker

variable {σ : Type} [JobStore σ]

def new (settings : Settings) (store : σ) (now : Int64) (newId : Nat → String)
    (sessionName : SessionId → String) : Broker σ :=
  ⟨.new settings.engine store now newId, settings.server.limits, sessionName, .empty, false⟩

/-- A broker that has taken up the jobs of its store, unless the store fails. -/
def start (settings : Settings) (store : σ) (now : Int64) (newId : Nat → String)
    (sessionName : SessionId → String) : Except JobError Nat × Broker σ :=
  let b := new settings store now newId sessionName
  let (restored, engine) := b.engine.load
  (restored, { b with engine })

def isOpen (b : Broker σ) (id : SessionId) : Bool := b.streams.contains id

/-- Opens a connection. -/
def accept (b : Broker σ) (peer : String) : SessionId × Broker σ :=
  let (id, engine) := b.engine.newSession peer
  (id, { b with
    engine := engine.connect id
    streams := b.streams.insert id (.new b.limits) })

/-- Closes a connection. -/
def close (b : Broker σ) (id : SessionId) : Broker σ :=
  if b.isOpen id then
    { b with engine := b.engine.disconnect id, streams := b.streams.erase id }
  else b

/-- Closes all connections and takes no more. -/
def stop (b : Broker σ) : Broker σ := { b.streams.keys.foldl close b with isStopped := true }

/-- Reacts to events in order, until one closes the connection. -/
def react (b : Broker σ) (id : SessionId) : List Event → List Frame × Broker σ
  | [] => ([], b)
  | event :: events =>
    let (r, engine) := b.engine.react b.sessionName id event
    let b := { b with engine }
    if r.stops then (r.reply.toList, (b.close id).stop)
    else if r.closes then (r.reply.toList, b.close id)
    else
      let (frames, b) := b.react id events
      (r.reply.toList ++ frames, b)

/-- Takes in what a peer has sent, and gives the replies. -/
def receive (b : Broker σ) (id : SessionId) (bytes : Bytes) : List Frame × Broker σ :=
  match b.streams.get? id with
  | none => ([], b)
  | some d =>
    let (events, d) := (d.feed bytes).drain
    { b with streams := b.streams.insert id d }.react id events

/-- The peer sends no more. A frame it has not finished is dropped with the connection. -/
def hangUp (b : Broker σ) (id : SessionId) : Broker σ := b.close id

/-- Takes the packets out of the outbox of an open connection. -/
def flush (b : Broker σ) (id : SessionId) : List Packet × Broker σ :=
  if b.isOpen id then
    (((b.engine.session? id).map Session.outbox).getD [],
      { b with engine := b.engine.modifySession id fun s => { s with outbox := [] } })
  else ([], b)

/-- Time passes. Workers whose long poll is over are woken. -/
def elapse (b : Broker σ) (seconds : Nat) : Broker σ :=
  let engine := { b.engine with uptime := b.engine.uptime + seconds }
  let late := engine.connectedSessions.filter fun s => s.2.wakeAt.any (· ≤ engine.uptime)
  { b with engine := late.foldl (fun e s => e.wake s.1) engine }

end Broker

end JobBroker
