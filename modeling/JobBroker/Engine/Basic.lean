import JobBroker.Crew
import JobBroker.Engine.LiveJobs
import JobBroker.Job.Handle
import JobBroker.PeerEvent
import JobBroker.Queue.Basic
import JobBroker.Settings.Basic
import JobBroker.WaitLists

/-!
# The engine

The state of a broker: a workshop for each function, the live jobs, the sessions, the store, the
clocks, and what has been told to other brokers. The modules beside this one hold what the engine
does; each operation gives a new engine, and puts packets into the outboxes of sessions.
-/

namespace JobBroker

/-- Everything the broker keeps for one function: the queue of its jobs, the workers that can do
it, and the clients that wait for results. -/
structure Workshop where
  queue : Queue
  crew : Crew
  waitLists : WaitLists
deriving Repr

namespace Workshop

def new (functionName : String) (maxQueueSize : Nat) : Workshop :=
  ⟨.new functionName maxQueueSize, .empty, .empty⟩

/-- Takes a session out of the crew and out of every wait list. -/
def leave (w : Workshop) (id : SessionId) : Workshop :=
  { w with crew := w.crew.remove id, waitLists := (w.waitLists.removeSession id).2 }

end Workshop

structure Engine (σ : Type) where
  settings : EngineSettings
  store : σ
  /-- The time in seconds of the epoch. Held jobs wait for it; it may be set back. -/
  now : Int64
  /-- Seconds that have passed. Sleeping workers wait for them. A clock counts below `2 ^ 63`. -/
  uptime : Nat
  /-- The factory of an unchecked build. While it has not run out a checked build does the same. -/
  handles : HandleFactory
  /-- The unique ids for jobs that have none, in the order in which they are made up. -/
  newId : Nat → String
  /-- How many unique ids were made up. -/
  uniqueIds : Nat
  workshops : Table String Workshop
  live : LiveJobs
  /-- Every session so far, oldest first. -/
  sessions : Sessions
  /-- The sessions that are connected. -/
  connected : List SessionId
  /-- Whether other brokers listen. -/
  isLinked : Bool
  /-- The events told to other brokers, oldest first. -/
  published : List PeerEvent

namespace Engine

variable {σ : Type}

def new (settings : EngineSettings) (store : σ) (now : Int64) (newId : Nat → String) :
    Engine σ where
  settings := settings
  store := store
  now := now
  uptime := 0
  handles := .new settings.hostname
  newId := newId
  uniqueIds := 0
  workshops := .empty
  live := .empty
  sessions := .empty
  connected := []
  isLinked := false
  published := []

/-! ### Workshops -/

def workshop? (e : Engine σ) (f : String) : Option Workshop := e.workshops.get? f

/-- The workshop of a function; one that nothing is known of has an empty workshop. -/
def workshop (e : Engine σ) (f : String) : Workshop :=
  (e.workshop? f).getD (.new f e.settings.maxQueueSize)

/-- Sets up the workshop of a function that is new. -/
def establish (e : Engine σ) (f : String) : Engine σ :=
  { e with workshops := e.workshops.insert f (e.workshop f) }

def modifyWorkshop (e : Engine σ) (f : String) (change : Workshop → Workshop) : Engine σ :=
  { e with workshops := e.workshops.modify f change }

def modifyCrew (e : Engine σ) (f : String) (change : Crew → Crew) : Engine σ :=
  e.modifyWorkshop f fun w => { w with crew := change w.crew }

def setQueue (e : Engine σ) (f : String) (q : Queue) : Engine σ :=
  e.modifyWorkshop f fun w => { w with queue := q }

/-- Wakes every sleeping worker of a function. -/
def wakeCrew (e : Engine σ) (f : String) : Engine σ :=
  match e.workshop? f with
  | none => e
  | some w =>
    let (_, crew, sessions) := w.crew.wakeAll e.sessions
    { e.modifyCrew f fun _ => crew with sessions }

/-! ### Sessions and waiting clients -/

def session? (e : Engine σ) (id : SessionId) : Option Session := e.sessions.get? id

def modifySession (e : Engine σ) (id : SessionId) (change : Session → Session) : Engine σ :=
  { e with sessions := e.sessions.modify id change }

def abilities (e : Engine σ) (id : SessionId) : List String :=
  ((e.session? id).map Session.abilities).getD []

/-- Begins a session that is not connected yet. -/
def newSession (e : Engine σ) (peer : String) : SessionId × Engine σ :=
  (e.sessions.size, { e with sessions := e.sessions.insert e.sessions.size (.new peer) })

def connect (e : Engine σ) (id : SessionId) : Engine σ :=
  if id ∈ e.connected then e else { e with connected := e.connected ++ [id] }

/-- The connected sessions, oldest first. -/
def connectedSessions (e : Engine σ) : List (SessionId × Session) :=
  e.sessions.entries.filter (·.1 ∈ e.connected)

def waiters (e : Engine σ) (k : JobKey) : List SessionId :=
  (e.workshop k.functionName).waitLists.waiters k.uniqueId

/-- Nobody waits for a job any more. -/
def releaseWaiters (e : Engine σ) (k : JobKey) : Engine σ :=
  e.modifyWorkshop k.functionName fun w =>
    { w with waitLists := w.waitLists.release k.uniqueId }

def send (e : Engine σ) (ids : List SessionId) (packet : Session → Packet) : Engine σ :=
  { e with sessions := e.sessions.send packet ids }

/-- Sends a packet to everyone who waits for a job. -/
def notify (e : Engine σ) (k : JobKey) (body : Body) : Engine σ :=
  e.send (e.waiters k) fun _ => .response body

/-- Sends the last packet about a job to everyone who waits for it. -/
def dismiss (e : Engine σ) (k : JobKey) (packet : Session → Packet) : Engine σ :=
  (e.releaseWaiters k).send (e.waiters k) packet

/-- Tells other brokers, if there are any. -/
def publish (e : Engine σ) (event : PeerEvent) : Engine σ :=
  if e.isLinked then { e with published := e.published ++ [event] } else e

/-! ### What is known of jobs -/

def findJob? (e : Engine σ) (handle : String) : Option Job :=
  (e.live.ofHandle? handle).map LiveJob.job

def status (e : Engine σ) (handle : String) : JobStatus :=
  (e.findJob? handle).elim (.unknown handle) Job.status

/-- The status of the first live job with a unique id, whatever its function, and how many clients
wait for it. -/
def statusOfUnique (e : Engine σ) (uniqueId : String) : JobStatus × Nat :=
  match e.live.toList.find? (·.job.uniqueId = uniqueId) with
  | none => (.unknown "", 0)
  | some live => (live.job.status, (e.waiters live.job.key).length)

/-- The live job under a handle, if it is in the given state. -/
def jobInState (e : Engine σ) (handle : String) (state : JobState) : Except JobError LiveJob :=
  match e.live.ofHandle? handle with
  | none => .error (.jobNotFound handle)
  | some live =>
    if live.job.state = state then .ok live
    else .error (.illegalState live.job.handle state live.job.state)

/-- Sets the size at which a queue is full. -/
def setMaxQueue (e : Engine σ) (f : String) (size : Nat) : Engine σ :=
  (e.establish f).modifyWorkshop f fun w => { w with queue := { w.queue with maxSize := size } }

end Engine

end JobBroker
