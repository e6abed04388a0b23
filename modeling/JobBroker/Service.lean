import JobBroker.Broker.Basic
import JobBroker.Store.Memory
import JobBroker.Store.Redis

/-!
# The service

A broker as its settings describe it: over the store they name, on the network it finds.
-/

namespace JobBroker

/-- A store of either kind. -/
inductive ServiceStore
  | memory (store : MemoryStore)
  | redis (store : RedisStore)

namespace ServiceStore

/-- Makes the same call to whichever store it is. -/
def call {α : Type} (f : {σ : Type} → [JobStore σ] → σ → Except JobError α × σ) :
    ServiceStore → Except JobError α × ServiceStore
  | memory s =>
    let (answer, s) := f s
    (answer, memory s)
  | redis s =>
    let (answer, s) := f s
    (answer, redis s)

instance : JobStore ServiceStore where
  name
    | memory s => JobStore.name s
    | redis s => JobStore.name s
  write j := call (JobStore.write j)
  delete k := call (JobStore.delete k)
  deleteAll := call JobStore.deleteAll
  find k := call (JobStore.find k)
  readAll := call JobStore.readAll
  ofFunction f := call (JobStore.ofFunction f)

end ServiceStore

/-- What a service finds around it. -/
structure Network where
  /-- The Redis server that answers under a URL. -/
  redis : String → Option Redis.Server
  /-- Why an address cannot be listened on. -/
  refusal : String → Option String

namespace Network

/-- No server answers, and every address is free. -/
def empty : Network := ⟨fun _ => none, fun _ => none⟩

end Network

namespace Service

def openStore (s : PersistenceSettings) (n : Network) : Except BrokerError ServiceStore :=
  match s.backend with
  | .memory => .ok (.memory .empty)
  | .redis =>
    match n.redis s.redis.url with
    | none => .error (.other ("Failed to connect to Redis at " ++ s.redis.url))
    | some server => .ok (.redis ⟨s.redis.keyPrefix, server⟩)

/-- Opens the store, takes up the jobs in it, and listens. -/
def start (s : Settings) (n : Network) (now : Int64) (newId : Nat → String)
    (sessionName : SessionId → String) : Except BrokerError (Broker ServiceStore) := do
  let store ← openStore s.persistence n
  match Broker.start s store now newId sessionName with
  | (.error e, _) => .error (.ofJobError e)
  | (.ok _, broker) =>
    match n.refusal s.server.address with
    | some reason => .error (.bind s.server.address reason)
    | none => .ok broker

end Service

end JobBroker
