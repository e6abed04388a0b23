import JobBroker.Frame.Decoder
import JobBroker.Job.Error

/-!
# Settings

What can be set about a broker, section by section, with the value that holds where nothing is set,
and the conditions that settings have to meet.

* `Settings.problem?` : the first condition that is not met.
-/

namespace JobBroker

/-- What becomes of a job whose worker disconnects: it is queued again, or it has failed. -/
inductive DisconnectPolicy
  | requeue
  | fail
deriving DecidableEq, Repr

namespace DisconnectPolicy

def name : DisconnectPolicy → String
  | requeue => "requeue"
  | fail => "fail"

def all : List DisconnectPolicy := [requeue, fail]

end DisconnectPolicy

/-- Where jobs are stored. -/
inductive Backend
  | memory
  | redis
deriving DecidableEq, Repr

namespace Backend

def name : Backend → String
  | memory => "memory"
  | redis => "redis"

def all : List Backend := [memory, redis]

end Backend

/-- What the broker is called. -/
structure AppSettings where
  name : String
  version : String
  environment : String
deriving DecidableEq, Repr

/-- Where the broker listens and how much it takes from a peer at once. -/
structure ServerSettings where
  host : String
  port : UInt16
  maxPacketSize : Nat
  maxTextLine : Nat
deriving DecidableEq, Repr

structure EngineSettings where
  /-- The host that job handles name. -/
  hostname : String
  /-- A sleeping worker is told to ask again after this many seconds. So many that no clock would
  count up to their end are out of the model, see `Engine.sleep`. -/
  longPollSeconds : Nat
  /-- The size at which the queue of a function is full; zero sets no limit. -/
  maxQueueSize : Nat
  disconnectPolicy : DisconnectPolicy
deriving DecidableEq, Repr

structure RedisSettings where
  url : String
  poolSize : Nat
  keyPrefix : String
deriving DecidableEq, Repr

structure PersistenceSettings where
  backend : Backend
  redis : RedisSettings
deriving DecidableEq, Repr

structure LoggingSettings where
  filter : String
  json : Bool
  withTarget : Bool
deriving DecidableEq, Repr

structure Settings where
  app : AppSettings
  server : ServerSettings
  engine : EngineSettings
  persistence : PersistenceSettings
  logging : LoggingSettings
deriving DecidableEq, Repr

/-- The version of this broker. -/
def brokerVersion : String := "0.1.0"

def AppSettings.default : AppSettings := ⟨"foreman", brokerVersion, "development"⟩

def ServerSettings.default : ServerSettings :=
  ⟨"0.0.0.0", 4730, Limits.default.payload, Limits.default.line⟩

def EngineSettings.default : EngineSettings := ⟨"localhost", 30, 0, .requeue⟩

def RedisSettings.default : RedisSettings := ⟨"redis://localhost:6379", 10, "foreman"⟩

def PersistenceSettings.default : PersistenceSettings := ⟨.memory, .default⟩

def LoggingSettings.default : LoggingSettings := ⟨"info,foreman=debug", false, true⟩

namespace ServerSettings

open Text in
/-- Host and port, as the address to listen on. -/
def address (s : ServerSettings) : String := s.host ++ ":" ++ decimal s.port.toNat

def limits (s : ServerSettings) : Limits := ⟨s.maxPacketSize, s.maxTextLine⟩

end ServerSettings

namespace Settings

def default : Settings := ⟨.default, .default, .default, .default, .default⟩

instance : Inhabited Settings := ⟨default⟩

/-- A condition that settings fail. -/
inductive Problem
  | noPacketSize
  | noTextLine
  | hostname (hostname : String)
  | noLongPoll
  | noRedisUrl
deriving DecidableEq, Repr

namespace Problem

def message : Problem → String
  | noPacketSize => "server.max_packet_size must be greater than zero"
  | noTextLine => "server.max_text_line must be greater than zero"
  | hostname h => "engine.hostname '" ++ h ++ "' must be non-empty and contain no ':'"
  | noLongPoll => "engine.long_poll_interval_secs must be greater than zero"
  | noRedisUrl => "persistence.redis.url is required for the redis backend"

def toError (p : Problem) : BrokerError := .configuration p.message

end Problem

/-- The host name ends at a colon inside a handle, so it must not hold one. -/
def problem? (s : Settings) : Option Problem :=
  if s.server.maxPacketSize = 0 then some .noPacketSize
  else if s.server.maxTextLine = 0 then some .noTextLine
  else if s.engine.hostname.toList = [] ∨ ':' ∈ s.engine.hostname.toList then
    some (.hostname s.engine.hostname)
  else if s.engine.longPollSeconds = 0 then some .noLongPoll
  else if s.persistence.backend = .redis ∧ s.persistence.redis.url.toList = [] then some .noRedisUrl
  else none

end Settings

end JobBroker
