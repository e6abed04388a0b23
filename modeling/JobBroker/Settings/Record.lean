import JobBroker.Json.Fields
import JobBroker.Settings.Basic

/-!
# Settings as records

The names of all settings. Each section is a record, and settings are a record of sections. What is
left out of a record stands as in the default settings; only the application's own section must be
whole where it is given.
-/

namespace JobBroker

open Json

/-- A format that settings come in: how values of type `α` are read. -/
structure SettingsFormat (α : Type) where
  fields? : List String → α → Option (List (Option α))
  text? : α → Option String
  flag? : α → Option Bool
  /-- A number below a bound. -/
  number? : Nat → α → Option Nat
  choice? : {β : Type} → (β → String) → List β → α → Option β

namespace SettingsFormat

/-- JSON, in which every value has its own type. -/
def json : SettingsFormat Json :=
  ⟨Json.fields?, Json.string?, Json.bool?, Json.natural?, Json.choice?⟩

/-- A size in 64 bits. -/
def size? {α : Type} (s : SettingsFormat α) : α → Option Nat := s.number? UInt64.size

end SettingsFormat

section Read

variable {α : Type} (s : SettingsFormat α) (v : α)

def AppSettings.read : Option AppSettings := do
  match ← s.fields? ["name", "version", "environment"] v with
  | [n, ve, e] => return ⟨← required s.text? n, ← required s.text? ve, ← required s.text? e⟩
  | _ => none

def ServerSettings.read : Option ServerSettings := do
  let d := ServerSettings.default
  match ← s.fields? ["host", "port", "max_packet_size", "max_text_line"] v with
  | [h, p, m, l] =>
    return ⟨← defaulting d.host s.text? h,
      UInt16.ofNat (← defaulting d.port.toNat (s.number? UInt16.size) p),
      ← defaulting d.maxPacketSize s.size? m, ← defaulting d.maxTextLine s.size? l⟩
  | _ => none

def EngineSettings.read : Option EngineSettings := do
  let d := EngineSettings.default
  match ← s.fields? ["hostname", "long_poll_interval_secs", "max_queue_size",
      "worker_disconnect_policy"] v with
  | [h, l, m, p] =>
    return ⟨← defaulting d.hostname s.text? h, ← defaulting d.longPollSeconds s.size? l,
      ← defaulting d.maxQueueSize s.size? m,
      ← defaulting d.disconnectPolicy (s.choice? DisconnectPolicy.name DisconnectPolicy.all) p⟩
  | _ => none

def RedisSettings.read : Option RedisSettings := do
  let d := RedisSettings.default
  match ← s.fields? ["url", "pool_size", "key_prefix"] v with
  | [u, p, k] =>
    return ⟨← defaulting d.url s.text? u, ← defaulting d.poolSize s.size? p,
      ← defaulting d.keyPrefix s.text? k⟩
  | _ => none

def PersistenceSettings.read : Option PersistenceSettings := do
  let d := PersistenceSettings.default
  match ← s.fields? ["backend", "redis"] v with
  | [b, r] =>
    return ⟨← defaulting d.backend (s.choice? Backend.name Backend.all) b,
      ← defaulting d.redis (RedisSettings.read s) r⟩
  | _ => none

def LoggingSettings.read : Option LoggingSettings := do
  let d := LoggingSettings.default
  match ← s.fields? ["filter", "json", "with_target"] v with
  | [f, j, t] =>
    return ⟨← defaulting d.filter s.text? f, ← defaulting d.json s.flag? j,
      ← defaulting d.withTarget s.flag? t⟩
  | _ => none

/-- Reads all sections; unknown names are skipped. -/
def Settings.read : Option Settings := do
  match ← s.fields? ["app", "server", "engine", "persistence", "logging"] v with
  | [a, sv, e, p, l] =>
    return ⟨← defaulting .default (AppSettings.read s) a,
      ← defaulting .default (ServerSettings.read s) sv,
      ← defaulting .default (EngineSettings.read s) e,
      ← defaulting .default (PersistenceSettings.read s) p,
      ← defaulting .default (LoggingSettings.read s) l⟩
  | _ => none

end Read

namespace Settings

/-- All settings under their names. -/
def toJson (s : Settings) : Json :=
  record [
    ("app", record [("name", string s.app.name), ("version", string s.app.version),
      ("environment", string s.app.environment)]),
    ("server", record [("host", string s.server.host), ("port", natural s.server.port.toNat),
      ("max_packet_size", natural s.server.maxPacketSize),
      ("max_text_line", natural s.server.maxTextLine)]),
    ("engine", record [("hostname", string s.engine.hostname),
      ("long_poll_interval_secs", natural s.engine.longPollSeconds),
      ("max_queue_size", natural s.engine.maxQueueSize),
      ("worker_disconnect_policy", string s.engine.disconnectPolicy.name)]),
    ("persistence", record [("backend", string s.persistence.backend.name),
      ("redis", record [("url", string s.persistence.redis.url),
        ("pool_size", natural s.persistence.redis.poolSize),
        ("key_prefix", string s.persistence.redis.keyPrefix)])]),
    ("logging", record [("filter", string s.logging.filter), ("json", bool s.logging.json),
      ("with_target", bool s.logging.withTarget)])]

end Settings

end JobBroker
