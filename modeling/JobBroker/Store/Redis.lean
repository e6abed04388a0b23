import JobBroker.Job.Record
import JobBroker.Redis.Server
import JobBroker.Store.Basic

/-!
# A store in Redis

The records of one function are the values of a hash, by unique id, in JSON. A set holds the names
of all functions that ever had a record, so that they can be found again.
-/

namespace JobBroker

/-- A store over a server of any kind. -/
structure RedisStore (σ : Type := Redis.Server) where
  keyPrefix : String
  server : σ
deriving Repr

namespace RedisStore

open Redis

/-- The hash with the records of a function. -/
def jobsKey (keyPrefix functionName : String) : String := keyPrefix ++ ":jobs:" ++ functionName

/-- The set with the names of the functions. -/
def functionsKey (keyPrefix : String) : String := keyPrefix ++ ":functions"

variable {σ : Type} [Host σ]

def refused : JobError := .redis "An error was signalled by the server - ResponseError: refused"

def call (c : Command) (s : RedisStore σ) : Except JobError Reply × RedisStore σ :=
  let (reply, server) := Host.call c s.server
  (reply.elim (.error refused) .ok, { s with server })

def transaction (cs : List Command) (s : RedisStore σ) : Except JobError Unit × RedisStore σ :=
  let (done, server) := Host.transaction cs s.server
  (if done then .ok () else .error refused, { s with server })

/-- Values that cannot be read are left out. -/
def summaries (values : Reply) : List QueuedJob :=
  values.filterMap fun text => (Job.ofText? text).map Job.summary

def find (k : JobKey) (s : RedisStore σ) : Except JobError (Option Job) × RedisStore σ :=
  match s.call (.hget (jobsKey s.keyPrefix k.functionName) k.uniqueId) with
  | (.error e, s) => (.error e, s)
  | (.ok [], s) => (.ok none, s)
  | (.ok (text :: _), s) => ((Job.ofText? text).elim (.error .serialization) (.ok ∘ some), s)

def ofFunction (f : String) (s : RedisStore σ) :
    Except JobError (List QueuedJob) × RedisStore σ :=
  match s.call (.hvals (jobsKey s.keyPrefix f)) with
  | (.error e, s) => (.error e, s)
  | (.ok values, s) => (.ok (summaries values), s)

/-- The records of several functions, up to the first that the server refuses. -/
def ofFunctions : List String → RedisStore σ → Except JobError (List QueuedJob) × RedisStore σ
  | [], s => (.ok [], s)
  | f :: fs, s =>
    match ofFunction f s with
    | (.error e, s) => (.error e, s)
    | (.ok jobs, s) =>
      match ofFunctions fs s with
      | (.error e, s) => (.error e, s)
      | (.ok rest, s) => (.ok (jobs ++ rest), s)

instance : JobStore (RedisStore σ) where
  name _ := "redis"
  write j s :=
    let (answer, s) := s.transaction
      [.hset (jobsKey s.keyPrefix j.functionName) j.uniqueId j.toText,
        .sadd (functionsKey s.keyPrefix) j.functionName]
    (answer.map fun _ => true, s)
  delete k s :=
    let (answer, s) := s.call (.hdel (jobsKey s.keyPrefix k.functionName) k.uniqueId)
    (answer.map fun _ => (), s)
  deleteAll s :=
    match s.call (.smembers (functionsKey s.keyPrefix)) with
    | (.error e, s) => (.error e, s)
    | (.ok names, s) =>
      s.transaction ((names.map fun f => .del (jobsKey s.keyPrefix f))
        ++ [.del (functionsKey s.keyPrefix)])
  find := find
  readAll s :=
    match s.call (.smembers (functionsKey s.keyPrefix)) with
    | (.error e, s) => (.error e, s)
    | (.ok names, s) => ofFunctions names s
  ofFunction := ofFunction

end RedisStore

end JobBroker
