import JobBroker.Table
import JobBroker.Text.Order

/-!
# A Redis server

The part of a Redis server that a store needs: hashes and sets under keys, and transactions that
are run as a whole or not at all. The server keeps a log of the commands it was sent, and may
refuse commands by name.
-/

namespace JobBroker.Redis

inductive Command
  | hset (key field value : String)
  | hdel (key field : String)
  | hget (key field : String)
  | hvals (key : String)
  | sadd (key member : String)
  | smembers (key : String)
  | del (key : String)
  | multi
  | exec
deriving DecidableEq, Repr

namespace Command

/-- The name of a command and its arguments, as they are sent. -/
def words : Command → List String
  | hset k f v => ["HSET", k, f, v]
  | hdel k f => ["HDEL", k, f]
  | hget k f => ["HGET", k, f]
  | hvals k => ["HVALS", k]
  | sadd k m => ["SADD", k, m]
  | smembers k => ["SMEMBERS", k]
  | del k => ["DEL", k]
  | multi => ["MULTI"]
  | exec => ["EXEC"]

def name (c : Command) : String := c.words.headD ""

end Command

/-- Texts, as many as the command has found: a field is one or none. -/
abbrev Reply := List String

/-- A server that is sent commands. -/
class Host (σ : Type) where
  /-- Sends one command; there is no reply when it is refused. -/
  call : Command → σ → Option Reply × σ
  /-- Sends commands that are run as a whole. When one of them is refused, none is run. -/
  transaction : List Command → σ → Bool × σ

structure Server where
  /-- An empty hash is not kept. -/
  hashes : Table String (Table String String)
  sets : Table String (List String)
  /-- The names of the commands that are answered with an error. -/
  refused : List String
  log : List Command
deriving Repr

namespace Server

open Text

def empty : Server := ⟨.empty, .empty, [], []⟩

def hash (s : Server) (key : String) : Table String String := (s.hashes.get? key).getD .empty

def members (s : Server) (key : String) : List String := (s.sets.get? key).getD []

/-- What a command does to the data. The values of a hash come in the order of its fields, and the
members of a set in their own. -/
def apply (s : Server) : Command → Reply × Server
  | .hset k f v => ([], { s with hashes := s.hashes.insert k ((s.hash k).insert f v) })
  | .hdel k f =>
    let rest := (s.hash k).erase f
    ([], { s with
      hashes := if rest.isEmpty then s.hashes.erase k else s.hashes.insert k rest })
  | .hget k f => (((s.hash k).get? f).toList, s)
  | .hvals k => ((sortOn Prod.fst (s.hash k).entries).map Prod.snd, s)
  | .sadd k m =>
    if m ∈ s.members k then ([], s)
    else ([], { s with sets := s.sets.insert k (s.members k ++ [m]) })
  | .smembers k => (sortOn id (s.members k), s)
  | .del k => ([], { s with hashes := s.hashes.erase k, sets := s.sets.erase k })
  | .multi | .exec => ([], s)

def note (s : Server) (cs : List Command) : Server := { s with log := s.log ++ cs }

def refuses (s : Server) (c : Command) : Bool := s.refused.contains c.name

def call (c : Command) (s : Server) : Option Reply × Server :=
  if s.refuses c then (none, s.note [c])
  else
    let (reply, s) := (s.note [c]).apply c
    (some reply, s)

def transaction (cs : List Command) (s : Server) : Bool × Server :=
  let sent := .multi :: cs ++ [.exec]
  if sent.any s.refuses then (false, s.note sent)
  else (true, cs.foldl (fun s c => (s.apply c).2) (s.note sent))

instance : Host Server := ⟨call, transaction⟩

end Server

end JobBroker.Redis
