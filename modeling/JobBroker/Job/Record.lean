import JobBroker.Job.Basic
import JobBroker.Json.Fields
import JobBroker.Json.Reader
import JobBroker.Json.Writer
import JobBroker.PeerEvent

/-!
# Records as JSON

The written form of jobs and of what is told about them. Data is a list of numbers below 256.
-/

namespace JobBroker

open Json

namespace Priority

def ofJson? (v : Json) : Option Priority := choice? name all v

end Priority

namespace JobState

def ofJson? (v : Json) : Option JobState := choice? name all v

end JobState

namespace Bytes

def toJson (b : Bytes) : Json := array (b.map fun o => natural o.toNat)

def ofJson? (v : Json) : Option Bytes :=
  array? (fun item => (natural? 256 item).map UInt8.ofNat) v

end Bytes

/-- A count in 32 bits. -/
def count? (v : Json) : Option UInt32 := (natural? UInt32.size v).map UInt32.ofNat

/-- A time in signed 64 bits. -/
def time? (v : Json) : Option Int64 :=
  (integer? (-9223372036854775808) 9223372036854775808 v).map Int64.ofInt

namespace JobKey

def toJson (k : JobKey) : Json :=
  record [("function_name", string k.functionName), ("unique_id", string k.uniqueId)]

def ofJson? (v : Json) : Option JobKey := do
  match ← fields? ["function_name", "unique_id"] v with
  | [f, u] => return ⟨← required string? f, ← required string? u⟩
  | _ => none

end JobKey

namespace QueuedJob

def toJson (q : QueuedJob) : Json :=
  record [("function_name", string q.functionName), ("unique_id", string q.uniqueId),
    ("handle", string q.handle), ("priority", string q.priority.name),
    ("time_to_run", integer q.timeToRun.toInt)]

def ofJson? (v : Json) : Option QueuedJob := do
  match ← fields? ["function_name", "unique_id", "handle", "priority", "time_to_run"] v with
  | [f, u, h, p, t] =>
    return ⟨← required string? f, ← required string? u, ← required string? h,
      ← required Priority.ofJson? p, ← required time? t⟩
  | _ => none

end QueuedJob

namespace JobStatus

def toJson (s : JobStatus) : Json :=
  record [("handle", string s.handle), ("state", optional (fun x => string x.name) s.state),
    ("numerator", natural s.numerator.toNat), ("denominator", natural s.denominator.toNat)]

def ofJson? (v : Json) : Option JobStatus := do
  match ← fields? ["handle", "state", "numerator", "denominator"] v with
  | [h, s, n, d] =>
    return ⟨← required string? h, ← defaulting none (nullable? JobState.ofJson?) s,
      ← required count? n, ← required count? d⟩
  | _ => none

end JobStatus

namespace PeerEvent

def toJson (e : PeerEvent) : Json :=
  record [("unique_id", string e.uniqueId), ("function_name", string e.functionName),
    ("kind", string e.kind.name), ("data", e.data.toJson)]

def ofJson? (v : Json) : Option PeerEvent := do
  match ← fields? ["unique_id", "function_name", "kind", "data"] v with
  | [u, f, k, d] =>
    return ⟨← required string? u, ← required string? f,
      ← required (choice? PeerEventKind.name PeerEventKind.all) k,
      ← defaulting [] Bytes.ofJson? d⟩
  | _ => none

end PeerEvent

namespace Job

def fieldNames : List String :=
  ["function_name", "unique_id", "handle", "priority", "background", "time_to_run", "data",
    "reducer", "state", "numerator", "denominator"]

def toJson (j : Job) : Json :=
  record (fieldNames.zip
    [string j.functionName, string j.uniqueId, string j.handle, string j.priority.name,
      bool j.background, integer j.timeToRun.toInt, j.data.toJson, optional string j.reducer,
      string j.state.name, natural j.numerator.toNat, natural j.denominator.toNat])

/-- Only the key has to be there; what is left out stands as in a new job. -/
def ofJson? (v : Json) : Option Job := do
  match ← fields? fieldNames v with
  | [f, u, h, p, b, t, d, r, s, n, m] =>
    return {
      functionName := ← required string? f
      uniqueId := ← required string? u
      handle := ← defaulting "" string? h
      priority := ← defaulting .normal Priority.ofJson? p
      background := ← defaulting false bool? b
      timeToRun := ← defaulting (-1) time? t
      data := ← defaulting [] Bytes.ofJson? d
      reducer := ← defaulting none (nullable? string?) r
      state := ← defaulting .queued JobState.ofJson? s
      numerator := ← defaulting 0 count? n
      denominator := ← defaulting 0 count? m }
  | _ => none

def toText (j : Job) : String := j.toJson.toText

def ofText? (text : String) : Option Job := ofText text >>= ofJson?

end Job

end JobBroker
