import JobBroker.Bytes

/-!
# Events between brokers

What brokers that serve the same functions tell each other.
-/

namespace JobBroker

inductive PeerEventKind
  | submitJob
  | workComplete
  | workData
deriving DecidableEq, Repr

namespace PeerEventKind

def name : PeerEventKind → String
  | submitJob => "SUBMIT_JOB"
  | workComplete => "WORK_COMPLETE"
  | workData => "WORK_DATA"

def all : List PeerEventKind := [submitJob, workComplete, workData]

end PeerEventKind

structure PeerEvent where
  uniqueId : String
  functionName : String
  kind : PeerEventKind
  data : Bytes
deriving DecidableEq, Repr

end JobBroker
