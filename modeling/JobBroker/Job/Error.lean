import JobBroker.Job.Basic
import JobBroker.Text.Numeral

/-!
# Errors of the broker

`JobError` is why a job or a report was refused; `BrokerError` is why the broker itself could not go
on.
-/

namespace JobBroker

inductive JobError
  /-- The job could not be stored, so it was not taken in. -/
  | enqueue (functionName uniqueId reason : String)
  | queueFull (functionName : String) (capacity : Nat)
  | persistence (text : String)
  | illegalState (handle : String) (expected actual : JobState)
  | jobNotFound (handle : String)
  /-- A stored record cannot be read. -/
  | serialization
  | redis (text : String)
  | redisPool (text : String)
  | configuration (text : String)
  | internal (text : String)
deriving DecidableEq, Repr

namespace JobError

open Text in
def message : JobError → String
  | enqueue f u reason => "Failed to enqueue job " ++ u ++ " for " ++ f ++ ": " ++ reason
  | queueFull f n => "Queue for " ++ f ++ " is full (" ++ decimal n ++ " jobs)"
  | persistence text => "Persistence error: " ++ text
  | illegalState h expected actual =>
    "Job " ++ h ++ " is " ++ actual.name ++ ", expected " ++ expected.name
  | jobNotFound h => "Job not found: " ++ h
  | serialization => "Serialization error"
  | redis text => "Redis error: " ++ text
  | redisPool text => "Redis pool error: " ++ text
  | configuration text => "Configuration error: " ++ text
  | internal text => "Internal error: " ++ text

/-- What peers are told. -/
def code : JobError → String
  | enqueue .. => "ERR_ENQUEUE"
  | queueFull .. => "ERR_QUEUE_FULL"
  | illegalState .. => "ERR_ILLEGAL_STATE"
  | jobNotFound _ => "ERR_JOB_NOT_FOUND"
  | _ => "ERR_INTERNAL"

/-- The error refuses a submission. -/
def isAdmission : JobError → Bool
  | enqueue .. | queueFull .. => true
  | _ => false

/-- Whoever meets the error may go on without the call. -/
def isRecoverable : JobError → Bool
  | persistence _ | illegalState .. | jobNotFound _ | redis _ | redisPool _ => true
  | _ => false

end JobError

inductive BrokerError
  | configuration (text : String)
  | io (text : String)
  | bind (address text : String)
  | persistence (text : String)
  | engine (text : String)
  | protocol (text : String)
  | internal (text : String)
  | other (text : String)
deriving DecidableEq, Repr

namespace BrokerError

def message : BrokerError → String
  | configuration text => "Configuration error: " ++ text
  | io text => "I/O error: " ++ text
  | bind address text => "Failed to bind " ++ address ++ ": " ++ text
  | persistence text => "Persistence error: " ++ text
  | engine text => "Job engine error: " ++ text
  | protocol text => "Protocol error: " ++ text
  | internal text => "Internal error: " ++ text
  | other text => text

def code : BrokerError → String
  | configuration _ => "CONFIGURATION_ERROR"
  | io _ => "IO_ERROR"
  | bind .. => "BIND_ERROR"
  | persistence _ => "PERSISTENCE_ERROR"
  | engine _ => "ENGINE_ERROR"
  | protocol _ => "PROTOCOL_ERROR"
  | internal _ | other _ => "INTERNAL_ERROR"

/-- The broker cannot start. -/
def isFatal : BrokerError → Bool
  | configuration _ | bind .. => true
  | _ => false

/-- Errors of the store keep their name, and wrong settings their text. -/
def ofJobError : JobError → BrokerError
  | .configuration text => configuration text
  | .persistence text => persistence (JobError.persistence text).message
  | .redis text => persistence (JobError.redis text).message
  | .redisPool text => persistence (JobError.redisPool text).message
  | e => engine e.message

end BrokerError

end JobBroker
