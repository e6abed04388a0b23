import JobBroker.Priority

/-!
# Kinds of packets

The two magic words, the 41 kinds with their numbers and names, and the look-up of either by its
number.

* `Kind.ofOrdinal?_ordinal` : each kind is found under its own number.
-/

namespace JobBroker

/-- Which side of a connection a packet claims to come from. -/
inductive Magic
  | request
  | response
deriving DecidableEq, Repr

namespace Magic

/-- A zero octet and three letters. -/
def code : Magic → UInt32
  | request => 0x00524551
  | response => 0x00524553

def name : Magic → String
  | request => "REQ"
  | response => "RES"

def ofCode? (code : UInt32) : Option Magic :=
  [request, response].find? (·.code = code)

@[simp] theorem ofCode?_code (m : Magic) : ofCode? m.code = some m := by cases m <;> rfl

theorem code_of_ofCode? {w : UInt32} {m : Magic} (h : ofCode? w = some m) : m.code = w := by
  simpa using List.find?_some h

end Magic

/-- What a packet asks for or tells. The six plain submissions are one kind with two parameters,
and so are the two that name a reducer. -/
inductive Kind
  | canDo
  | cantDo
  | resetAbilities
  | preSleep
  | noop
  | submitJob (priority : Priority) (background : Bool)
  | jobCreated
  | grabJob
  | noJob
  | jobAssign
  | workStatus
  | workComplete
  | workFail
  | getStatus
  | echoReq
  | echoRes
  | error
  | statusRes
  | setClientId
  | canDoTimeout
  | allYours
  | workException
  | optionReq
  | optionRes
  | workData
  | workWarning
  | grabJobUniq
  | jobAssignUniq
  | submitJobSched
  | submitJobEpoch
  | submitReduceJob (background : Bool)
  | grabJobAll
  | jobAssignAll
  | getStatusUnique
  | statusResUnique
deriving DecidableEq, Repr

namespace Kind

/-- The number of a kind in the header of a packet. -/
def ordinal : Kind → UInt32
  | canDo => 1
  | cantDo => 2
  | resetAbilities => 3
  | preSleep => 4
  | noop => 6
  | submitJob .normal false => 7
  | jobCreated => 8
  | grabJob => 9
  | noJob => 10
  | jobAssign => 11
  | workStatus => 12
  | workComplete => 13
  | workFail => 14
  | getStatus => 15
  | echoReq => 16
  | echoRes => 17
  | submitJob .normal true => 18
  | error => 19
  | statusRes => 20
  | submitJob .high false => 21
  | setClientId => 22
  | canDoTimeout => 23
  | allYours => 24
  | workException => 25
  | optionReq => 26
  | optionRes => 27
  | workData => 28
  | workWarning => 29
  | grabJobUniq => 30
  | jobAssignUniq => 31
  | submitJob .high true => 32
  | submitJob .low false => 33
  | submitJob .low true => 34
  | submitJobSched => 35
  | submitJobEpoch => 36
  | submitReduceJob false => 37
  | submitReduceJob true => 38
  | grabJobAll => 39
  | jobAssignAll => 40
  | getStatusUnique => 41
  | statusResUnique => 42

/-- Every kind, by rising number. -/
def all : List Kind :=
  [canDo, cantDo, resetAbilities, preSleep, noop, submitJob .normal false, jobCreated, grabJob,
    noJob, jobAssign, workStatus, workComplete, workFail, getStatus, echoReq, echoRes,
    submitJob .normal true, error, statusRes, submitJob .high false, setClientId, canDoTimeout,
    allYours, workException, optionReq, optionRes, workData, workWarning, grabJobUniq,
    jobAssignUniq, submitJob .high true, submitJob .low false, submitJob .low true,
    submitJobSched, submitJobEpoch, submitReduceJob false, submitReduceJob true, grabJobAll,
    jobAssignAll, getStatusUnique, statusResUnique]

def name : Kind → String
  | canDo => "CAN_DO"
  | cantDo => "CANT_DO"
  | resetAbilities => "RESET_ABILITIES"
  | preSleep => "PRE_SLEEP"
  | noop => "NOOP"
  | submitJob .normal false => "SUBMIT_JOB"
  | jobCreated => "JOB_CREATED"
  | grabJob => "GRAB_JOB"
  | noJob => "NO_JOB"
  | jobAssign => "JOB_ASSIGN"
  | workStatus => "WORK_STATUS"
  | workComplete => "WORK_COMPLETE"
  | workFail => "WORK_FAIL"
  | getStatus => "GET_STATUS"
  | echoReq => "ECHO_REQ"
  | echoRes => "ECHO_RES"
  | submitJob .normal true => "SUBMIT_JOB_BG"
  | error => "ERROR"
  | statusRes => "STATUS_RES"
  | submitJob .high false => "SUBMIT_JOB_HIGH"
  | setClientId => "SET_CLIENT_ID"
  | canDoTimeout => "CAN_DO_TIMEOUT"
  | allYours => "ALL_YOURS"
  | workException => "WORK_EXCEPTION"
  | optionReq => "OPTION_REQ"
  | optionRes => "OPTION_RES"
  | workData => "WORK_DATA"
  | workWarning => "WORK_WARNING"
  | grabJobUniq => "GRAB_JOB_UNIQ"
  | jobAssignUniq => "JOB_ASSIGN_UNIQ"
  | submitJob .high true => "SUBMIT_JOB_HIGH_BG"
  | submitJob .low false => "SUBMIT_JOB_LOW"
  | submitJob .low true => "SUBMIT_JOB_LOW_BG"
  | submitJobSched => "SUBMIT_JOB_SCHED"
  | submitJobEpoch => "SUBMIT_JOB_EPOCH"
  | submitReduceJob false => "SUBMIT_REDUCE_JOB"
  | submitReduceJob true => "SUBMIT_REDUCE_JOB_BACKGROUND"
  | grabJobAll => "GRAB_JOB_ALL"
  | jobAssignAll => "JOB_ASSIGN_ALL"
  | getStatusUnique => "GET_STATUS_UNIQUE"
  | statusResUnique => "STATUS_RES_UNIQUE"

def ofOrdinal? (n : UInt32) : Option Kind := all.find? (·.ordinal = n)

@[simp] theorem ofOrdinal?_ordinal (k : Kind) : ofOrdinal? k.ordinal = some k := by
  cases k with
  | submitJob p b => cases p <;> cases b <;> decide
  | submitReduceJob b => cases b <;> decide
  | _ => decide

theorem ordinal_of_ofOrdinal? {n : UInt32} {k : Kind} (h : ofOrdinal? n = some k) :
    k.ordinal = n := by
  simpa using List.find?_some h

end Kind

end JobBroker
