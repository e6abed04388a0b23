import JobBroker.Admin.Reply
import JobBroker.Engine.Departure
import JobBroker.Engine.Submission

/-!
# Reactions to frames

What the broker does about one frame of a peer, and what it answers at once. Packets that the
engine puts into outboxes are not answers; they are written later.
-/

namespace JobBroker

/-- The three ways to ask for a job. They differ in what the answer tells about it. -/
inductive Grab
  | plain
  | unique
  | all
deriving DecidableEq, Repr

namespace Grab

def assignment (g : Grab) (j : Job) : Body :=
  match g with
  | plain => .jobAssign j.handle j.functionName j.data
  | unique => .jobAssignUniq j.handle j.functionName j.uniqueId j.data
  | all => .jobAssignAll j.handle j.functionName j.uniqueId (j.reducer.getD "") j.data

end Grab

/-- What a connection writes, and whether it goes on. -/
structure Reaction where
  reply : Option Frame
  /-- The connection is closed. -/
  closes : Bool
  /-- The whole broker stops. -/
  stops : Bool
deriving DecidableEq, Repr

namespace Engine

variable {σ : Type} [JobStore σ]

def refusal (e : JobError) : Body := .error e.code e.message

/-- Answers a submission with the handle of the job or with the reason why there is none. -/
def answerSubmission (e : Engine σ) (id : SessionId) (j : Job) : Option Body × Engine σ :=
  match e.submit j (if j.background then none else some id) with
  | (.ok j, e) => (some (.jobCreated j.handle), e)
  | (.error err, e) => (some (refusal err), e)

/-- Answers a report of a worker only when it is refused. -/
def answerReport {α : Type} : Except JobError α × Engine σ → Option Body × Engine σ
  | (.ok _, e) => (none, e)
  | (.error err, e) => (some (refusal err), e)

def answerGrab (e : Engine σ) (id : SessionId) (g : Grab) : Option Body × Engine σ :=
  match e.nextJob id with
  | (some j, e) => (some (g.assignment j), e)
  | (none, e) => (some .noJob, e)

/-- Answers one request. Requests that the broker does not serve are ignored. -/
def answer (e : Engine σ) (id : SessionId) : Body → Option Body × Engine σ
  | .echoReq data => (some (.echoRes data), e)
  | .canDo f => (none, e.addAbility id f none)
  | .canDoTimeout f t => (none, e.addAbility id f (some t))
  | .cantDo f => (none, e.removeAbility id f)
  | .resetAbilities => (none, e.resetAbilities id)
  | .preSleep => (none, e.sleep id)
  | .grabJob => e.answerGrab id .plain
  | .grabJobUniq => e.answerGrab id .unique
  | .grabJobAll => e.answerGrab id .all
  | .submitJob priority background f u data =>
    e.answerSubmission id { Job.new f u data with priority, background }
  | .submitJobEpoch f u epoch data =>
    e.answerSubmission id { Job.new f u data with background := true, timeToRun := epoch }
  | .submitReduceJob background f u reducer data =>
    e.answerSubmission id { Job.new f u data with background, reducer := some reducer }
  | .submitJobSched .. =>
    (some (.error "ERR_NOT_SUPPORTED" "Recurring jobs are not supported"), e)
  | .workStatus h n d => answerReport (e.reportProgress h n d)
  | .workData h data => answerReport (e.reportData h data)
  | .workWarning h data => answerReport (e.reportWarning h data)
  | .workComplete h data => answerReport (e.finish h (.complete data))
  | .workFail h => answerReport (e.finish h .fail)
  | .workException h data => answerReport (e.finish h (.exception data))
  | .getStatus h =>
    let s := e.status h
    (some (.statusRes h s.isKnown s.isRunning s.numerator s.denominator), e)
  | .getStatusUnique u =>
    let (s, waiting) := e.statusOfUnique u
    (some (.statusResUnique u s.isKnown s.isRunning s.numerator s.denominator
      (UInt32.ofNat (min waiting (UInt32.size - 1)))), e)
  | .setClientId i => (none, e.modifySession id fun s => { s with clientId := some i })
  | .optionReq option =>
    if option = "exceptions" then
      (some (.optionRes option), e.modifySession id fun s => { s with wantsExceptions := true })
    else (some (.error "ERR_UNKNOWN_OPTION" ("Unknown option: " ++ option)), e)
  | _ => (none, e)

/-- Reacts to what has been read of a stream: a request, a line of text, or an error. A packet that
claims to be a response is ignored. -/
def react (e : Engine σ) (name : SessionId → String) (id : SessionId) :
    Event → Reaction × Engine σ
  | .frame (.packet ⟨.request, body⟩) =>
    let (reply, e) := e.answer id body
    (⟨reply.map fun b => .packet (.response b), false, false⟩, e)
  | .frame (.packet ⟨.response, _⟩) => (⟨none, false, false⟩, e)
  | .frame (.text line) =>
    let (reply, e) := e.runAdmin name (.parse line)
    (⟨some (.text reply.text), reply.shutdown, reply.shutdown⟩, e)
  | .error err =>
    if err.isFatal then (⟨none, true, false⟩, e)
    else (⟨some (.packet (.response (.error "ERR_PROTOCOL" err.message))), false, false⟩, e)

end Engine

end JobBroker
