import JobBroker.Engine.Basic

/-!
# Work

What workers do: they say which functions they can do, sleep until there is work, take jobs, and
report on them.
-/

namespace JobBroker

/-- How work on a job ends. -/
inductive Outcome
  | complete (data : Bytes)
  | fail
  | exception (data : Bytes)
deriving DecidableEq, Repr

namespace Outcome

def state : Outcome → JobState
  | complete _ => .complete
  | fail | exception _ => .failed

/-- What a waiting session is told. Only those that have asked for exceptions are told of one. -/
def packet (o : Outcome) (handle : String) (waiter : Session) : Packet :=
  match o with
  | complete data => .response (.workComplete handle data)
  | fail => .response (.workFail handle)
  | exception data =>
    if waiter.wantsExceptions then .response (.workException handle data)
    else .response (.workFail handle)

end Outcome

namespace Engine

variable {σ : Type}

/-! ### Abilities and sleep -/

def addAbility (e : Engine σ) (id : SessionId) (f : String) (timeout : Option UInt32) : Engine σ :=
  ((e.modifySession id (·.addAbility f timeout)).establish f).modifyCrew f (·.add id)

def removeAbility (e : Engine σ) (id : SessionId) (f : String) : Engine σ :=
  (e.modifySession id (·.removeAbility f)).modifyCrew f (·.remove id)

/-- Takes a session out of the crews of some functions. -/
def leaveCrews (e : Engine σ) (id : SessionId) (fs : List String) : Engine σ :=
  fs.foldl (fun e f => e.modifyCrew f (·.remove id)) e

def resetAbilities (e : Engine σ) (id : SessionId) : Engine σ :=
  (e.modifySession id Session.clearAbilities).leaveCrews id (e.abilities id)

/-- Ends the sleep of one worker. -/
def wake (e : Engine σ) (id : SessionId) : Engine σ :=
  ((e.abilities id).foldl (fun e f => e.modifyCrew f (·.removeSleeper id)) e).modifySession id
    Session.wake

/-- Puts a worker to sleep until there is a job for it, or the long poll is over. When there is one
already it is woken at once. This holds where the second at which the long poll is over is one that
a clock can show, below `2 ^ 63`. Elsewhere the call does not return, and nothing has changed: that
second is the first thing it works out. -/
def sleep (e : Engine σ) (id : SessionId) : Engine σ :=
  let fs := e.abilities id
  let e := e.modifySession id (·.sleepUntil (e.uptime + e.settings.longPollSeconds))
  let e := fs.foldl (fun e f => (e.establish f).modifyCrew f (·.addSleeper id)) e
  if fs.any fun f => (e.workshop f).queue.hasReady e.now then e.wake id else e

section Stored

variable [JobStore σ]

/-! ### Taking jobs -/

/-- A job whose record is lost cannot be done; whoever waits for it is told that it has failed. -/
def dropLost (e : Engine σ) (k : JobKey) : Engine σ :=
  match e.live.find? k with
  | none => e
  | some live =>
    { e with live := e.live.erase k }.dismiss k fun _ => .response (.workFail live.job.handle)

/-- Hands a job that was queued to a worker. The record stands in for a job that is not live. -/
def assign (e : Engine σ) (k : JobKey) (record : Job) (id : SessionId) : Job × Engine σ :=
  let j := { ((e.live.find? k).map LiveJob.job).getD record with state := .working }
  let live :=
    if (e.live.find? k).isSome then e.live.modify k fun _ => ⟨j, some id⟩
    else e.live.insert j (some id)
  (j, { e with live }.modifySession id (·.assign j.handle))

/-- The first ready job among some functions, in their order. -/
def takeFrom (e : Engine σ) (id : SessionId) : List String → Option Job × Engine σ
  | [] => (none, e)
  | f :: fs =>
    match e.workshop? f with
    | none => e.takeFrom id fs
    | some w =>
      match w.queue.takeNext e.now with
      | (none, queue) => (e.setQueue f queue).takeFrom id fs
      | (some queued, queue) =>
        match queue.resolve queued e.store with
        | (none, store) =>
          ({ e.setQueue f queue with store }.dropLost queued.key).takeFrom id fs
        | (some record, store) =>
          let (j, e) := { e.setQueue f queue with store }.assign queued.key record id
          (some j, e)

/-- The next job for a worker. -/
def nextJob (e : Engine σ) (id : SessionId) : Option Job × Engine σ :=
  e.takeFrom id (e.abilities id)

/-! ### Reports -/

/-- Ends the work on a job. -/
def finish (e : Engine σ) (handle : String) (outcome : Outcome) : Except JobError Job × Engine σ :=
  match e.live.keyOf? handle with
  | none => (.error (.jobNotFound handle), e)
  | some k =>
    let e := e.establish k.functionName
    match e.jobInState handle .working with
    | .error err => (.error err, e)
    | .ok live =>
      let j := { live.job with state := outcome.state }
      let e := { e with live := e.live.erase k }
      let e :=
        match live.worker with
        | some id => if id ∈ e.connected then e.modifySession id (·.release handle) else e
        | none => e
      let e := e.dismiss k (outcome.packet handle)
      let e := { e with store := (JobStore.delete k e.store).2 }
      match outcome with
      | .complete data => (.ok j, e.publish ⟨k.uniqueId, k.functionName, .workComplete, data⟩)
      | _ => (.ok j, e)

end Stored

/-- Notes how far the work on a job has come. -/
def reportProgress (e : Engine σ) (handle : String) (numerator denominator : UInt32) :
    Except JobError Unit × Engine σ :=
  match e.jobInState handle .working with
  | .error err => (.error err, e)
  | .ok live =>
    let k := live.job.key
    let e := { e with
      live := e.live.modify k fun l => { l with job := { l.job with numerator, denominator } } }
    (.ok (), e.notify k (.workStatus handle numerator denominator))

/-- Passes a part of the result on. -/
def reportData (e : Engine σ) (handle : String) (data : Bytes) : Except JobError Unit × Engine σ :=
  match e.jobInState handle .working with
  | .error err => (.error err, e)
  | .ok live =>
    let k := live.job.key
    (.ok (), (e.publish ⟨k.uniqueId, k.functionName, .workData, data⟩).notify k
      (.workData handle data))

/-- Passes a warning on. -/
def reportWarning (e : Engine σ) (handle : String) (data : Bytes) :
    Except JobError Unit × Engine σ :=
  match e.jobInState handle .working with
  | .error err => (.error err, e)
  | .ok live => (.ok (), e.notify live.job.key (.workWarning handle data))

end Engine

end JobBroker
