import JobBroker.Engine.Basic

/-!
# Submission and removal

A submitted job is let in, or joins the live job with the same key. A queued job may be removed.
-/

namespace JobBroker.Engine

variable {σ : Type}

/-- Makes up a unique id for a job that has none. -/
def identify (e : Engine σ) (j : Job) : Job × Engine σ :=
  if j.uniqueId = "" then
    ({ j with uniqueId := e.newId e.uniqueIds }, { e with uniqueIds := e.uniqueIds + 1 })
  else (j, e)

/-- The client of a job in the foreground waits for its result. -/
def await (e : Engine σ) (j : Job) (client : Option SessionId) : Engine σ :=
  match client with
  | none => e
  | some id =>
    if j.background then e
    else
      e.modifyWorkshop j.functionName fun w =>
        { w with waitLists := (w.waitLists.register j.uniqueId id).2 }

variable [JobStore σ]

/-- Lets a job in that no live job is in the way of, under a new handle. -/
def letIn (e : Engine σ) (j : Job) (client : Option SessionId) : Except JobError Job × Engine σ :=
  let (handle, handles) := e.handles.next
  let j := { j.renewed with handle }
  let (answer, queue, store) := (e.workshop j.functionName).queue.enqueue j e.store
  let e := { e.setQueue j.functionName queue with handles, store }
  match answer with
  | .error err => (.error err, e)
  | .ok false => (.error (.internal (j.key.text ++ " is queued but has no live record")), e)
  | .ok true =>
    let e := { e with live := e.live.insert j none }
    let e := (e.await j client).wakeCrew j.functionName
    (.ok j, e.publish ⟨j.uniqueId, j.functionName, .submitJob, []⟩)

/-- Takes a submission. When a job with its key is live, that job is the answer, and only the
client may be new. -/
def submit (e : Engine σ) (j : Job) (client : Option SessionId) : Except JobError Job × Engine σ :=
  let (j, e) := e.identify j
  let e := e.establish j.functionName
  match e.live.find? j.key with
  | some live => (.ok live.job, e.await j client)
  | none => e.letIn j client

/-- Removes a queued job; its clients are told that it has failed. The answer is `false` when the
job is in no queue. -/
def remove (e : Engine σ) (handle : String) : Except JobError Bool × Engine σ :=
  match e.jobInState handle .queued with
  | .error err => (.error err, e)
  | .ok live =>
    let k := live.job.key
    let e := e.establish k.functionName
    let (removed, queue, store) := (e.workshop k.functionName).queue.remove k e.store
    let e := { e.setQueue k.functionName queue with store }
    if removed then
      let e := { e with live := e.live.erase k }
      (.ok true, e.dismiss k fun _ => .response (.workFail handle))
    else (.ok false, e)

end JobBroker.Engine
