import JobBroker.Engine.Work

/-!
# Departure

What happens when a session disconnects: it leaves every crew and every wait list, and the jobs it
works on are queued again or have failed, as the settings say.
-/

namespace JobBroker.Engine

variable {σ : Type} [JobStore σ]

/-- Queues a job again that was being worked on, even into a full queue. -/
def requeue (e : Engine σ) (handle : String) : Engine σ :=
  match e.live.keyOf? handle with
  | none => e
  | some k =>
    let e := e.establish k.functionName
    match e.jobInState handle .working with
    | .error _ => e
    | .ok live =>
      let e := { e with live := e.live.modify k fun l => ⟨l.job.renewed, none⟩ }
      let (_, queue) := (e.workshop k.functionName).queue.reinstate live.job.renewed.summary
      (e.setQueue k.functionName queue).wakeCrew k.functionName

/-- Gives up the work on a job. -/
def abandon (e : Engine σ) (handle : String) : Engine σ :=
  match e.settings.disconnectPolicy with
  | .requeue => e.requeue handle
  | .fail => (e.finish handle .fail).2

/-- A session leaves, and gives up its jobs one after the other. They are a set, so that the order
in which they are given up, and queued again, may be any; here it is the one in which the session
got them. -/
def disconnect (e : Engine σ) (id : SessionId) : Engine σ :=
  let assigned := ((e.session? id).map Session.assigned).getD []
  let e := { e with
    connected := e.connected.filter (· ≠ id)
    workshops := e.workshops.filterMap fun w : Workshop => some (w.leave id) }
  let e := e.modifySession id fun s => { s.clearAbilities with assigned := [] }
  assigned.foldl abandon e

end JobBroker.Engine
