import JobBroker.Engine.Basic

/-!
# Events from other brokers

A broker that hears of a job elsewhere wakes its own workers, and passes data and results on to its
own clients. Nothing it hears is told on.
-/

namespace JobBroker.Engine

variable {σ : Type} [JobStore σ]

/-- Takes the result of a job that another broker's worker has done. A job that is worked on here
as well waits for its own worker. -/
def settle (e : Engine σ) (live : LiveJob) (data : Bytes) : Engine σ :=
  let k := live.job.key
  let (removed, queue, store) := (e.workshop k.functionName).queue.remove k e.store
  let e := { e.setQueue k.functionName queue with store }
  let e := if removed then { e with live := e.live.erase k } else e
  e.dismiss k fun _ => .response (.workComplete live.job.handle data)

/-- Takes up one event. Events about functions that are not known here are ignored. -/
def hear (e : Engine σ) (event : PeerEvent) : Engine σ :=
  let k : JobKey := ⟨event.functionName, event.uniqueId⟩
  match e.workshop? event.functionName, event.kind, e.live.find? k with
  | none, _, _ => e
  | some _, .submitJob, _ => e.wakeCrew event.functionName
  | some _, _, none => e
  | some _, .workData, some live => e.notify k (.workData live.job.handle event.data)
  | some _, .workComplete, some live =>
    if live.job.state = .working then e else e.settle live event.data

end JobBroker.Engine
