import JobBroker.Engine.Basic

/-!
# Recovery

A broker that starts over a store with records takes up the jobs it finds there. They keep their
handles, and the handles given out afterwards go on behind them.
-/

namespace JobBroker.Engine

variable {σ : Type} [JobStore σ]

/-- Reads the records of some jobs and observes their handles. Records that cannot be read are
skipped. -/
def readRecords (e : Engine σ) : List QueuedJob → List Job × Engine σ
  | [] => ([], e)
  | q :: qs =>
    match JobStore.find q.key e.store with
    | (.ok (some j), store) =>
      let (js, e) := { e with store, handles := e.handles.observe j.handle }.readRecords qs
      (j :: js, e)
    | (_, store) => { e with store }.readRecords qs

/-- Queues a job from the store, under a new handle if it has none; `false` if its unique id is
queued already. -/
def restore (e : Engine σ) (j : Job) : Bool × Engine σ :=
  let (handle, handles) := if j.handle = "" then e.handles.next else (j.handle, e.handles)
  let j := { j.renewed with handle }
  let e := { e with handles }.establish j.functionName
  let (queued, queue) := (e.workshop j.functionName).queue.reinstate j.summary
  if queued then
    (true, { e.setQueue j.functionName queue with live := e.live.insert j none })
  else (false, e)

/-- How many jobs were restored. -/
def restoreAll (e : Engine σ) : List Job → Nat × Engine σ
  | [] => (0, e)
  | j :: js =>
    let (restored, e) := e.restore j
    let (n, e) := e.restoreAll js
    (if restored then n + 1 else n, e)

/-- Takes up all stored jobs. All handles are observed before the first new one is given out. -/
def load (e : Engine σ) : Except JobError Nat × Engine σ :=
  match JobStore.readAll e.store with
  | (.error err, store) => (.error err, { e with store })
  | (.ok queued, store) =>
    let (js, e) := { e with store }.readRecords queued
    let (n, e) := e.restoreAll js
    (.ok n, e)

end JobBroker.Engine
