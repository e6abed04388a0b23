import JobBroker.Engine.Basic
import JobBroker.Text.Order

/-!
# Statistics

The numbers that an operator sees of each function.
-/

namespace JobBroker

structure Statistics where
  functionName : String
  queued : Nat
  high : Nat
  normal : Nat
  low : Nat
  running : Nat
  workers : Nat
  sleeping : Nat
  maxQueue : Nat
deriving DecidableEq, Repr

namespace Engine

variable {σ : Type}

/-- How many jobs of a function are worked on. -/
def running (e : Engine σ) (f : String) : Nat :=
  e.live.toList.countP fun l => l.job.functionName = f ∧ l.job.state = .working

/-- One row for each known function, by name. -/
def statistics (e : Engine σ) : List Statistics :=
  (Text.sortOn Prod.fst e.workshops.entries).map fun (f, w) =>
    { functionName := f
      queued := w.queue.size
      high := w.queue.count .high
      normal := w.queue.count .normal
      low := w.queue.count .low
      running := e.running f
      workers := w.crew.workers.length
      sleeping := w.crew.sleepers.length
      maxQueue := w.queue.maxSize }

end Engine

end JobBroker
