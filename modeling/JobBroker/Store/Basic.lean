import JobBroker.Job.Error

/-!
# Stores

A store keeps the records of jobs under their keys. It is written before a job is taken in and read
when the job is handed out, so that jobs outlive the broker. Every call may fail.
-/

namespace JobBroker

/-- `σ` is the state of a store; each call gives its answer and the new state. -/
class JobStore (σ : Type) where
  name : σ → String
  /-- Writes a record over an older one with the same key; `false` when the store declines it. -/
  write : Job → σ → Except JobError Bool × σ
  delete : JobKey → σ → Except JobError Unit × σ
  deleteAll : σ → Except JobError Unit × σ
  find : JobKey → σ → Except JobError (Option Job) × σ
  /-- All records, ordered by their keys. -/
  readAll : σ → Except JobError (List QueuedJob) × σ
  /-- The records of one function, ordered by their unique ids. -/
  ofFunction : String → σ → Except JobError (List QueuedJob) × σ

end JobBroker
