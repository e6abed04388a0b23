import JobBroker.Job.Basic
import JobBroker.Session

/-!
# Live jobs

Every job that is queued or worked on, by key and by handle, with the session that works on it.

* `LiveJobs.find?_insert`, `LiveJobs.find?_erase` : the jobs as a map from keys.
-/

namespace JobBroker

structure LiveJob where
  job : Job
  /-- Who works on the job. -/
  worker : Option SessionId
deriving DecidableEq, Repr

structure LiveJobs where
  jobs : Table JobKey LiveJob
  keys : Table String JobKey
deriving Repr

namespace LiveJobs

def empty : LiveJobs := ⟨.empty, .empty⟩

def find? (l : LiveJobs) (k : JobKey) : Option LiveJob := l.jobs.get? k

def keyOf? (l : LiveJobs) (handle : String) : Option JobKey := l.keys.get? handle

def ofHandle? (l : LiveJobs) (handle : String) : Option LiveJob := l.keyOf? handle >>= l.find?

def insert (l : LiveJobs) (j : Job) (worker : Option SessionId) : LiveJobs :=
  ⟨l.jobs.insert j.key ⟨j, worker⟩, l.keys.insert j.handle j.key⟩

def modify (l : LiveJobs) (k : JobKey) (f : LiveJob → LiveJob) : LiveJobs :=
  { l with jobs := l.jobs.modify k f }

/-- Removes a job and its handle. -/
def erase (l : LiveJobs) (k : JobKey) : LiveJobs :=
  match l.find? k with
  | none => l
  | some live => ⟨l.jobs.erase k, l.keys.erase live.job.handle⟩

def toList (l : LiveJobs) : List LiveJob := l.jobs.values

def size (l : LiveJobs) : Nat := l.jobs.size

@[simp] theorem find?_insert (l : LiveJobs) (j : Job) (w : Option SessionId) (k : JobKey) :
    (l.insert j w).find? k = if j.key = k then some ⟨j, w⟩ else l.find? k :=
  Table.get?_insert _ _ _ _

@[simp] theorem find?_modify (l : LiveJobs) (k k' : JobKey) (f : LiveJob → LiveJob) :
    (l.modify k f).find? k' = if k = k' then (l.find? k').map f else l.find? k' :=
  Table.get?_modify _ _ _ _

@[simp] theorem find?_erase (l : LiveJobs) (k k' : JobKey) :
    (l.erase k).find? k' = if k = k' then none else l.find? k' := by
  unfold erase
  split
  · next h => split <;> simp_all
  · simp [find?]

end LiveJobs

end JobBroker
