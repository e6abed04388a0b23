import JobBroker.Proofs.Queue.Arrival

/-!
# A queue is a list

What a queue answers, whatever is asked of it and whatever the store does, said by a list: its jobs
in the order in which they were let in. `Roster` is that list, and `Lists` relates a queue to it.

* `Lists.call` : one call keeps the relation, and the answers and the store are the same.
* `serve_eq_roster` : so they are after any number of calls.
-/

namespace JobBroker

/-- What may be asked of a queue over a store of type `σ`. -/
inductive QueueCall (σ : Type)
  | enqueue (j : Job)
  | reinstate (j : QueuedJob)
  | remove (k : JobKey)
  | takeNext (now : Int64)
  | hasReady (now : Int64)
  | setMaxSize (size : Nat)
  /-- Something happens to the store, such as the beginning of a fault. -/
  | alterStore (change : σ → σ)

inductive QueueAnswer
  | admission (answer : Except JobError Bool)
  | flag (answer : Bool)
  | next (job : Option QueuedJob)
  | done

/-- The queued jobs of a function in the order in which they were let in. -/
structure Roster where
  functionName : String
  /-- Zero sets no limit. -/
  maxSize : Nat
  jobs : List QueuedJob

section Serve

variable {σ β : Type} (call : β → σ → QueueCall σ → QueueAnswer × β × σ)

/-- Calls made one after the other. -/
def serve : β → σ → List (QueueCall σ) → List QueueAnswer × β × σ
  | q, store, [] => ([], q, store)
  | q, store, c :: cs =>
    let (answer, q, store) := call q store c
    let (answers, q, store) := serve q store cs
    (answer :: answers, q, store)

end Serve

namespace Roster

def new (functionName : String) (maxSize : Nat) : Roster := ⟨functionName, maxSize, []⟩

def find? (r : Roster) (uniqueId : String) : Option QueuedJob :=
  r.jobs.find? (·.uniqueId = uniqueId)

def append (r : Roster) (j : QueuedJob) : Roster := { r with jobs := r.jobs ++ [j] }

/-- The list without the job under a unique id; all others keep their order. -/
def without (r : Roster) (uniqueId : String) : Roster :=
  { r with jobs := r.jobs.eraseP (·.uniqueId = uniqueId) }

def isFull (r : Roster) : Bool := decide (0 < r.maxSize) && decide (r.maxSize ≤ r.jobs.length)

variable {σ : Type} [JobStore σ]

/-- A job that is listed already, or for which there is no room, is not written to the store. It is
listed when it has been written. -/
def enqueue (r : Roster) (j : Job) (store : σ) : Except JobError Bool × Roster × σ :=
  if (r.find? j.uniqueId).isSome then (.ok false, r, store)
  else if r.isFull then (.error (.queueFull r.functionName r.maxSize), r, store)
  else
    match JobStore.write j store with
    | (.ok true, store) => (.ok true, r.append j.summary, store)
    | (.ok false, store) =>
      (.error (.enqueue r.functionName j.uniqueId "rejected by persistence engine"), r, store)
    | (.error e, store) => (.error (.enqueue r.functionName j.uniqueId e.message), r, store)

def call (r : Roster) (store : σ) : QueueCall σ → QueueAnswer × Roster × σ
  | .enqueue j =>
    let (answer, r, store) := r.enqueue j store
    (.admission answer, r, store)
  | .reinstate j =>
    if (r.find? j.uniqueId).isSome then (.flag false, r, store)
    else (.flag true, r.append j, store)
  | .remove k =>
    if (r.find? k.uniqueId).isSome then
      (.flag true, r.without k.uniqueId, (JobStore.delete k store).2)
    else (.flag false, r, store)
  | .takeNext now =>
    match next? now r.jobs with
    | none => (.next none, r, store)
    | some j => (.next (some j), r.without j.uniqueId, store)
  | .hasReady now => (.flag (next? now r.jobs).isSome, r, store)
  | .setMaxSize size => (.done, { r with maxSize := size }, store)
  | .alterStore change => (.done, r, change store)

end Roster

namespace Queue

variable {σ : Type} [JobStore σ]

def call (q : Queue) (store : σ) : QueueCall σ → QueueAnswer × Queue × σ
  | .enqueue j =>
    let (answer, q, store) := q.enqueue j store
    (.admission answer, q, store)
  | .reinstate j =>
    let (answer, q) := q.reinstate j
    (.flag answer, q, store)
  | .remove k =>
    let (answer, q, store) := q.remove k store
    (.flag answer, q, store)
  | .takeNext now =>
    let (job, q) := q.takeNext now
    (.next job, q, store)
  | .hasReady now => (.flag (q.hasReady now), q, store)
  | .setMaxSize size => (.done, { q with maxSize := size }, store)
  | .alterStore change => (.done, q, change store)

/-- The queue holds the jobs of the list: they stand in its table, its lanes are as if they had come
in that order, and its counters count them. -/
structure Lists (q : Queue) (r : Roster) : Prop where
  functionName_eq : q.functionName = r.functionName
  maxSize_eq : q.maxSize = r.maxSize
  entries_eq : q.jobs.entries = r.jobs.map fun j => (j.uniqueId, j)
  lanes_eq : q.lanes = .ofJobs r.jobs
  tally_eq : ∀ p, q.tally.get p = r.jobs.countP (·.priority = p)
  inOrder : q.InOrder

namespace Lists

variable {q : Queue} {r : Roster}

theorem new (functionName : String) (maxSize : Nat) :
    Lists (.new functionName maxSize) (.new functionName maxSize) :=
  ⟨rfl, rfl, rfl, rfl, fun p => by simp [Queue.new, Roster.new], new_inOrder functionName maxSize⟩

theorem find?_eq (h : Lists q r) (u : String) : q.find? u = r.find? u := by
  rw [find?, Table.get?, h.entries_eq, Roster.find?]
  generalize r.jobs = js
  induction js with
  | nil => rfl
  | cons j js ih => by_cases hj : j.uniqueId = u <;> simp [Table.lookup, hj, ih]

theorem contains_eq (h : Lists q r) (u : String) : q.contains u = (r.find? u).isSome :=
  congrArg Option.isSome (h.find?_eq u)

theorem isFull_eq (h : Lists q r) : q.isFull = r.isFull := by
  rw [isFull, Roster.isFull, Table.size, h.entries_eq, List.length_map, h.maxSize_eq]

theorem nodup (h : Lists q r) : (r.jobs.map QueuedJob.uniqueId).Nodup := by
  have hkeys := q.jobs.nodup
  rw [h.entries_eq, List.map_map] at hkeys
  exact hkeys

/-- A listed job is found by its unique id. -/
theorem find?_of_mem (h : Lists q r) {j : QueuedJob} (hj : j ∈ r.jobs) :
    q.find? j.uniqueId = some j := by
  refine Table.get?_eq_some_iff.mpr ?_
  rw [h.entries_eq]
  exact List.mem_map.mpr ⟨j, hj, rfl⟩

theorem accept (h : Lists q r) {j : QueuedJob} (hnew : q.find? j.uniqueId = none) :
    Lists (q.accept j) (r.append j) where
  functionName_eq := h.functionName_eq
  maxSize_eq := h.maxSize_eq
  entries_eq := by
    show (q.jobs.insert j.uniqueId j).entries = _
    rw [Table.entries_insert_of_get?_eq_none hnew, h.entries_eq, Roster.append, List.map_append]
    rfl
  lanes_eq := by
    show q.lanes.push j = _
    rw [h.lanes_eq, Roster.append, Lanes.ofJobs_concat]
  tally_eq := fun p => by
    show (q.tally.add j.priority).get p = _
    rw [Tally.get_add, h.tally_eq, Roster.append, List.countP_append, List.countP_singleton]
    simp
  inOrder := accept_inOrder h.inOrder hnew

/-- Unique ids are distinct, so the first job under one is the only one. -/
theorem jobs_without (h : Lists q r) (u : String) :
    (r.without u).jobs = r.jobs.filter fun j => j.uniqueId ≠ u := by
  have hnodup := h.nodup
  rw [Roster.without]
  revert hnodup
  generalize r.jobs = js
  intro hnodup
  induction js with
  | nil => rfl
  | cons j js ih =>
    obtain ⟨hj, hjs⟩ := List.nodup_cons.mp hnodup
    by_cases hu : j.uniqueId = u
    · subst hu
      have hrest : js.filter (fun i => i.uniqueId ≠ j.uniqueId) = js :=
        List.filter_eq_self.mpr fun i hi => decide_eq_true fun he =>
          hj (List.mem_map.mpr ⟨i, hi, he⟩)
      simpa using hrest.symm
    · simpa [hu] using ih hjs

/-- A queued job stands in the list, and the list without it is what stands before and behind it. -/
theorem exists_split (h : Lists q r) {u : String} {j : QueuedJob} (hj : q.find? u = some j) :
    ∃ before after, r.jobs = before ++ j :: after ∧ (r.without u).jobs = before ++ after := by
  rw [h.find?_eq, Roster.find?] at hj
  obtain ⟨hu, before, after, hjobs, hbefore⟩ := List.find?_eq_some_iff_append.mp hj
  refine ⟨before, after, hjobs, ?_⟩
  show r.jobs.eraseP _ = _
  rw [hjobs, List.eraseP_append_right _ (by simpa using hbefore)]
  simp [of_decide_eq_true hu]

/-- A queue that has lost a job from its table, from its lane and from its counters lists the
others. -/
theorem without (h : Lists q r) {j : QueuedJob} (hj : q.find? j.uniqueId = some j)
    (hq : (q.without j.uniqueId (q.lanes.strike j.uniqueId j.lane)
      (q.tally.remove j.priority)).InOrder) :
    Lists (q.without j.uniqueId (q.lanes.strike j.uniqueId j.lane) (q.tally.remove j.priority))
      (r.without j.uniqueId) where
  functionName_eq := h.functionName_eq
  maxSize_eq := h.maxSize_eq
  entries_eq := by
    show q.jobs.entries.filter _ = _
    rw [h.entries_eq, h.jobs_without, List.filter_map]
    rfl
  lanes_eq := by
    have hown : ∀ lane, j.uniqueId ∈ q.lanes.ids lane → lane = j.lane := by
      intro lane hu
      obtain ⟨i, hi, rfl⟩ := (h.inOrder.mem_ids lane _).mp hu
      rw [Option.some.inj (hi.symm.trans hj)]
    show q.lanes.strike j.uniqueId j.lane = _
    rw [← Lanes.keep_eq_strike hown, h.lanes_eq, h.jobs_without]
    exact (Lanes.ofJobs_filter (· ≠ j.uniqueId) r.jobs).symm
  tally_eq := fun p => by
    obtain ⟨before, after, hjobs, hwithout⟩ := h.exists_split hj
    show (q.tally.remove j.priority).get p = _
    rw [Tally.get_remove, h.tally_eq, hwithout, hjobs]
    simp only [List.countP_append, List.countP_cons, decide_eq_true_eq]
    omega
  inOrder := hq

theorem hasReady_eq (h : Lists q r) (now : Int64) :
    q.hasReady now = (next? now r.jobs).isSome := by
  have hnext := congrArg Option.isSome (Lanes.map_fst_pop?_ofJobs r.jobs now)
  rw [Option.isSome_map, Option.isSome_map, Lanes.isSome_pop?] at hnext
  rw [hasReady, h.lanes_eq, hnext]

/-- The next job leaves the queue and the list alike. -/
theorem takeNext (h : Lists q r) (now : Int64) :
    match next? now r.jobs with
    | none => q.takeNext now = (none, q)
    | some j => ∃ q', q.takeNext now = (some j, q') ∧ Lists q' (r.without j.uniqueId) := by
  have hfst := Lanes.map_fst_pop?_ofJobs r.jobs now
  rw [← h.lanes_eq] at hfst
  cases hpop : q.lanes.pop? now with
  | none =>
    have hnext : next? now r.jobs = none := by simpa [hpop] using hfst.symm
    simp [hnext, Queue.takeNext, hpop]
  | some next =>
    obtain ⟨u, lanes⟩ := next
    rw [hpop] at hfst
    obtain ⟨j, hnext, rfl⟩ := Option.map_eq_some_iff.mp hfst.symm
    have hj : q.find? j.uniqueId = some j := h.find?_of_mem (mem_of_next? hnext)
    have htake := takeNext_of_pop? hpop hj
    -- the unique id stands in no other lane than that of its job
    obtain ⟨lane, hu, rfl⟩ := Lanes.pop?_eq_strike h.inOrder.nodup hpop
    obtain rfl : lane = j.lane := by
      obtain ⟨i, hi, rfl⟩ := (h.inOrder.mem_ids lane _).mp hu
      rw [Option.some.inj (hi.symm.trans hj)]
    simp only [hnext]
    refine ⟨_, htake, h.without hj ?_⟩
    rcases takeNext_cases h.inOrder now with hnone | ⟨i, q', hsome, -, hq', -⟩
    · exact absurd (htake.symm.trans hnone) (by simp)
    · exact (Prod.mk.inj (htake.symm.trans hsome)).2 ▸ hq'

variable {σ : Type} [JobStore σ]

theorem enqueue (h : Lists q r) (j : Job) (store : σ) :
    ∃ answer q' r' store', q.enqueue j store = (answer, q', store') ∧
      r.enqueue j store = (answer, r', store') ∧ Lists q' r' := by
  unfold Queue.enqueue Roster.enqueue
  rw [h.contains_eq, h.isFull_eq, h.functionName_eq, h.maxSize_eq]
  split
  · exact ⟨_, q, r, store, rfl, rfl, h⟩
  · next hnew =>
    split
    · exact ⟨_, q, r, store, rfl, rfl, h⟩
    · have hnone : q.find? j.uniqueId = none := by
        rw [h.find?_eq]
        simpa using hnew
      rcases JobStore.write j store with ⟨err | _ | _, store'⟩
      · exact ⟨_, q, r, store', rfl, rfl, h⟩
      · exact ⟨_, q, r, store', rfl, rfl, h⟩
      · exact ⟨_, q.accept j.summary, r.append j.summary, store', rfl, rfl, h.accept hnone⟩

/-- A queued job leaves the queue and the list alike, and its record is deleted. -/
theorem remove (h : Lists q r) {k : JobKey} {j : QueuedJob} (hj : q.find? k.uniqueId = some j)
    (store : σ) : ∃ q', q.remove k store = (true, q', (JobStore.delete k store).2) ∧
      Lists q' (r.without k.uniqueId) := by
  obtain ⟨f, u⟩ := k
  obtain rfl : j.uniqueId = u := h.inOrder.uniqueId hj
  have hremove := remove_of_find? hj store
  have hq := take_inOrder h.inOrder hj
  rw [Lanes.drop_eq_strike] at hremove hq
  exact ⟨_, hremove, h.without hj hq⟩

/-- One call has the same answer of the queue and of its list, and does the same to the store. -/
theorem call (h : Lists q r) (c : QueueCall σ) (store : σ) :
    ∃ answer q' r' store', q.call store c = (answer, q', store') ∧
      r.call store c = (answer, r', store') ∧ Lists q' r' := by
  cases c with
  | enqueue j =>
    obtain ⟨answer, q', r', store', hq, hr, h'⟩ := h.enqueue j store
    exact ⟨.admission answer, q', r', store', by rw [Queue.call, hq], by rw [Roster.call, hr], h'⟩
  | reinstate j =>
    simp only [Queue.call, Queue.reinstate, Roster.call, h.contains_eq]
    split
    · exact ⟨_, q, r, store, rfl, rfl, h⟩
    · next hnew =>
      have hnone : q.find? j.uniqueId = none := by
        rw [h.find?_eq]
        simpa using hnew
      exact ⟨_, q.accept j, r.append j, store, rfl, rfl, h.accept hnone⟩
  | remove k =>
    cases hfind : q.find? k.uniqueId with
    | none =>
      have hr := (h.find?_eq k.uniqueId).symm.trans hfind
      exact ⟨.flag false, q, r, store, by rw [Queue.call, remove_of_find?_eq_none hfind],
        by simp [Roster.call, hr], h⟩
    | some j =>
      have hr := (h.find?_eq k.uniqueId).symm.trans hfind
      obtain ⟨q', hq, h'⟩ := h.remove hfind store
      exact ⟨.flag true, q', _, _, by rw [Queue.call, hq], by simp [Roster.call, hr], h'⟩
  | takeNext now =>
    have hnext := h.takeNext now
    cases hn : next? now r.jobs with
    | none =>
      rw [hn] at hnext
      exact ⟨.next none, q, r, store, by simp [Queue.call, hnext], by simp [Roster.call, hn], h⟩
    | some j =>
      rw [hn] at hnext
      obtain ⟨q', hq, h'⟩ := hnext
      exact ⟨.next (some j), q', _, store, by simp [Queue.call, hq], by simp [Roster.call, hn], h'⟩
  | hasReady now => exact ⟨_, q, r, store, rfl, by rw [Roster.call, h.hasReady_eq], h⟩
  | setMaxSize size =>
    exact ⟨.done, { q with maxSize := size }, { r with maxSize := size }, store, rfl, rfl,
      { h with maxSize_eq := rfl, inOrder := h.inOrder.congr rfl rfl }⟩
  | alterStore change => exact ⟨_, q, r, change store, rfl, rfl, h⟩

theorem serve (h : Lists q r) (cs : List (QueueCall σ)) (store : σ) :
    ∃ answers q' r' store', JobBroker.serve Queue.call q store cs = (answers, q', store') ∧
      JobBroker.serve Roster.call r store cs = (answers, r', store') ∧ Lists q' r' := by
  induction cs generalizing q r store with
  | nil => exact ⟨[], q, r, store, rfl, rfl, h⟩
  | cons c cs ih =>
    obtain ⟨answer, q₁, r₁, store₁, hq, hr, h₁⟩ := h.call c store
    obtain ⟨answers, q', r', store', hq', hr', h'⟩ := ih h₁ store₁
    exact ⟨answer :: answers, q', r', store', by simp [JobBroker.serve, hq, hq'],
      by simp [JobBroker.serve, hr, hr'], h'⟩

end Lists

/-- Whatever is asked of a new queue, it answers as the list of its jobs does, and does the same to
the store. -/
theorem serve_eq_roster (functionName : String) (maxSize : Nat) {σ : Type} [JobStore σ] (store : σ)
    (cs : List (QueueCall σ)) :
    ∃ answers q r store', serve call (new functionName maxSize) store cs = (answers, q, store') ∧
      serve Roster.call (.new functionName maxSize) store cs = (answers, r, store') ∧
      ∀ u, q.find? u = r.find? u := by
  obtain ⟨answers, q, r, store', hq, hr, h⟩ := (Lists.new functionName maxSize).serve cs store
  exact ⟨answers, q, r, store', hq, hr, h.find?_eq⟩

end Queue

end JobBroker
