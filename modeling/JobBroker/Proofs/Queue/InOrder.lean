import JobBroker.Queue.Basic
import Mathlib.Data.List.Nodup
import Mathlib.Tactic.Tauto

/-!
# Queues in order

A queue keeps its jobs twice: in a table by unique id, and as unique ids in four lanes. `InOrder`
says that the two agree: a unique id stands in the lane that its job belongs to, once, and in no
other, and the lanes hold no other unique ids.

* `InOrder.count_ids` : where a unique id stands, and how often.
* `accept_inOrder`, `takeNext_cases`, `take_inOrder` : what lets a job in or takes one out keeps the
  queue in order, and touches no other job.
-/

namespace JobBroker

/-- The four places a queued job may wait in. -/
inductive Lane
  | high
  | held
  | normal
  | low
deriving DecidableEq, Repr

/-- Where a job belongs. -/
def QueuedJob.lane (j : QueuedJob) : Lane :=
  if j.isHeld then .held
  else
    match j.priority with
    | .high => .high
    | .normal => .normal
    | .low => .low

namespace Lanes

/-- The unique ids in one lane, next one first. -/
def ids (l : Lanes) : Lane → List String
  | .high => l.high
  | .held => l.held.map HeldJob.uniqueId
  | .normal => l.normal
  | .low => l.low

@[simp] theorem ids_empty (lane : Lane) : empty.ids lane = [] := by cases lane <;> rfl

theorem hold_perm (h : HeldJob) (hs : List HeldJob) : (hold h hs).Perm (h :: hs) := by
  induction hs with
  | nil => exact .refl _
  | cons g gs ih =>
    unfold hold
    split
    · exact .refl _
    · exact (ih.cons g).trans (.swap h g gs)

/-- A pushed job comes into its lane; the other lanes stay. -/
theorem ids_push_perm (l : Lanes) (j : QueuedJob) (lane : Lane) :
    ((l.push j).ids lane).Perm
      (if lane = j.lane then j.uniqueId :: l.ids lane else l.ids lane) := by
  unfold push QueuedJob.lane
  by_cases hh : j.isHeld = true
  · simp only [hh, if_true]
    cases lane
    case held => exact (hold_perm _ _).map HeldJob.uniqueId
    all_goals exact .refl _
  · simp only [hh]
    cases j.priority <;> cases lane <;>
      first
        | exact .refl _
        | exact List.perm_append_comm

/-- A dropped job leaves its lane; the other lanes stay. -/
theorem ids_drop (l : Lanes) (j : QueuedJob) (lane : Lane) :
    (l.drop j).ids lane =
      if lane = j.lane then (l.ids lane).filter (· ≠ j.uniqueId) else l.ids lane := by
  unfold drop QueuedJob.lane
  by_cases hh : j.isHeld = true
  · simp only [hh, if_true]
    cases lane <;> simp [ids, List.filter_map, Function.comp_def]
  · simp only [hh]
    cases j.priority <;> cases lane <;> simp [ids]

/-- The next job is the first of some lane; the other lanes stay. -/
theorem ids_of_pop? {l l' : Lanes} {now : Int64} {u : String} (h : l.pop? now = some (u, l')) :
    ∃ lane, l.ids lane = u :: l'.ids lane ∧ ∀ other, other ≠ lane → l'.ids other = l.ids other := by
  have plain : l.popPlain = some (u, l') → ∃ lane, l.ids lane = u :: l'.ids lane ∧
      ∀ other, other ≠ lane → l'.ids other = l.ids other := by
    intro h
    unfold popPlain at h
    split at h
    · next hn =>
      obtain ⟨rfl, rfl⟩ := by simpa using h
      exact ⟨.normal, hn, fun other ho => by cases other <;> simp_all [ids]⟩
    · next hl =>
      obtain ⟨rfl, rfl⟩ := by simpa using h
      exact ⟨.low, hl, fun other ho => by cases other <;> simp_all [ids]⟩
    · exact absurd h (by simp)
  unfold pop? at h
  split at h
  · next hh =>
    obtain ⟨rfl, rfl⟩ := by simpa using h
    exact ⟨.high, hh, fun other ho => by cases other <;> simp_all [ids]⟩
  · split at h
    · next hh =>
      split at h
      · obtain ⟨rfl, rfl⟩ := by simpa using h
        exact ⟨.held, by simp [ids, hh], fun other ho => by cases other <;> simp_all [ids]⟩
      · exact plain h
    · exact plain h

end Lanes

namespace Queue

/-- The lanes hold the unique ids of the queued jobs, each in the lane of its job and once. -/
structure InOrder (q : Queue) : Prop where
  uniqueId : ∀ {u j}, q.find? u = some j → j.uniqueId = u
  nodup : ∀ lane, (q.lanes.ids lane).Nodup
  mem_ids : ∀ lane u, u ∈ q.lanes.ids lane ↔ ∃ j, q.find? u = some j ∧ j.lane = lane

variable {q : Queue}

/-- A queued job stands in its own lane once, and in no other. -/
theorem InOrder.count_ids (hq : q.InOrder) (u : String) (lane : Lane) :
    (q.lanes.ids lane).count u = if (q.find? u).map QueuedJob.lane = some lane then 1 else 0 := by
  have hm := hq.mem_ids lane u
  split
  · next h =>
    obtain ⟨j, hj, hl⟩ := Option.map_eq_some_iff.mp h
    exact List.count_eq_one_of_mem (hq.nodup lane) (hm.mpr ⟨j, hj, hl⟩)
  · next h =>
    refine List.count_eq_zero.mpr fun hu => h ?_
    obtain ⟨j, hj, hl⟩ := hm.mp hu
    rw [hj, Option.map_some, hl]

theorem InOrder.congr {q q' : Queue} (hq : q.InOrder) (hjobs : q'.jobs = q.jobs)
    (hlanes : q'.lanes = q.lanes) : q'.InOrder := by
  have hfind : ∀ u, q'.find? u = q.find? u := fun u => by rw [find?, hjobs, find?]
  refine ⟨fun h => hq.uniqueId (hfind _ ▸ h), fun lane => hlanes ▸ hq.nodup lane, fun lane u => ?_⟩
  rw [hlanes, hfind]
  exact hq.mem_ids lane u

theorem new_inOrder (functionName : String) (maxSize : Nat) : (new functionName maxSize).InOrder :=
  ⟨fun h => absurd h (by simp [new, find?]), fun lane => by simp [new],
    fun lane u => by simp [new, find?]⟩

/-! ### Letting in -/

@[simp] theorem find?_accept (q : Queue) (j : QueuedJob) (u : String) :
    (q.accept j).find? u = if j.uniqueId = u then some j else q.find? u :=
  Table.get?_insert _ _ _ _

theorem accept_inOrder (hq : q.InOrder) {j : QueuedJob} (h : q.find? j.uniqueId = none) :
    (q.accept j).InOrder := by
  have habsent : ∀ lane, j.uniqueId ∉ q.lanes.ids lane := by
    intro lane hm
    obtain ⟨i, hi, -⟩ := (hq.mem_ids lane _).mp hm
    exact absurd (h.symm.trans hi) (by simp)
  have hperm : ∀ lane, ((q.accept j).lanes.ids lane).Perm
      (if lane = j.lane then j.uniqueId :: q.lanes.ids lane else q.lanes.ids lane) :=
    Lanes.ids_push_perm q.lanes j
  refine ⟨fun {u i} hu => ?_, fun lane => ?_, fun lane u => ?_⟩
  · rw [find?_accept] at hu
    split at hu
    · next hj => exact (Option.some.inj hu) ▸ hj
    · exact hq.uniqueId hu
  · rw [(hperm lane).nodup_iff]
    split
    · exact List.nodup_cons.mpr ⟨habsent lane, hq.nodup lane⟩
    · exact hq.nodup lane
  · rw [(hperm lane).mem_iff, find?_accept]
    have hm := hq.mem_ids lane u
    by_cases hu : j.uniqueId = u
    · subst hu
      by_cases hl : lane = j.lane
      · simp [hl]
      · simp [hl, habsent lane, Ne.symm hl]
    · by_cases hl : lane = j.lane <;> simp [hl, hu, Ne.symm hu] <;> simpa [hl] using hm

theorem find?_of_contains_eq_false {u : String} (h : q.contains u = false) : q.find? u = none := by
  simpa [contains, find?, Table.contains] using h

theorem reinstate_of_find?_eq_none {j : QueuedJob} (h : q.find? j.uniqueId = none) :
    q.reinstate j = (true, q.accept j) := by
  have hj : q.jobs.get? j.uniqueId = none := h
  simp [reinstate, contains, Table.contains, hj]

/-- A job is written and let in under a unique id that is new, or the queue stays as it is, and the
store too if it was not asked. -/
theorem enqueue_cases {σ : Type} [JobStore σ] (q : Queue) (j : Job) (store : σ) :
    (∃ store', q.enqueue j store = (.ok true, q.accept j.summary, store') ∧
      q.find? j.uniqueId = none ∧ JobStore.write j store = (.ok true, store')) ∨
    ∃ answer store', q.enqueue j store = (answer, q, store') ∧ answer ≠ .ok true ∧
      (store' = store ∨ ∃ reply, JobStore.write j store = (reply, store') ∧ reply ≠ .ok true) := by
  unfold enqueue
  split
  · exact .inr ⟨_, _, rfl, by simp, .inl rfl⟩
  · next hnew =>
    split
    · exact .inr ⟨_, _, rfl, by simp, .inl rfl⟩
    · split
      · next hwrite =>
        exact .inl ⟨_, rfl, find?_of_contains_eq_false (Bool.not_eq_true _ ▸ hnew), hwrite⟩
      · next hwrite => exact .inr ⟨_, _, rfl, by simp, .inr ⟨_, hwrite, by simp⟩⟩
      · next hwrite => exact .inr ⟨_, _, rfl, by simp, .inr ⟨_, hwrite, by simp⟩⟩

/-! ### Taking out -/

/-- The queue without the job under `u`, with the given lanes. -/
def without (q : Queue) (u : String) (lanes : Lanes) (tally : Tally) : Queue :=
  { q with lanes, jobs := q.jobs.erase u, tally }

@[simp] theorem find?_without (q : Queue) (u v : String) (lanes : Lanes) (tally : Tally) :
    (q.without u lanes tally).find? v = if u = v then none else q.find? v :=
  Table.get?_erase _ _ _

/-- Lanes that have lost exactly `u` fit the table that has lost it. -/
theorem without_inOrder (hq : q.InOrder) {u : String} {lanes : Lanes} (tally : Tally)
    (hnodup : ∀ lane, (lanes.ids lane).Nodup)
    (hmem : ∀ lane v, v ∈ lanes.ids lane ↔ v ≠ u ∧ v ∈ q.lanes.ids lane) :
    (q.without u lanes tally).InOrder := by
  refine ⟨fun {v i} hv => ?_, hnodup, fun lane v => ?_⟩
  · rw [find?_without] at hv
    split at hv
    · exact absurd hv (by simp)
    · exact hq.uniqueId hv
  · show v ∈ lanes.ids lane ↔ _
    rw [hmem, hq.mem_ids, find?_without]
    by_cases hu : u = v
    · simp [hu]
    · simp [hu, Ne.symm hu]

theorem takeNext_of_pop? {u : String} {j : QueuedJob} {lanes : Lanes} {now : Int64}
    (hpop : q.lanes.pop? now = some (u, lanes)) (h : q.find? u = some j) :
    q.takeNext now = (some j, q.without u lanes (q.tally.remove j.priority)) := by
  have hj : q.jobs.get? u = some j := h
  simp [takeNext, hpop, hj, without]

/-- The next job, if there is one, leaves the table and its lane, and nothing else happens. -/
theorem takeNext_cases (hq : q.InOrder) (now : Int64) :
    q.takeNext now = (none, q) ∨
      ∃ j q', q.takeNext now = (some j, q') ∧ q.find? j.uniqueId = some j ∧ q'.InOrder ∧
        ∀ v, q'.find? v = if j.uniqueId = v then none else q.find? v := by
  cases hp : q.lanes.pop? now with
  | none => exact .inl (by simp [takeNext, hp])
  | some next =>
    obtain ⟨u, lanes⟩ := next
    obtain ⟨lane, hfirst, hothers⟩ := Lanes.ids_of_pop? hp
    obtain ⟨j, hj, hl⟩ := (hq.mem_ids lane u).mp (hfirst ▸ List.mem_cons_self)
    obtain rfl := hq.uniqueId hj
    have htake := takeNext_of_pop? hp hj
    have hfresh := List.nodup_cons.mp (hfirst ▸ hq.nodup lane)
    refine .inr ⟨j, _, htake, hj, without_inOrder hq _ (fun other => ?_) (fun other v => ?_),
      fun v => find?_without q _ v _ _⟩
    · by_cases ho : other = lane
      · exact ho ▸ hfresh.2
      · exact hothers other ho ▸ hq.nodup other
    · by_cases ho : other = lane
      · subst ho
        rw [hfirst, List.mem_cons]
        have : v ∈ lanes.ids other → v ≠ j.uniqueId := fun hv he => hfresh.1 (he ▸ hv)
        tauto
      · -- the id stands in one lane only, so the other lanes never held it
        have : v ∈ q.lanes.ids other → v ≠ j.uniqueId := by
          rintro hv rfl
          obtain ⟨i, hi, rfl⟩ := (hq.mem_ids other _).mp hv
          obtain rfl := Option.some.inj (hi.symm.trans hj)
          exact ho hl
        rw [hothers other ho]
        tauto

theorem take_of_find? {u : String} {j : QueuedJob} (h : q.find? u = some j) :
    q.take u = some (j, q.without u (q.lanes.drop j) (q.tally.remove j.priority)) := by
  have hj : q.jobs.get? u = some j := h
  simp [take, hj, without]

theorem remove_of_find? {σ : Type} [JobStore σ] {k : JobKey} {j : QueuedJob}
    (h : q.find? k.uniqueId = some j) (store : σ) :
    q.remove k store = (true, q.without k.uniqueId (q.lanes.drop j) (q.tally.remove j.priority),
      (JobStore.delete k store).2) := by
  rw [remove, take_of_find? h]

theorem remove_of_find?_eq_none {σ : Type} [JobStore σ] {k : JobKey}
    (h : q.find? k.uniqueId = none) (store : σ) : q.remove k store = (false, q, store) := by
  have hk : q.jobs.get? k.uniqueId = none := h
  simp [remove, take, hk]

theorem take_inOrder (hq : q.InOrder) {u : String} {j : QueuedJob} (h : q.find? u = some j) :
    (q.without u (q.lanes.drop j) (q.tally.remove j.priority)).InOrder := by
  obtain rfl := hq.uniqueId h
  refine without_inOrder hq _ (fun lane => ?_) (fun lane v => ?_)
  · rw [Lanes.ids_drop]
    split
    · exact (hq.nodup lane).filter _
    · exact hq.nodup lane
  · rw [Lanes.ids_drop]
    split
    · simp [and_comm]
    · next hl =>
      have : v ∈ q.lanes.ids lane → v ≠ j.uniqueId := by
        rintro hv rfl
        obtain ⟨i, hi, rfl⟩ := (hq.mem_ids lane _).mp hv
        obtain rfl := Option.some.inj (hi.symm.trans h)
        exact hl rfl
      tauto

end Queue

end JobBroker
