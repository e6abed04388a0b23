import JobBroker.Proofs.Queue.Readiness
import JobBroker.Store.Memory
import Mathlib.Order.Lattice

/-!
# What a queue counts

A queue keeps its jobs in a table, in four lanes and in three counters, each of which is written by
a statement of its own. Whatever has been asked of it, the three agree.

* `Histogram.countHour` : counting one by one gives one entry for each number that occurs.
* `hoursUntil_eq_iff` : the hours until a job is due, over the integers.
* `Reachable.accurate` : where the jobs of a queue stand, and what it counts.
-/

namespace JobBroker

namespace Queue

/-! ### Counting hours -/

/-- One entry for each number of hours that occurs, by rising hours, with how often it occurs. -/
structure Histogram (counts : List (Int64 × Nat)) (hours : List Int64) : Prop where
  rising : counts.Pairwise fun c d => c.1 < d.1
  mem_iff : ∀ h n, (h, n) ∈ counts ↔ 0 < n ∧ n = hours.count h

theorem mem_countHour {hours h : Int64} {n : Nat} {counts : List (Int64 × Nat)}
    (hr : counts.Pairwise fun c d => c.1 < d.1) : (h, n) ∈ countHour hours counts ↔
      if h = hours then (∃ m, (h, m) ∈ counts ∧ n = m + 1) ∨ (n = 1 ∧ ∀ m, (h, m) ∉ counts)
      else (h, n) ∈ counts := by
  induction counts with
  | nil => by_cases hh : h = hours <;> simp [countHour, hh]
  | cons c rest ih =>
    obtain ⟨k, m⟩ := c
    obtain ⟨hk, hrest⟩ := List.pairwise_cons.mp hr
    unfold countHour
    split
    · next hlt =>
      -- all entries stand behind the new one
      have hnew : ∀ m', (hours, m') ∉ (k, m) :: rest := by
        intro m' hm'
        rcases List.mem_cons.mp hm' with heq | hm'
        · exact Int64.ne_of_lt hlt (Prod.mk.inj heq).1
        · exact Int64.lt_irrefl (Int64.lt_trans hlt (hk _ hm'))
      by_cases hh : h = hours
      · subst hh
        simp [hnew]
      · simp [hh]
    · next hge =>
      split
      · next heq =>
        subst heq
        have hnew : ∀ m', (hours, m') ∉ rest := fun m' hm' =>
          Int64.lt_irrefl (hk (hours, m') hm')
        by_cases hh : h = hours
        · subst hh
          simp [hnew]
        · simp [hh]
      · next hne =>
        rw [List.mem_cons, ih hrest]
        by_cases hh : h = hours
        · subst hh
          simp [hne]
        · simp [hh]

theorem fst_countHour {hours : Int64} {counts : List (Int64 × Nat)} {c : Int64 × Nat}
    (hc : c ∈ countHour hours counts) : c.1 = hours ∨ ∃ d ∈ counts, d.1 = c.1 := by
  induction counts with
  | nil => simp_all [countHour]
  | cons d rest ih =>
    unfold countHour at hc
    grind

theorem rising_countHour (hours : Int64) {counts : List (Int64 × Nat)}
    (hr : counts.Pairwise fun c d => c.1 < d.1) :
    (countHour hours counts).Pairwise fun c d => c.1 < d.1 := by
  induction counts with
  | nil => exact List.pairwise_singleton _ _
  | cons c rest ih =>
    obtain ⟨k, m⟩ := c
    obtain ⟨hk, hrest⟩ := List.pairwise_cons.mp hr
    unfold countHour
    split
    · next hlt =>
      refine List.pairwise_cons.mpr ⟨fun c hc => ?_, hr⟩
      rcases List.mem_cons.mp hc with rfl | hc
      · exact hlt
      · exact Int64.lt_trans hlt (hk c hc)
    · next hge =>
      split
      · exact List.pairwise_cons.mpr ⟨hk, hrest⟩
      · next hne =>
        refine List.pairwise_cons.mpr ⟨fun c hc => ?_, ih hrest⟩
        rcases fst_countHour hc with heq | ⟨d, hd, heq⟩
        · rw [heq]
          exact Int64.lt_of_le_of_ne (Int64.not_lt.mp hge) (Ne.symm hne)
        · exact heq ▸ hk d hd

/-- Counting one more keeps the count. -/
theorem Histogram.countHour {counts : List (Int64 × Nat)} {hours : List Int64}
    (h : Histogram counts hours) (k : Int64) :
    Histogram (Queue.countHour k counts) (hours ++ [k]) where
  rising := rising_countHour k h.rising
  mem_iff i n := by
    rw [mem_countHour h.rising, List.count_append, List.count_singleton]
    simp only [h.mem_iff]
    by_cases hi : i = k
    · subst hi
      simp only [if_true, beq_self_eq_true]
      constructor
      · rintro (⟨_, ⟨-, rfl⟩, rfl⟩ | ⟨rfl, hnone⟩)
        · exact ⟨Nat.succ_pos _, rfl⟩
        · have hzero := Nat.eq_zero_of_not_pos fun hpos => hnone _ ⟨hpos, rfl⟩
          exact ⟨Nat.one_pos, by rw [hzero]⟩
      · rintro ⟨-, rfl⟩
        rcases Nat.eq_zero_or_pos (hours.count i) with hzero | hpos
        · exact .inr ⟨by rw [hzero], fun m hm => by omega⟩
        · exact .inl ⟨_, ⟨hpos, rfl⟩, rfl⟩
    · simp [hi, Ne.symm hi]

theorem histogram_foldl (hours : List Int64) :
    Histogram (hours.foldl (fun counts h => Queue.countHour h counts) []) hours := by
  induction hours using List.reverseRecOn with
  | nil => exact ⟨.nil, by simp +contextual [Nat.pos_iff_ne_zero]⟩
  | append_singleton hours h ih =>
    rw [List.foldl_append]
    exact ih.countHour h

/-! ### Hours until a job is due -/

section Clock

variable {now due : Int64}

/-- Neither a time after the epoch nor a clock that is not behind it is far from the other. -/
theorem toInt_sub_of_nonneg (hnow : 0 ≤ now) (hdue : 0 < due) :
    (due - now).toInt = due.toInt - now.toInt := by
  have hnow : 0 ≤ now.toInt := Int64.le_iff_toInt_le.mp hnow
  have hdue : 0 < due.toInt := Int64.lt_iff_toInt_lt.mp hdue
  have := now.toInt_lt
  have := due.toInt_lt
  rw [Int64.toInt_sub, Int.bmod_eq_of_le (by omega) (by omega)]

/-- The hours are those of the integers, where a division rounds towards zero. -/
theorem toInt_hoursUntil (hnow : 0 ≤ now) (hdue : 0 < due) :
    (hoursUntil now due).toInt = max 0 ((due.toInt - now.toInt).tdiv 3600) := by
  have hdiv : ((due - now) / 3600).toInt = (due.toInt - now.toInt).tdiv 3600 := by
    rw [Int64.toInt_div_of_ne_right _ _ (by decide), toInt_sub_of_nonneg hnow hdue]
    rfl
  unfold hoursUntil
  simp only [Int64.lt_iff_toInt_lt]
  split
  · next hneg =>
    rw [hdiv] at hneg
    exact (max_eq_left (Int.le_of_lt hneg)).symm
  · next hpos =>
    rw [hdiv] at hpos ⊢
    exact (max_eq_right (Int.not_lt.mp hpos)).symm

theorem hoursUntil_eq_iff (hnow : 0 ≤ now) (hdue : 0 < due) {hours : Int64} :
    hoursUntil now due = hours ↔
      if hours = 0 then due.toInt < now.toInt + 3600
      else 0 < hours ∧ hours.toInt * 3600 ≤ due.toInt - now.toInt ∧
        due.toInt - now.toInt < (hours.toInt + 1) * 3600 := by
  have hzero : hours = 0 ↔ hours.toInt = 0 := Int64.toInt_inj.symm
  have hpos : 0 < hours ↔ 0 < hours.toInt := Int64.lt_iff_toInt_lt
  have hsign : Int.sign 3600 = 1 := rfl
  simp only [hzero, hpos]
  rw [← Int64.toInt_inj, toInt_hoursUntil hnow hdue, Int.tdiv_eq_ediv, hsign]
  split <;> split <;> omega

end Clock

end Queue

/-- The job is held, and due in that many whole hours. Those that are due already or within the hour
are the ones that are due in none. -/
def QueuedJob.DueIn (now hours : Int64) (j : QueuedJob) : Prop :=
  j.priority = .normal ∧
    if hours = 0 then 0 < j.timeToRun ∧ j.timeToRun.toInt < now.toInt + 3600
    else 0 < hours ∧ hours.toInt * 3600 ≤ j.timeToRun.toInt - now.toInt ∧
      j.timeToRun.toInt - now.toInt < (hours.toInt + 1) * 3600

instance (now hours : Int64) (j : QueuedJob) : Decidable (j.DueIn now hours) := by
  unfold QueuedJob.DueIn
  infer_instance

theorem QueuedJob.dueIn_iff {now hours : Int64} (hnow : 0 ≤ now) {j : QueuedJob} :
    j.DueIn now hours ↔ j.lane = .held ∧ Queue.hoursUntil now j.timeToRun = hours := by
  rw [lane_eq_held_iff, DueIn]
  by_cases hdue : 0 < j.timeToRun
  · rw [Queue.hoursUntil_eq_iff hnow hdue]
    simp [hdue]
  · -- a job that is not after the epoch is not an hour or more behind the clock
    have hle : ¬ 0 < j.timeToRun.toInt := fun h => hdue (Int64.lt_iff_toInt_lt.mpr h)
    have hnow : 0 ≤ now.toInt := Int64.le_iff_toInt_le.mp hnow
    simp only [hdue, false_and, and_false, iff_false, not_and]
    intro _
    split
    · exact id
    · rintro ⟨hpos, hlow, -⟩
      have hpos : 0 < hours.toInt := Int64.lt_iff_toInt_lt.mp hpos
      omega

/-- The held jobs are those that belong among them, in some order. -/
theorem Lanes.held_ofJobs_perm (js : List QueuedJob) :
    (ofJobs js).held.Perm ((js.filter (·.lane = .held)).map QueuedJob.heldJob) := by
  induction js using List.reverseRecOn with
  | nil => exact .refl _
  | append_singleton js j ih =>
    rw [ofJobs_concat, held_push, List.filter_append, List.map_append]
    by_cases hj : j.lane = .held
    · simp only [hj, if_true, List.filter_singleton]
      exact (hold_perm _ _).trans ((ih.cons _).trans (List.perm_append_singleton _ _).symm)
    · simpa [hj] using ih

namespace Queue

/-! ### Queues that were new once -/

/-- A queue that was new once, whatever was asked of it since and whatever the store answered. -/
inductive Reachable (σ : Type) [JobStore σ] : Queue → Prop
  | new (functionName : String) (maxSize : Nat) : Reachable σ (.new functionName maxSize)
  | call {q : Queue} (c : QueueCall σ) (store : σ) :
      Reachable σ q → Reachable σ (q.call store c).2.1
  | poll {q : Queue} (now : Int64) (store : σ) : Reachable σ q → Reachable σ (q.poll now store).2.1

/-- The lanes, the table and the counters of a queue hold the same jobs. -/
structure Accurate (q : Queue) : Prop where
  /-- A queued job stands once in its own lane, and nothing else stands anywhere. -/
  lanes : ∀ u lane, (q.lanes.ids lane).count u =
    if (q.find? u).map QueuedJob.lane = some lane then 1 else 0
  find? : ∀ u j, q.find? u = some j ↔ j ∈ q.toList ∧ j.uniqueId = u
  contains : ∀ u, q.contains u ↔ ∃ j ∈ q.toList, j.uniqueId = u
  count : ∀ p, q.count p = q.toList.countP (·.priority = p)
  size : q.size = q.toList.length
  isEmpty : q.isEmpty ↔ q.toList = []
  /-- A counter is lowered only when it is not zero. -/
  takeNext : ∀ now j q', q.takeNext now = (some j, q') → 0 < q.count j.priority
  take : ∀ u j q', q.take u = some (j, q') → 0 < q.count j.priority

/-- The hours until held jobs are due are told as they are. -/
structure TellsHours (q : Queue) (now : Int64) : Prop where
  /-- No difference is out of the range of a time. -/
  noWrap : ∀ g ∈ q.lanes.held, (g.due - now).toInt = g.due.toInt - now.toInt ∧
    (hoursUntil now g.due).toInt = max 0 ((g.due.toInt - now.toInt).tdiv 3600)
  rising : (q.heldByHour now).Pairwise fun c d => c.1 < d.1
  mem_iff : ∀ hours n, (hours, n) ∈ q.heldByHour now ↔
    0 < n ∧ n = q.toList.countP (·.DueIn now hours)

variable {q : Queue} {r : Roster}

theorem Lists.count_eq (h : Lists q r) (p : Priority) :
    q.count p = q.toList.countP (·.priority = p) := by
  rw [h.toList_eq]
  exact h.tally_eq p

/-- Each job has one of the three priorities. -/
theorem Lists.size_eq (h : Lists q r) : q.size = q.toList.length := by
  show q.count .high + q.count .normal + q.count .low = _
  simp only [h.count_eq]
  induction q.toList with
  | nil => rfl
  | cons j js ih =>
    simp only [List.countP_cons, List.length_cons, ← ih]
    cases j.priority <;> simp <;> omega

theorem Lists.find?_eq_some_iff (h : Lists q r) {u : String} {j : QueuedJob} :
    q.find? u = some j ↔ j ∈ q.toList ∧ j.uniqueId = u := by
  constructor
  · intro hj
    obtain ⟨before, after, hjobs, -⟩ := h.exists_split hj
    exact ⟨by simp [h.toList_eq, hjobs], h.inOrder.uniqueId hj⟩
  · rintro ⟨hj, rfl⟩
    exact h.find?_of_mem (h.toList_eq ▸ hj)

theorem Lists.count_pos (h : Lists q r) {u : String} {j : QueuedJob} (hj : q.find? u = some j) :
    0 < q.count j.priority := by
  rw [h.count_eq]
  exact List.countP_pos_iff.mpr ⟨j, (h.find?_eq_some_iff.mp hj).1, by simp⟩

theorem accurate_of_lists (h : Lists q r) : q.Accurate where
  lanes := h.inOrder.count_ids
  find? _ _ := h.find?_eq_some_iff
  contains u := by
    show (q.find? u).isSome ↔ _
    simp only [Option.isSome_iff_exists, h.find?_eq_some_iff]
  count := h.count_eq
  size := h.size_eq
  isEmpty := by simp [Queue.isEmpty, h.size_eq]
  takeNext now j q' htake := by
    rcases takeNext_cases h.inOrder now with hnone | ⟨i, q'', hsome, hi, -⟩
    · simp [hnone] at htake
    · obtain ⟨rfl, -⟩ : i = j ∧ q'' = q' := by simpa [hsome] using htake
      exact h.count_pos hi
  take u j q' htake := by
    obtain ⟨i, hi, heq⟩ := Option.map_eq_some_iff.mp htake
    obtain rfl : i = j := (Prod.mk.inj heq).1
    exact h.count_pos hi

/-- The held jobs that are due in some hours are as many as stand among the held ones so. -/
theorem Lists.count_hoursUntil (h : Lists q r) {now : Int64} (hnow : 0 ≤ now) (hours : Int64) :
    (q.lanes.held.map fun g => hoursUntil now g.due).count hours =
      q.toList.countP (·.DueIn now hours) := by
  rw [h.lanes_eq, h.toList_eq, List.count,
    (((Lanes.held_ofJobs_perm r.jobs).map _).countP_eq _), List.map_map, List.countP_map,
    List.countP_filter]
  refine List.countP_congr fun j _ => ?_
  simp [QueuedJob.dueIn_iff hnow, QueuedJob.heldJob, and_comm]

theorem Lists.tellsHours (h : Lists q r) {now : Int64} (hnow : 0 ≤ now) : q.TellsHours now := by
  have hhistogram :
      Histogram (q.heldByHour now) (q.lanes.held.map fun g => hoursUntil now g.due) := by
    have hfold := histogram_foldl (q.lanes.held.map fun g => hoursUntil now g.due)
    rwa [List.foldl_map] at hfold
  refine ⟨fun g hg => ?_, hhistogram.rising, fun hours n => ?_⟩
  · rw [h.lanes_eq, (Lanes.held_ofJobs_perm r.jobs).mem_iff, List.mem_map] at hg
    obtain ⟨j, hj, rfl⟩ := hg
    have hdue : 0 < j.timeToRun :=
      (lane_eq_held_iff.mp (of_decide_eq_true (List.mem_filter.mp hj).2)).2
    exact ⟨toInt_sub_of_nonneg hnow hdue, toInt_hoursUntil hnow hdue⟩
  · rw [hhistogram.mem_iff, h.count_hoursUntil hnow]

namespace Reachable

variable {σ : Type} [JobStore σ]

theorem orderly (h : Reachable σ q) : q.Orderly := by
  induction h with
  | new functionName maxSize => exact .new functionName maxSize
  | call c store _ ih =>
    obtain ⟨r, hr⟩ := ih
    obtain ⟨answer, q', r', store', hq', -, hr'⟩ := hr.call c store
    exact hq' ▸ ⟨r', hr'⟩
  | @poll q now store _ ih =>
    have hpoll : (q.poll now store).2.1 = (q.takeNext now).2 := by
      unfold Queue.poll
      split <;> simp [*]
    rw [hpoll]
    exact (Within.takeNext rfl).orderly ih

theorem serve (h : Reachable σ q) (cs : List (QueueCall σ)) (store : σ) :
    Reachable σ (JobBroker.serve Queue.call q store cs).2.1 := by
  induction cs generalizing q store with
  | nil => exact h
  | cons c cs ih => exact ih (h.call c store) _

/-- Whatever has been asked of a queue, its lanes, its table and its counters agree, and for a clock
that is not before the epoch it tells how many held jobs are how many hours away. -/
theorem accurate (h : Reachable σ q) : q.Accurate ∧ ∀ now, 0 ≤ now → q.TellsHours now := by
  obtain ⟨r, hr⟩ := h.orderly
  exact ⟨accurate_of_lists hr, fun _ hnow => hr.tellsHours hnow⟩

/-- Of two jobs that are due in two hours one is withdrawn, one that has come due is handed out, and
one is due within the hour. -/
theorem accurate_three_held :
    let job (u : String) (time : Int64) : Job := { Job.new "f" u [] with timeToRun := time }
    let calls : List (QueueCall MemoryStore) :=
      [.enqueue (job "a" 9000), .enqueue (job "b" 9000), .enqueue (job "c" 90), .setMaxSize 3,
        .enqueue (job "d" 0), .enqueue { job "e" 0 with priority := .low }, .remove ⟨"f", "a"⟩,
        .enqueue (job "d" 2000), .takeNext 100]
    let q := (JobBroker.serve Queue.call (.new "f" 0) MemoryStore.empty calls).2.1
    q.Accurate ∧ q.TellsHours 100 ∧ q.heldByHour 100 = [(0, 1), (2, 1)] ∧
      q.count .normal = 2 ∧ q.size = 2 := by
  intro job calls q
  have hq : Reachable MemoryStore q := (Reachable.new "f" 0).serve calls MemoryStore.empty
  exact ⟨(accurate hq).1, (accurate hq).2 100 (by decide), by decide +kernel, by decide +kernel,
    by decide +kernel⟩

end Reachable

end Queue

end JobBroker
