import JobBroker.Proofs.Queue.Roster

/-!
# Ready jobs

A queue has something ready when a job in it may be handed out: one that is not held, or one that
was held and has come due. That is said of its jobs alone, whatever lanes they stand in.

* `Orderly.hasReady_iff` : what `hasReady` answers.
* `Within` : a queue that has only lost jobs. It has nothing ready that was not ready before.
-/

namespace JobBroker

/-- The job may be handed out. -/
def QueuedJob.isReady (j : QueuedJob) (now : Int64) : Bool :=
  !j.isHeld || decide (j.timeToRun ≤ now)

theorem QueuedJob.isReady_of_lane {j : QueuedJob} {now : Int64} (h : j.lane ≠ .held) :
    j.isReady now := by
  unfold QueuedJob.lane at h
  unfold QueuedJob.isReady
  cases hheld : j.isHeld with
  | false => rfl
  | true => exact absurd (by simp [hheld]) h

/-- There is a next job as soon as one may be handed out. -/
theorem isSome_next?_iff {now : Int64} {js : List QueuedJob} :
    (next? now js).isSome ↔ ∃ j ∈ js, j.isReady now := by
  simp only [next?, Option.orElse_eq_orElse, Option.orElse_eq_or, Option.isSome_or, Bool.or_eq_true,
    List.find?_isSome, decide_eq_true_eq, ← lane_eq_high_iff, ← lane_eq_normal_iff,
    ← lane_eq_low_iff]
  have hearliest : (earliest? (js.filter fun j =>
      j.priority = .normal ∧ 0 < j.timeToRun ∧ j.timeToRun ≤ now)).isSome ↔
        ∃ j ∈ js, j.lane = .held ∧ j.timeToRun ≤ now := by
    rw [← Option.ne_none_iff_isSome, Ne, earliest?_eq_none_iff, List.filter_eq_nil_iff]
    simp [lane_eq_held_iff, and_assoc]
  rw [hearliest]
  constructor
  · rintro (⟨j, hj, h⟩ | ⟨j, hj, -, h⟩ | ⟨j, hj, h⟩ | ⟨j, hj, h⟩)
    · exact ⟨j, hj, j.isReady_of_lane (by simp [h])⟩
    · exact ⟨j, hj, by simp [QueuedJob.isReady, h]⟩
    · exact ⟨j, hj, j.isReady_of_lane (by simp [h])⟩
    · exact ⟨j, hj, j.isReady_of_lane (by simp [h])⟩
  · rintro ⟨j, hj, h⟩
    cases hlane : j.lane with
    | high => exact .inl ⟨j, hj, hlane⟩
    | normal => exact .inr (.inr (.inl ⟨j, hj, hlane⟩))
    | low => exact .inr (.inr (.inr ⟨j, hj, hlane⟩))
    | held =>
      have hheld : j.isHeld := by
        simp [QueuedJob.isHeld, lane_eq_held_iff.mp hlane]
      exact .inr (.inl ⟨j, hj, hlane, by simpa [QueuedJob.isReady, hheld] using h⟩)

namespace Queue

variable {q q' : Queue}

/-- The queue holds the jobs of some list, in its lanes and in its table. -/
def Orderly (q : Queue) : Prop := ∃ r, q.Lists r

theorem Lists.toList_eq {r : Roster} (h : Lists q r) : q.toList = r.jobs := by
  rw [toList, Table.values, h.entries_eq, List.map_map]
  exact List.map_id _

namespace Orderly

theorem new (functionName : String) (maxSize : Nat) : (Queue.new functionName maxSize).Orderly :=
  ⟨_, .new functionName maxSize⟩

theorem hasReady_iff (h : q.Orderly) {now : Int64} :
    q.hasReady now ↔ ∃ j ∈ q.toList, j.isReady now := by
  obtain ⟨r, h⟩ := h
  rw [h.hasReady_eq, h.toList_eq, isSome_next?_iff]

theorem accept (h : q.Orderly) {j : QueuedJob} (hnew : q.find? j.uniqueId = none) :
    (q.accept j).Orderly := by
  obtain ⟨r, h⟩ := h
  exact ⟨_, h.accept hnew⟩

theorem reinstate (h : q.Orderly) (j : QueuedJob) : (q.reinstate j).2.Orderly := by
  unfold Queue.reinstate
  split
  · exact h
  · next hnew => exact h.accept (find?_of_contains_eq_false (Bool.not_eq_true _ ▸ hnew))

end Orderly

/-- `q'` is in order when `q` is, and has only jobs of `q`. -/
def Within (q' q : Queue) : Prop :=
  ∀ r, q.Lists r → ∃ r', q'.Lists r' ∧ ∀ j ∈ r'.jobs, j ∈ r.jobs

namespace Within

theorem refl (q : Queue) : Within q q := fun r h => ⟨r, h, fun _ => id⟩

theorem orderly (h : Within q' q) : q.Orderly → q'.Orderly := by
  rintro ⟨r, hr⟩
  obtain ⟨r', hr', -⟩ := h r hr
  exact ⟨r', hr'⟩

theorem hasReady (h : Within q' q) (hq : q.Orderly) {now : Int64} :
    q'.hasReady now → q.hasReady now := by
  rw [hq.hasReady_iff, (h.orderly hq).hasReady_iff]
  obtain ⟨r, hr⟩ := hq
  obtain ⟨r', hr', hsub⟩ := h r hr
  rw [hr.toList_eq, hr'.toList_eq]
  exact fun ⟨j, hj, hready⟩ => ⟨j, hsub j hj, hready⟩

theorem withMaxSize (q : Queue) (size : Nat) : Within { q with maxSize := size } q :=
  fun r h => ⟨{ r with maxSize := size },
    { h with maxSize_eq := rfl, inOrder := h.inOrder.congr rfl rfl }, fun _ => id⟩

theorem takeNext {now : Int64} {answer : Option QueuedJob} (h : q.takeNext now = (answer, q')) :
    Within q' q := by
  intro r hr
  have hnext := hr.takeNext now
  cases hn : next? now r.jobs with
  | none =>
    rw [hn] at hnext
    obtain rfl := congrArg Prod.snd (h.symm.trans hnext)
    exact ⟨r, hr, fun _ => id⟩
  | some j =>
    rw [hn] at hnext
    obtain ⟨q₁, hq₁, hr'⟩ := hnext
    obtain rfl := congrArg Prod.snd (h.symm.trans hq₁)
    exact ⟨_, hr', fun i hi => List.mem_of_mem_eraseP hi⟩

theorem remove {σ : Type} [JobStore σ] {k : JobKey} {store store' : σ} {removed : Bool}
    (h : q.remove k store = (removed, q', store')) : Within q' q := by
  cases hj : q.find? k.uniqueId with
  | none =>
    rw [remove_of_find?_eq_none hj] at h
    obtain ⟨-, rfl, -⟩ := by simpa using h
    exact Within.refl q
  | some j =>
    intro r hr
    obtain ⟨q₁, hq₁, hr'⟩ := hr.remove hj store
    obtain rfl := congrArg (·.2.1) (h.symm.trans hq₁)
    exact ⟨_, hr', fun i hi => List.mem_of_mem_eraseP hi⟩

end Within

end Queue

end JobBroker
