import JobBroker.Proofs.Queue.InOrder
import Mathlib.Data.List.Induction

/-!
# Lanes and the order of arrival

Lanes into which jobs were put one after the other, described by the list of those jobs alone:
`Lanes.ofJobs`.

* `earliest?_spec` : `earliest?` finds the job that is due first, and among those due at one time
  the one that came first.
* `Lanes.head?_held_ofJobs` : that one, of the held jobs, is the first held job.
* `Lanes.ofJobs_filter` : lanes that lose a job are as if it had never come.
* `Lanes.map_fst_pop?_ofJobs` : the next job, found in the list by `next?`.
-/

namespace JobBroker

/-- The job that is due first; among those due at one time the one that came first. -/
def earliest? (js : List QueuedJob) : Option QueuedJob :=
  js.foldl (fun first j => match first with
    | none => some j
    | some i => if j.timeToRun < i.timeToRun then some j else some i) none

/-- The job that is handed out next at a time, among jobs in the order in which they came: the first
of high priority, else the one that is due first among those that have come due, else the first
normal one that was never held, else the first of low priority. -/
def next? (now : Int64) (js : List QueuedJob) : Option QueuedJob :=
  (js.find? fun j => j.priority = .high) <|>
  earliest? (js.filter fun j => j.priority = .normal ∧ 0 < j.timeToRun ∧ j.timeToRun ≤ now) <|>
  (js.find? fun j => j.priority = .normal ∧ j.timeToRun ≤ 0) <|>
  (js.find? fun j => j.priority = .low)

theorem earliest?_concat (js : List QueuedJob) (j : QueuedJob) :
    earliest? (js ++ [j]) = some (match earliest? js with
      | none => j
      | some i => if j.timeToRun < i.timeToRun then j else i) := by
  rw [earliest?, List.foldl_append, ← earliest?, List.foldl_cons, List.foldl_nil]
  cases earliest? js with
  | none => rfl
  | some i => exact (apply_ite some _ _ _).symm

theorem earliest?_eq_none_iff {js : List QueuedJob} : earliest? js = none ↔ js = [] := by
  rcases List.eq_nil_or_concat' js with rfl | ⟨js, j, rfl⟩
  · exact iff_of_true rfl rfl
  · simp [earliest?_concat]

/-- No job is due before the earliest one, and those that came before it are due after it. -/
theorem earliest?_spec {js : List QueuedJob} {j : QueuedJob} (h : earliest? js = some j) :
    ∃ before after, js = before ++ j :: after ∧ (∀ i ∈ before, j.timeToRun < i.timeToRun) ∧
      ∀ i ∈ after, j.timeToRun ≤ i.timeToRun := by
  induction js using List.reverseRecOn generalizing j with
  | nil => exact absurd h (by simp [earliest?])
  | append_singleton js k ih =>
    rw [earliest?_concat] at h
    cases hjs : earliest? js with
    | none =>
      obtain rfl := earliest?_eq_none_iff.mp hjs
      rw [hjs] at h
      exact ⟨[], [], by rw [← Option.some.inj h], by simp, by simp⟩
    | some i =>
      obtain ⟨before, after, rfl, hbefore, hafter⟩ := ih hjs
      rw [hjs] at h
      dsimp only at h
      split at h
      · next hki =>
        obtain rfl := Option.some.inj h
        refine ⟨before ++ i :: after, [], by simp, fun i' hi' => ?_, by simp⟩
        rcases List.mem_append.mp hi' with hi' | hi'
        · exact Int64.lt_trans hki (hbefore i' hi')
        · rcases List.mem_cons.mp hi' with rfl | hi'
          · exact hki
          · exact Int64.lt_of_lt_of_le hki (hafter i' hi')
      · next hki =>
        obtain rfl := Option.some.inj h
        refine ⟨before, after ++ [k], by simp, hbefore, fun i' hi' => ?_⟩
        rcases List.mem_append.mp hi' with hi' | hi'
        · exact hafter i' hi'
        · rw [List.mem_singleton.mp hi']
          exact Int64.not_lt.mp hki

theorem mem_of_next? {now : Int64} {js : List QueuedJob} {j : QueuedJob}
    (h : next? now js = some j) : j ∈ js := by
  simp only [next?, Option.orElse_eq_orElse, Option.orElse_eq_or, Option.or_eq_some_iff] at h
  rcases h with h | ⟨-, h | ⟨-, h | ⟨-, h⟩⟩⟩
  · exact List.mem_of_find?_eq_some h
  · obtain ⟨before, after, hjs, -⟩ := earliest?_spec h
    exact List.mem_of_mem_filter (hjs ▸ List.mem_append_right before List.mem_cons_self)
  · exact List.mem_of_find?_eq_some h
  · exact List.mem_of_find?_eq_some h

theorem lane_eq_held_iff {j : QueuedJob} :
    j.lane = .held ↔ j.priority = .normal ∧ 0 < j.timeToRun := by
  unfold QueuedJob.lane QueuedJob.isHeld
  cases j.priority <;> simp

theorem lane_eq_normal_iff {j : QueuedJob} :
    j.lane = .normal ↔ j.priority = .normal ∧ j.timeToRun ≤ 0 := by
  unfold QueuedJob.lane QueuedJob.isHeld
  cases j.priority <;> simp

theorem lane_eq_high_iff {j : QueuedJob} : j.lane = .high ↔ j.priority = .high := by
  unfold QueuedJob.lane QueuedJob.isHeld
  cases j.priority <;> simp
  split <;> simp

theorem lane_eq_low_iff {j : QueuedJob} : j.lane = .low ↔ j.priority = .low := by
  unfold QueuedJob.lane QueuedJob.isHeld
  cases j.priority <;> simp
  split <;> simp

/-- The entry under which a job is held. -/
def QueuedJob.heldJob (j : QueuedJob) : HeldJob := ⟨j.timeToRun, j.uniqueId⟩

namespace Lanes

/-! ### The held jobs stand by rising time -/

/-- Held jobs by rising time. -/
def Rising (hs : List HeldJob) : Prop := hs.Pairwise fun g h => g.due ≤ h.due

theorem hold_eq_cons {h : HeldJob} {hs : List HeldJob} (hall : ∀ g ∈ hs, h.due < g.due) :
    hold h hs = h :: hs := by
  cases hs with
  | nil => rfl
  | cons g gs => exact if_pos (hall g List.mem_cons_self)

theorem rising_hold {hs : List HeldJob} (hr : Rising hs) (h : HeldJob) : Rising (hold h hs) := by
  induction hs with
  | nil => exact List.pairwise_singleton _ h
  | cons g gs ih =>
    obtain ⟨hg, hgs⟩ := List.pairwise_cons.mp hr
    unfold hold
    split
    · next hlt =>
      refine List.pairwise_cons.mpr ⟨fun g' hg' => ?_, hr⟩
      rcases List.mem_cons.mp hg' with rfl | hg'
      · exact Int64.le_of_lt hlt
      · exact Int64.le_trans (Int64.le_of_lt hlt) (hg g' hg')
    · next hle =>
      refine List.pairwise_cons.mpr ⟨fun g' hg' => ?_, ih hgs⟩
      rcases List.mem_cons.mp ((hold_perm h gs).mem_iff.mp hg') with rfl | hg'
      · exact Int64.not_lt.mp hle
      · exact hg g' hg'

/-- Holding a job and then dropping some is dropping them first. -/
theorem filter_hold (p : HeldJob → Bool) {hs : List HeldJob} (hr : Rising hs) (h : HeldJob) :
    (hold h hs).filter p = if p h then hold h (hs.filter p) else hs.filter p := by
  induction hs with
  | nil => by_cases hp : p h <;> simp [hold, hp]
  | cons g gs ih =>
    obtain ⟨hg, hgs⟩ := List.pairwise_cons.mp hr
    by_cases hlt : h.due < g.due
    · have hall : ∀ g' ∈ (g :: gs).filter p, h.due < g'.due := fun g' hg' => by
        rcases List.mem_cons.mp (List.mem_filter.mp hg').1 with rfl | hg'
        · exact hlt
        · exact Int64.lt_of_lt_of_le hlt (hg g' hg')
      rw [hold_eq_cons hall, hold, if_pos hlt, List.filter_cons]
    · rw [hold, if_neg hlt, List.filter_cons, ih hgs, List.filter_cons]
      by_cases hp : p g <;> by_cases hh : p h <;> simp [hp, hh, hold, hlt]

theorem head?_hold (h : HeldJob) (hs : List HeldJob) :
    (hold h hs).head? =
      some (hs.head?.elim h fun g => if h.due < g.due then h else g) := by
  cases hs with
  | nil => rfl
  | cons g gs =>
    unfold hold
    split <;> simp [*]

/-! ### Lanes filled by a list of jobs -/

/-- Empty lanes into which some jobs were put in their order. -/
def ofJobs (js : List QueuedJob) : Lanes := js.foldl push empty

theorem ofJobs_concat (js : List QueuedJob) (j : QueuedJob) :
    ofJobs (js ++ [j]) = (ofJobs js).push j :=
  List.foldl_append

theorem held_push (l : Lanes) (j : QueuedJob) :
    (l.push j).held = if j.lane = .held then hold j.heldJob l.held else l.held := by
  unfold push QueuedJob.lane
  by_cases hh : j.isHeld = true
  · simp [hh, QueuedJob.heldJob]
  · cases hp : j.priority <;> simp [hh]

/-- Only held jobs do not wait in the order in which they came. -/
theorem ids_push_of_ne_held (l : Lanes) (j : QueuedJob) {lane : Lane} (h : lane ≠ .held) :
    (l.push j).ids lane = l.ids lane ++ if j.lane = lane then [j.uniqueId] else [] := by
  unfold push QueuedJob.lane
  by_cases hh : j.isHeld = true
  · cases lane <;> simp_all [ids]
  · cases hp : j.priority <;> cases lane <;> simp_all [ids]

theorem ids_ofJobs (js : List QueuedJob) {lane : Lane} (h : lane ≠ .held) :
    (ofJobs js).ids lane = (js.filter (·.lane = lane)).map QueuedJob.uniqueId := by
  induction js using List.reverseRecOn with
  | nil => exact ids_empty lane
  | append_singleton js j ih =>
    rw [ofJobs_concat, ids_push_of_ne_held _ _ h, ih, List.filter_append, List.map_append]
    by_cases hj : j.lane = lane <;> simp [hj]

theorem rising_held_ofJobs (js : List QueuedJob) : Rising (ofJobs js).held := by
  induction js using List.reverseRecOn with
  | nil => exact List.Pairwise.nil
  | append_singleton js j ih =>
    rw [ofJobs_concat, held_push]
    split
    · exact rising_hold ih _
    · exact ih

theorem head?_ids_ofJobs (js : List QueuedJob) (lane : Lane) (h : lane ≠ .held) :
    ((ofJobs js).ids lane).head? = (js.find? (·.lane = lane)).map QueuedJob.uniqueId := by
  rw [ids_ofJobs js h, List.head?_map, List.head?_filter]

/-- The first held job is due first, and came first among those due at that time. -/
theorem head?_held_ofJobs (js : List QueuedJob) :
    (ofJobs js).held.head? =
      (earliest? (js.filter (·.lane = .held))).map QueuedJob.heldJob := by
  induction js using List.reverseRecOn with
  | nil => rfl
  | append_singleton js j ih =>
    rw [ofJobs_concat, held_push, List.filter_append]
    by_cases hj : j.lane = .held
    · have hfilter : [j].filter (fun i => decide (i.lane = .held)) = [j] := by simp [hj]
      rw [if_pos hj, head?_hold, ih, hfilter, earliest?_concat]
      cases earliest? (js.filter fun i => decide (i.lane = .held)) with
      | none => rfl
      | some i => by_cases hji : j.timeToRun < i.timeToRun <;> simp [QueuedJob.heldJob, hji]
    · simp [hj, ih]

/-! ### The next job -/

theorem map_fst_pop? (l : Lanes) (now : Int64) :
    (l.pop? now).map Prod.fst =
      (l.high.head? <|> (l.held.head?.filter (·.due ≤ now)).map HeldJob.uniqueId <|>
        l.normal.head? <|> l.low.head?) := by
  obtain ⟨high, normal, low, held⟩ := l
  cases high with
  | cons u us => rfl
  | nil =>
    have hplain : (popPlain ⟨[], normal, low, held⟩).map Prod.fst =
        (normal.head? <|> low.head?) := by
      cases normal <;> cases low <;> rfl
    cases held with
    | nil => exact hplain
    | cons h hs =>
      by_cases hd : h.due ≤ now
      · simp [pop?, hd, Option.filter_some]
      · simpa [pop?, hd, Option.filter_some] using hplain

/-- The earliest of the jobs that have come due is the earliest of all, if that has come due. -/
theorem earliest?_filter (now : Int64) (js : List QueuedJob) :
    earliest? (js.filter (·.timeToRun ≤ now)) = (earliest? js).filter (·.timeToRun ≤ now) := by
  induction js using List.reverseRecOn with
  | nil => rfl
  | append_singleton js j ih =>
    have hfilter : [j].filter (·.timeToRun ≤ now) = if j.timeToRun ≤ now then [j] else [] := by
      simp [List.filter_cons]
    rw [List.filter_append, hfilter, earliest?_concat]
    split
    · next hj =>
      rw [earliest?_concat, ih]
      cases earliest? js with
      | none => simp [Option.filter_some, hj]
      | some i =>
        by_cases hi : i.timeToRun ≤ now
        · by_cases hji : j.timeToRun < i.timeToRun <;> simp [Option.filter_some, hj, hi, hji]
        · -- `j` has come due and `i` has not, so `j` is due first
          have hji : j.timeToRun < i.timeToRun :=
            Int64.lt_of_le_of_lt hj (Int64.not_le.mp hi)
          simp [Option.filter_some, hj, hi, hji]
    · next hj =>
      rw [List.append_nil, ih]
      cases earliest? js with
      | none => simp [Option.filter_some, hj]
      | some i =>
        by_cases hji : j.timeToRun < i.timeToRun
        · have hi : ¬ i.timeToRun ≤ now := fun hi =>
            hj (Int64.le_of_lt (Int64.lt_of_lt_of_le hji hi))
          simp [Option.filter_some, hj, hi, hji]
        · simp [hji]

/-- The next job of lanes filled by a list of jobs is the next one of the list. -/
theorem map_fst_pop?_ofJobs (js : List QueuedJob) (now : Int64) :
    ((ofJobs js).pop? now).map Prod.fst = (next? now js).map QueuedJob.uniqueId := by
  have hdue : ((ofJobs js).held.head?.filter (·.due ≤ now)).map HeldJob.uniqueId =
      (earliest? (js.filter fun j =>
        j.priority = .normal ∧ 0 < j.timeToRun ∧ j.timeToRun ≤ now)).map QueuedJob.uniqueId := by
    have hfilter : (js.filter fun j => j.priority = .normal ∧ 0 < j.timeToRun ∧ j.timeToRun ≤ now) =
        (js.filter (·.lane = .held)).filter (·.timeToRun ≤ now) := by
      rw [List.filter_filter]
      refine List.filter_congr fun j _ => ?_
      simp only [lane_eq_held_iff, ← Bool.decide_and, decide_eq_decide]
      tauto
    rw [head?_held_ofJobs, hfilter, earliest?_filter]
    cases earliest? (js.filter (·.lane = .held)) with
    | none => rfl
    | some j =>
      simp only [Option.map_some, Option.filter_some, QueuedJob.heldJob]
      split <;> rfl
  have hhigh := head?_ids_ofJobs js .high (by simp)
  have hnormal := head?_ids_ofJobs js .normal (by simp)
  have hlow := head?_ids_ofJobs js .low (by simp)
  simp only [ids, lane_eq_high_iff, lane_eq_normal_iff, lane_eq_low_iff] at hhigh hnormal hlow
  rw [map_fst_pop?, hdue, hhigh, hnormal, hlow]
  simp only [next?, Option.orElse_eq_orElse, Option.orElse_eq_or, Option.map_or]

/-! ### Losing a job -/

/-- The lanes without the jobs whose unique ids do not meet `p`. -/
def keep (p : String → Bool) (l : Lanes) : Lanes where
  high := l.high.filter p
  normal := l.normal.filter p
  low := l.low.filter p
  held := l.held.filter fun h => p h.uniqueId

theorem keep_push (p : String → Bool) {l : Lanes} (hr : Rising l.held) (j : QueuedJob) :
    (l.push j).keep p = if p j.uniqueId then (l.keep p).push j else l.keep p := by
  unfold push
  by_cases hh : j.isHeld = true
  · simp only [hh, if_true, keep, filter_hold _ hr]
    split <;> rfl
  · cases hj : j.priority <;> by_cases hp : p j.uniqueId <;> simp [hh, keep, hp]

/-- Lanes that lose jobs are as if those had never come. -/
theorem ofJobs_filter (p : String → Bool) (js : List QueuedJob) :
    ofJobs (js.filter fun j => p j.uniqueId) = (ofJobs js).keep p := by
  induction js using List.reverseRecOn with
  | nil => rfl
  | append_singleton js j ih =>
    rw [ofJobs_concat, keep_push p (rising_held_ofJobs js), ← ih, List.filter_append]
    by_cases hp : p j.uniqueId <;> simp [hp, ofJobs_concat]

/-- Lanes without the unique id `u` in one of them. -/
def strike (l : Lanes) (u : String) : Lane → Lanes
  | .high => { l with high := l.high.filter (· ≠ u) }
  | .held => { l with held := l.held.filter (·.uniqueId ≠ u) }
  | .normal => { l with normal := l.normal.filter (· ≠ u) }
  | .low => { l with low := l.low.filter (· ≠ u) }

theorem filter_ne_eq_self {u : String} {us : List String} (h : u ∉ us) :
    us.filter (· ≠ u) = us :=
  List.filter_eq_self.mpr fun _ hv => decide_eq_true fun he => h (he ▸ hv)

/-- A unique id that stands in no other lane is struck out of one. -/
theorem keep_eq_strike {l : Lanes} {u : String} {own : Lane}
    (h : ∀ lane, u ∈ l.ids lane → lane = own) : l.keep (· ≠ u) = l.strike u own := by
  have hhigh : .high ≠ own → l.high.filter (· ≠ u) = l.high := fun hne =>
    filter_ne_eq_self fun hu => hne (h .high hu)
  have hnormal : .normal ≠ own → l.normal.filter (· ≠ u) = l.normal := fun hne =>
    filter_ne_eq_self fun hu => hne (h .normal hu)
  have hlow : .low ≠ own → l.low.filter (· ≠ u) = l.low := fun hne =>
    filter_ne_eq_self fun hu => hne (h .low hu)
  have hheld : .held ≠ own → l.held.filter (fun g => g.uniqueId ≠ u) = l.held := fun hne =>
    List.filter_eq_self.mpr fun g hg => decide_eq_true fun he =>
      hne (h .held (List.mem_map.mpr ⟨g, hg, he⟩))
  cases own with
  | high => rw [keep, strike, hnormal nofun, hlow nofun, hheld nofun]
  | held => rw [keep, strike, hhigh nofun, hnormal nofun, hlow nofun]
  | normal => rw [keep, strike, hhigh nofun, hlow nofun, hheld nofun]
  | low => rw [keep, strike, hhigh nofun, hnormal nofun, hheld nofun]

theorem drop_eq_strike (l : Lanes) (j : QueuedJob) : l.drop j = l.strike j.uniqueId j.lane := by
  unfold drop QueuedJob.lane
  by_cases hh : j.isHeld = true
  · simp [hh, strike]
  · cases hj : j.priority <;> simp [hh, strike]

theorem filter_ne_cons {u : String} {us : List String} (h : (u :: us).Nodup) :
    (u :: us).filter (· ≠ u) = us := by
  rw [List.filter_cons_of_neg (by simp), filter_ne_eq_self (List.nodup_cons.mp h).1]

theorem popPlain_eq_strike {l l' : Lanes} {u : String} (hnodup : ∀ lane, (l.ids lane).Nodup)
    (hpop : l.popPlain = some (u, l')) : ∃ lane, u ∈ l.ids lane ∧ l' = l.strike u lane := by
  unfold popPlain at hpop
  split at hpop
  · next hn =>
    obtain ⟨rfl, rfl⟩ := by simpa using hpop
    exact ⟨.normal, by simp [ids, hn], by rw [strike, hn, filter_ne_cons (hn ▸ hnodup .normal)]⟩
  · next hl =>
    obtain ⟨rfl, rfl⟩ := by simpa using hpop
    exact ⟨.low, by simp [ids, hl], by rw [strike, hl, filter_ne_cons (hl ▸ hnodup .low)]⟩
  · exact absurd hpop (by simp)

/-- The next job, once popped, is struck out of the lane in which it stood first. -/
theorem pop?_eq_strike {l l' : Lanes} {now : Int64} {u : String}
    (hnodup : ∀ lane, (l.ids lane).Nodup) (hpop : l.pop? now = some (u, l')) :
    ∃ lane, u ∈ l.ids lane ∧ l' = l.strike u lane := by
  unfold pop? at hpop
  split at hpop
  · next hh =>
    obtain ⟨rfl, rfl⟩ := by simpa using hpop
    exact ⟨.high, by simp [ids, hh], by rw [strike, hh, filter_ne_cons (hh ▸ hnodup .high)]⟩
  · split at hpop
    · next h hs hh =>
      split at hpop
      · obtain ⟨rfl, rfl⟩ := by simpa using hpop
        have hnew : h.uniqueId ∉ hs.map HeldJob.uniqueId := by
          have hids := hnodup .held
          rw [ids, hh] at hids
          exact (List.nodup_cons.mp hids).1
        refine ⟨.held, by simp [ids, hh], ?_⟩
        rw [strike, hh, List.filter_cons_of_neg (by simp), List.filter_eq_self.mpr fun g hg => ?_]
        exact decide_eq_true fun he => hnew (List.mem_map.mpr ⟨g, hg, he⟩)
      · exact popPlain_eq_strike hnodup hpop
    · exact popPlain_eq_strike hnodup hpop

end Lanes

end JobBroker
