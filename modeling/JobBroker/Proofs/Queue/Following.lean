import JobBroker.Proofs.Queue.Readiness

/-!
# Queues behind which jobs come in

The jobs that come into a queue stand behind those that are there already: last in their lane, or,
if they are held, behind those that are due no later.

* `Followed` : a queue, and what it is after others have come in.
* `Orderly.followed` : it is enough to look at the lists of jobs.
-/

namespace JobBroker

namespace Lanes

theorem hold_eq_append {h : HeldJob} {hs : List HeldJob} (hall : ∀ g ∈ hs, g.due ≤ h.due) :
    hold h hs = hs ++ [h] := by
  induction hs with
  | nil => rfl
  | cons g gs ih =>
    rw [hold, if_neg (Int64.not_lt.mpr (hall g List.mem_cons_self)),
      ih fun g' hg' => hall g' (List.mem_cons_of_mem _ hg'), List.cons_append]

/-- Jobs that are held until the same time stand in the order in which they came. -/
theorem filter_held_ofJobs (js : List QueuedJob) (due : Int64) :
    (ofJobs js).held.filter (·.due = due) =
      ((js.filter (·.lane = .held)).map QueuedJob.heldJob).filter (·.due = due) := by
  induction js using List.reverseRecOn with
  | nil => rfl
  | append_singleton js j ih =>
    rw [ofJobs_concat, held_push, List.filter_append, List.map_append, List.filter_append, ← ih]
    split
    · next hj =>
      rw [filter_hold _ (rising_held_ofJobs js)]
      by_cases hdue : j.heldJob.due = due
      · have hlast : ∀ g ∈ (ofJobs js).held.filter (·.due = due), g.due ≤ j.heldJob.due :=
          fun g hg => by
            rw [hdue, of_decide_eq_true (List.mem_filter.mp hg).2]
            exact Int64.le_refl _
        simp [hj, hdue, hold_eq_append hlast]
      · simp [hj, hdue]
    · next hj => simp [hj]

end Lanes

namespace Queue

/-- In `q'` the jobs of `q` stand as before, and the jobs `back` behind them: last in their lane,
or, if they are held, behind those that are due no later. -/
structure Followed (q : Queue) (back : List QueuedJob) (q' : Queue) : Prop where
  toList : q'.toList = q.toList ++ back
  ids : ∀ lane, lane ≠ .held → q'.lanes.ids lane =
    q.lanes.ids lane ++ (back.filter (·.lane = lane)).map QueuedJob.uniqueId
  rising : Lanes.Rising q'.lanes.held
  held : ∀ due, q'.lanes.held.filter (·.due = due) = q.lanes.held.filter (·.due = due) ++
    ((back.filter (·.lane = .held)).map QueuedJob.heldJob).filter (·.due = due)

variable {q q' : Queue}

theorem Orderly.lanes_eq (h : q.Orderly) : q.lanes = .ofJobs q.toList := by
  obtain ⟨r, hr⟩ := h
  rw [hr.lanes_eq, hr.toList_eq]

theorem Orderly.nodup_toList (h : q.Orderly) : q.toList.Nodup := by
  obtain ⟨r, hr⟩ := h
  rw [hr.toList_eq]
  exact hr.nodup.of_map _

theorem Orderly.followed (h : q.Orderly) (h' : q'.Orderly) {back : List QueuedJob}
    (hlist : q'.toList = q.toList ++ back) : q.Followed back q' where
  toList := hlist
  ids lane hlane := by
    rw [h.lanes_eq, h'.lanes_eq, hlist, Lanes.ids_ofJobs _ hlane, Lanes.ids_ofJobs _ hlane,
      List.filter_append, List.map_append]
  rising := h'.lanes_eq ▸ Lanes.rising_held_ofJobs _
  held due := by
    rw [h.lanes_eq, h'.lanes_eq, hlist, Lanes.filter_held_ofJobs, Lanes.filter_held_ofJobs,
      List.filter_append, List.map_append, List.filter_append]

theorem toList_reinstate (q : Queue) (j : QueuedJob) :
    ∃ back, (q.reinstate j).2.toList = q.toList ++ back := by
  unfold reinstate
  split
  · exact ⟨[], (List.append_nil _).symm⟩
  · next hnew =>
    have hnone : q.jobs.get? j.uniqueId = none := Option.not_isSome_iff_eq_none.mp hnew
    refine ⟨[j], ?_⟩
    show ((q.jobs.insert j.uniqueId j).entries).map Prod.snd = _
    rw [Table.entries_insert_of_get?_eq_none hnone, List.map_append]
    rfl

end Queue

end JobBroker
