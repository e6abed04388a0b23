import JobBroker.Engine.Statistics
import JobBroker.Proofs.Engine.Filed
import JobBroker.Proofs.Text.Order
import Mathlib.Algebra.BigOperators.Group.Finset.Basic
import Mathlib.Algebra.Ring.Nat

/-!
# Statistics are exact

The numbers an operator sees are kept beside the jobs and the sessions, in the counters of the
queues and in the crews. They are the numbers of the live jobs and of the connected sessions.

* `workers_eq_countP`, `queued_perm` : a crew and a queue, counted.
* `sum_countP_eq_length` : what is counted by names is counted once.
* `LegalRun.mirrored` : so it is after every run.
-/

namespace JobBroker

open Text

theorem Table.mem_values {κ α : Type} [DecidableEq κ] {t : Table κ α} {a : α} :
    a ∈ t.values ↔ ∃ k, t.get? k = some a := by
  simp [values, get?_eq_some_iff]

/-- When each element has one of some distinct names, counting under each name counts them all. -/
theorem sum_countP_eq_length {α : Type} (name : α → String) {names : List String}
    (hnodup : names.Nodup) {as : List α} (h : ∀ a ∈ as, name a ∈ names) :
    (names.map fun n => as.countP (name · = n)).sum = as.length := by
  have hcount : ∀ n, as.countP (name · = n) = (as.map name).count n := fun n => by
    rw [List.count_eq_countP, List.countP_map]
    rfl
  have hnames : ∀ n ∈ (as.map name : Multiset String), n ∈ names.toFinset := by
    simpa using h
  simp only [hcount]
  rw [← List.sum_toFinset _ hnodup]
  simpa using Multiset.sum_count_eq_card hnames

namespace Engine

variable {σ : Type} {e : Engine σ} {f : String}

/-! ### Jobs -/

theorem mem_live_iff (he : e.Filed) {live : LiveJob} :
    live ∈ e.live.toList ↔ e.live.find? live.job.key = some live := by
  refine Table.mem_values.trans ⟨fun ⟨k, hk⟩ => ?_, fun h => ⟨_, h⟩⟩
  have hkey : live.job.key = k := he.key_eq hk
  exact hkey ▸ hk

theorem nodup_live (he : e.Filed) : (e.live.toList.map (·.job.key)).Nodup := by
  have hkeys : e.live.toList.map (·.job.key) = e.live.jobs.keys := by
    rw [LiveJobs.toList, Table.values, Table.keys, List.map_map]
    refine List.map_congr_left fun entry hentry => ?_
    exact he.key_eq (Table.get?_eq_some_iff.mpr hentry)
  exact hkeys ▸ e.live.jobs.nodup

/-- The queue of a function holds its live jobs that are queued, in some order. -/
theorem queued_perm (he : e.Filed) (hqueue : (e.workshop f).queue.Orderly) :
    (e.workshop f).queue.toList.Perm ((e.live.toList.filter fun l =>
      l.job.functionName = f ∧ l.job.state = .queued).map (·.job.summary)) := by
  have hlist : (e.workshop f).queue.toList.Nodup := by
    obtain ⟨r, hr⟩ := hqueue
    rw [hr.toList_eq]
    exact hr.nodup.of_map _
  have hlive : ((e.live.toList.filter fun l =>
      l.job.functionName = f ∧ l.job.state = .queued).map (·.job.summary)).Nodup := by
    refine List.Nodup.of_map QueuedJob.key ?_
    rw [List.map_map]
    exact ((List.filter_sublist).map _).nodup (nodup_live he)
  refine (List.perm_ext_iff_of_nodup hlist hlive).mpr fun j => ?_
  rw [he.mem_toList_iff hqueue, LiveJobs.waiting_eq_some_iff]
  simp only [List.mem_map, List.mem_filter, decide_eq_true_eq, mem_live_iff he]
  constructor
  · rintro ⟨live, hfind, hstate, rfl⟩
    have hkey : live.job.key = ⟨f, live.job.uniqueId⟩ := he.key_eq hfind
    exact ⟨live, ⟨hkey ▸ hfind, congrArg JobKey.functionName hkey, hstate⟩, rfl⟩
  · rintro ⟨live, ⟨hfind, rfl, hstate⟩, rfl⟩
    exact ⟨live, hfind, hstate, rfl⟩

/-! ### Workers -/

theorem mem_connectedSessions {i : SessionId} {s : Session} :
    (i, s) ∈ e.connectedSessions ↔ e.session? i = some s ∧ i ∈ e.connected := by
  simp [connectedSessions, session?, Table.get?_eq_some_iff]

/-- The crew of a function is as large as the number of connected sessions that can do it. -/
theorem workers_eq_countP (he : e.Crewed) (f : String) :
    (e.workshop f).crew.workers.length = e.connectedSessions.countP (·.2.canDo f) := by
  have hcount : e.connectedSessions.countP (·.2.canDo f) =
      ((e.connectedSessions.filter (·.2.canDo f)).map Prod.fst).length := by
    rw [List.length_map, List.countP_eq_length_filter]
  rw [hcount]
  refine ((List.perm_ext_iff_of_nodup (he.nodup_workers f) ?_).mpr fun i => ?_).length_eq
  · exact ((List.filter_sublist.trans List.filter_sublist).map _).nodup e.sessions.nodup
  · rw [he.mem_workers]
    constructor
    · intro hf
      obtain ⟨s, hs⟩ := Option.isSome_iff_exists.mp
        (he.isSome_of_connected (he.connected_of_able hf))
      refine List.mem_map.mpr ⟨(i, s), List.mem_filter.mpr ⟨?_, ?_⟩, rfl⟩
      · exact mem_connectedSessions.mpr ⟨hs, he.connected_of_able hf⟩
      · rw [abilities, hs] at hf
        exact List.contains_iff_mem.mpr hf
    · intro hi
      obtain ⟨⟨i, s⟩, hmem, rfl⟩ := List.mem_map.mp hi
      obtain ⟨hconnected, hcan⟩ := List.mem_filter.mp hmem
      rw [abilities, (mem_connectedSessions.mp hconnected).1]
      exact List.contains_iff_mem.mp hcan

/-! ### Rows -/

/-- How many live jobs of a function have a property. -/
def countLive (e : Engine σ) (f : String) (p : Job → Prop) [DecidablePred p] : Nat :=
  e.live.toList.countP fun l => l.job.functionName = f ∧ p l.job

/-- A row of the statistics tells the numbers of its function. -/
structure Exact (e : Engine σ) (row : Statistics) : Prop where
  queued : row.queued = e.countLive row.functionName (·.state = .queued)
  high : row.high =
    e.countLive row.functionName fun j => j.state = .queued ∧ j.priority = .high
  normal : row.normal =
    e.countLive row.functionName fun j => j.state = .queued ∧ j.priority = .normal
  low : row.low =
    e.countLive row.functionName fun j => j.state = .queued ∧ j.priority = .low
  running : row.running = e.countLive row.functionName (·.state = .working)
  workers : row.workers = e.connectedSessions.countP (·.2.canDo row.functionName)

theorem size_eq_countLive (he : e.Filed) (hqueue : (e.workshop f).queue.Orderly) :
    (e.workshop f).queue.size = e.countLive f (·.state = .queued) := by
  have hperm := queued_perm he hqueue
  obtain ⟨r, hr⟩ := hqueue
  rw [hr.size_eq, hperm.length_eq, List.length_map, countLive, List.countP_eq_length_filter]

theorem count_eq_countLive (he : e.Filed) (hqueue : (e.workshop f).queue.Orderly)
    (p : Priority) : (e.workshop f).queue.count p =
      e.countLive f fun j => j.state = .queued ∧ j.priority = p := by
  have hperm := queued_perm he hqueue
  obtain ⟨r, hr⟩ := hqueue
  rw [hr.count_eq, hperm.countP_eq, List.countP_map, List.countP_filter]
  refine List.countP_congr fun l _ => ?_
  simp [Job.summary, and_comm, and_assoc]

/-- A live job is queued or worked on. -/
theorem countLive_add_countLive (he : e.Filed) (f : String) :
    e.countLive f (·.state = .queued) + e.countLive f (·.state = .working) =
      e.live.toList.countP (·.job.functionName = f) := by
  rw [List.countP_eq_countP_filter_add _ _ (·.job.state = .queued), List.countP_filter,
    List.countP_filter]
  refine congrArg₂ (· + ·) (List.countP_congr fun l _ => by simp) ?_
  refine List.countP_congr fun l hl => ?_
  rcases he.state ((mem_live_iff he).mp hl) with h | h <;> simp [h]

theorem mem_statistics {row : Statistics} : row ∈ e.statistics ↔
    ∃ f w, e.workshop? f = some w ∧ row =
      { functionName := f, queued := w.queue.size, high := w.queue.count .high,
        normal := w.queue.count .normal, low := w.queue.count .low, running := e.running f,
        workers := w.crew.workers.length, sleeping := w.crew.sleepers.length,
        maxQueue := w.queue.maxSize } := by
  simp only [statistics, List.mem_map, (sortBy_perm _).mem_iff, sortOn, Prod.exists,
    ← Table.get?_eq_some_iff, workshop?, eq_comm]

theorem exact_of_mem (he : e.Filed) (hcrew : e.Crewed) (htended : e.watch.Tended)
    {row : Statistics} (hrow : row ∈ e.statistics) : e.Exact row := by
  obtain ⟨f, w, hw, rfl⟩ := mem_statistics.mp hrow
  obtain rfl : e.workshop f = w := by rw [workshop, hw, Option.getD_some]
  have hqueue : (e.workshop f).queue.Orderly := htended.orderly f
  exact ⟨size_eq_countLive he hqueue, count_eq_countLive he hqueue .high,
    count_eq_countLive he hqueue .normal, count_eq_countLive he hqueue .low, rfl,
    workers_eq_countP hcrew f⟩

theorem map_functionName (e : Engine σ) :
    e.statistics.map (·.functionName) = (sortOn Prod.fst e.workshops.entries).map Prod.fst := by
  rw [statistics, List.map_map]
  rfl

theorem nodup_functionName (e : Engine σ) : (e.statistics.map (·.functionName)).Nodup := by
  rw [map_functionName]
  exact ((sortBy_perm _).map _).nodup_iff.mpr e.workshops.nodup

theorem mem_map_functionName : f ∈ e.statistics.map (·.functionName) ↔ (e.workshop? f).isSome := by
  have hperm : (sortOn Prod.fst e.workshops.entries).Perm e.workshops.entries := sortBy_perm _
  rw [map_functionName, (hperm.map _).mem_iff, Option.isSome_iff_exists]
  exact Table.mem_keys

/-- The rows rise in the octets of the names. -/
theorem rising_functionName (e : Engine σ) :
    (e.statistics.map (·.functionName)).Pairwise fun f g => Utf8.encode f < Utf8.encode g := by
  have hle : (e.statistics.map (·.functionName)).Pairwise
      fun f g => Utf8.encode f ≤ Utf8.encode g := by
    rw [map_functionName]
    exact List.pairwise_map.mpr (pairwise_sortOn Prod.fst _)
  refine (hle.and (nodup_functionName e)).imp fun h => ?_
  exact Std.lt_of_le_of_ne h.1 fun heq => h.2 (Utf8.encode_injective heq)

/-- Each live job is counted in the row of its function. -/
theorem sum_statistics (he : e.Filed) (hexact : ∀ row ∈ e.statistics, e.Exact row) :
    (e.statistics.map fun row => row.queued + row.running).sum = e.live.size := by
  have hrow : ∀ row ∈ e.statistics, row.queued + row.running =
      e.live.toList.countP (·.job.functionName = row.functionName) := fun row hrow => by
    rw [(hexact row hrow).queued, (hexact row hrow).running, countLive_add_countLive he]
  have hnames : ∀ l ∈ e.live.toList, l.job.functionName ∈ e.statistics.map (·.functionName) :=
    fun l hl => mem_map_functionName.mpr
      (he.known (k := l.job.key) (Option.isSome_of_eq_some ((mem_live_iff he).mp hl)))
  have hsum := sum_countP_eq_length (fun l : LiveJob => l.job.functionName)
    (nodup_functionName e) hnames
  rw [List.map_map] at hsum
  rw [List.map_congr_left hrow]
  exact hsum.trans (List.length_map ..)

/-! ### Runs -/

/-- What the workshops note of sessions and jobs is as it is with the sessions and the jobs. -/
structure Mirrored (e : Engine σ) : Prop where
  mem_workers : ∀ f id, id ∈ (e.workshop f).crew.workers ↔
    id ∈ e.connected ∧ f ∈ e.abilities id
  worker_of_sleeper : ∀ f id, id ∈ (e.workshop f).crew.sleepers → id ∈ (e.workshop f).crew.workers
  nodup_abilities : ∀ id, (e.abilities id).Nodup
  rising : (e.statistics.map (·.functionName)).Pairwise fun f g => Utf8.encode f < Utf8.encode g
  mem_iff : ∀ f, f ∈ e.statistics.map (·.functionName) ↔ (e.workshop? f).isSome
  exact : ∀ row ∈ e.statistics, e.Exact row
  size_live : e.live.size = (e.statistics.map fun row => row.queued + row.running).sum

theorem Mirrored.of_filed (he : e.Filed) (hcrew : e.Crewed) (htended : e.watch.Tended) :
    e.Mirrored := by
  have hexact : ∀ row ∈ e.statistics, e.Exact row := fun row => exact_of_mem he hcrew htended
  refine ⟨fun f id => ?_, fun f id h => ?_, hcrew.nodup_abilities, rising_functionName e,
    fun f => mem_map_functionName, hexact, (sum_statistics he hexact).symm⟩
  · exact hcrew.mem_workers.trans
      ⟨fun h => ⟨hcrew.connected_of_able h, h⟩, And.right⟩
  · exact hcrew.mem_workers.mpr (htended.able_of_listed h)

/-- After every run the crews mirror the sessions, and the statistics are exact. -/
theorem LegalRun.mirrored [JobStore σ] (settings : EngineSettings) (store : σ) (now : Int64)
    (newId : Nat → String) (isLinked : Bool) {as : List (Action σ)}
    (h : (start settings store now newId isLinked).LegalRun as) :
    ((start settings store now newId isLinked).run as).Mirrored := by
  have htended := (unmanned_start settings store now newId isLinked).wakeful.toTended
  exact .of_filed ((Filed.start settings store now newId isLinked).run as)
    ((Crewed.start settings store now newId isLinked).run htended h) (tended_run htended as)

/-- Of three workers one has gone and one has a job; of the other jobs one is held and one has been
removed. -/
theorem LegalRun.mirrored_two_functions :
    let as : List (Action MemoryStore) :=
      [.arrive "1.1.1.1:1", .connect 0, .arrive "1.1.1.1:2", .connect 1, .arrive "1.1.1.1:3",
        .connect 2, .canDo 0 "g" none, .canDo 0 "f" (some 9), .canDo 1 "f" none, .canDo 0 "g" none,
        .canDo 2 "f" none, .sleep 1, .submit (.new "g" "a" []) none,
        .submit { Job.new "f" "b" [] with priority := .low } none,
        .submit { Job.new "f" "c" [] with timeToRun := 100 } none, .grab 0, .sleep 1,
        .disconnect 2, .wake 1, .remove "H:localhost:3"]
    let e := (start .default MemoryStore.empty 0 decimal false).run as
    (start .default MemoryStore.empty 0 decimal false).LegalRun as ∧ e.Mirrored ∧
      e.statistics.map (fun row => (row.functionName, row.queued, row.running, row.workers)) =
        [("f", 1, 0, 2), ("g", 0, 1, 1)] ∧ e.live.size = 2 := by
  intro as e
  have h : (start .default MemoryStore.empty 0 decimal false).LegalRun as := by decide +kernel
  exact ⟨h, LegalRun.mirrored .default MemoryStore.empty 0 decimal false h, by decide +kernel,
    by decide +kernel⟩

end Engine

end JobBroker
