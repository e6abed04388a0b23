import JobBroker.Proofs.Engine.Run
import JobBroker.Store.Faulty
import JobBroker.Store.Memory

/-!
# Jobs are conserved

An engine keeps a live job in four places: under its key, under its handle, in a queue or among the
handles of a session. After every run the places agree, whatever the store has done.

* `conserved_run` : every live job is queued once or worked on by one connected session, and
  queues and sessions hold nothing else.
-/

namespace JobBroker

open Text (decimal)

namespace Engine

variable {σ : Type} {e : Engine σ}

/-- The places in which an engine keeps its live jobs agree. -/
structure Conserved (e : Engine σ) : Prop where
  key_eq : ∀ {k live}, e.live.find? k = some live → live.job.key = k
  /-- The two tables of live jobs are inverse to each other. -/
  keyOf?_eq_some_iff : ∀ {handle k}, e.live.keyOf? handle = some k ↔
    ∃ live, e.live.find? k = some live ∧ live.job.handle = handle
  queued_or_working : ∀ {k live}, e.live.find? k = some live →
    live.job.state = .queued ∧ live.worker = none ∨
      live.job.state = .working ∧ live.worker.isSome
  /-- The queue of a function holds the queued live jobs of that function, as they were let in. -/
  queued_iff : ∀ {f u q}, (e.workshop f).queue.find? u = some q ↔
    ∃ live, e.live.find? ⟨f, u⟩ = some live ∧ live.job.state = .queued ∧ live.worker = none ∧
      live.job.summary = q
  /-- A queued job stands in one lane, once, and the lanes hold nothing else. -/
  count_ids : ∀ f u lane, ((e.workshop f).queue.lanes.ids lane).count u =
    if ((e.workshop f).queue.find? u).map QueuedJob.lane = some lane then 1 else 0
  working_iff : ∀ {k live}, e.live.find? k = some live → ∀ id,
    live.job.state = .working ∧ live.worker = some id ↔
      id ∈ e.connected ∧ live.job.handle ∈ e.assigned id
  /-- A session works on live jobs only. -/
  live_of_assigned : ∀ {id handle}, handle ∈ e.assigned id →
    ∃ live, e.live.ofHandle? handle = some live ∧ live.job.handle = handle ∧
      live.job.state = .working ∧ live.worker = some id
  disjoint : ∀ {id id'}, id ≠ id' → (e.assigned id).Disjoint (e.assigned id')

theorem InOrder.conserved (he : e.InOrder) : e.Conserved where
  key_eq := fun h => he.consistent.key_eq h
  keyOf?_eq_some_iff := fun {handle k} =>
    ⟨he.consistent.jobs_of_keys, fun ⟨_, hlive, hh⟩ => hh ▸ he.consistent.keys_handle hlive⟩
  queued_or_working := by
    intro k live h
    rw [he.consistent.state_eq h]
    cases live.worker <;> simp
  queued_iff := by
    intro f u q
    have hq : (e.workshop f).queue.find? u = _ := he.consistent.queued_eq ⟨f, u⟩
    rw [hq, Option.bind_eq_some_iff]
    refine exists_congr fun live => and_congr_right fun hlive => ?_
    rw [he.consistent.queued_iff hlive]
    cases live.worker <;> simp
  count_ids := fun f u lane => (he.keeps.inOrder f).count_ids u lane
  working_iff := by
    intro k live h id
    have hm : live.job.handle ∈ e.assigned id ↔ _ := he.consistent.mem_assigned h
    rw [he.consistent.working_iff h, hm]
    constructor
    · rintro ⟨-, hw⟩
      refine ⟨?_, hw⟩
      by_contra hid
      rw [he.keeps.idle id hid] at hm
      exact absurd (hm.mpr hw) (by simp)
    · exact fun ⟨_, hw⟩ => ⟨⟨id, hw⟩, hw⟩
  live_of_assigned := by
    intro id handle h
    obtain ⟨k, live, hlive, rfl, hw⟩ := he.consistent.assigned_iff.mp h
    have hkey : e.live.keyOf? live.job.handle = some k := he.consistent.keys_handle hlive
    have hfind : e.live.find? k = some live := hlive
    refine ⟨live, ?_, rfl, (he.consistent.working_iff hlive).mpr ⟨id, hw⟩, hw⟩
    rw [LiveJobs.ofHandle?, hkey, Option.bind_eq_bind, Option.bind_some, hfind]
  disjoint := by
    intro id id' hne handle h h'
    obtain ⟨k, live, hlive, rfl, hw⟩ := he.consistent.assigned_iff.mp h
    exact hne (Option.some.inj (hw.symm.trans ((he.consistent.mem_assigned hlive).mp h')))

variable [JobStore σ]

theorem conserved_run (settings : EngineSettings) (store : σ) (now : Int64) (newId : Nat → String)
    (isLinked : Bool) (as : List (Action σ))
    (h : (start settings store now newId isLinked).IsRun as) :
    ((start settings store now newId isLinked).run as).Conserved :=
  (h.inOrder (start_inOrder settings store now newId isLinked)).conserved

/-- A worker leaves a job, which is queued again; another finds the record of a second job lost, and
then is handed a third. -/
theorem conserved_run_lost_record :
    ∃ as : List (Action (FaultyStore MemoryStore)),
      (start .default ⟨.empty, .none⟩ 0 decimal true).IsRun as ∧
        ((start .default ⟨.empty, .none⟩ 0 decimal true).run as).assigned 1 = ["H:localhost:3"] ∧
        (((start .default ⟨.empty, .none⟩ 0 decimal true).run as).live.find? ⟨"f", "u"⟩).isSome ∧
        ((start .default ⟨.empty, .none⟩ 0 decimal true).run as).Conserved := by
  refine ⟨[.arrive "1.1.1.1:1", .arrive "1.1.1.1:2", .connect 0, .connect 1, .canDo 0 "f" none,
    .submit (.new "f" "u" []) (some 1), .submit (.new "f" "v" []) none,
    .submit (.new "f" "w" []) none, .grab 0, .disconnect 0, .canDo 1 "f" none,
    .alterStore fun s => { s with faults := { s.faults with
      find := fun k => if k.uniqueId = "v" then some .decline else none } },
    .grab 1, .grab 1], ?_, ?_, ?_, conserved_run .default _ 0 decimal true _ ?_⟩ <;> decide +kernel

end Engine

end JobBroker
