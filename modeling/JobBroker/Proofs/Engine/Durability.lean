import JobBroker.Proofs.Engine.Core
import JobBroker.Proofs.Engine.Run
import JobBroker.Proofs.Store.Records

/-!
# Live jobs are on record

A job is written to the store before it is let in, and its record is deleted when it ends. So every
live job can be read back from the store, as it was let in, whichever calls of the store fail and
whether the actions are legal or not.

* `Core.Sound` : the invariant. `Core.Sound.admission`, `Core.Sound.shift` : what happens to a core
  keeps it.
* `durable_run` : after every run, whatever a store with faults has done to it, each live job has
  its record; there are no other records unless a find or a delete has gone wrong.
-/

namespace JobBroker

open Text (decimal)

open Function (update update_apply)
open Relation (ReflTransGen)
open RecordStore (record? hasErred)

variable {σ : Type} [JobStore σ]

/-! ### Records of jobs -/

/-- The store keeps the jobs that `held` says, as they were before anybody worked on them. Calls
that have gone wrong may have left records of other jobs behind. -/
structure Keeping [RecordStore σ] (held : JobKey → Option Job) (s : σ) : Prop where
  record_of_held : ∀ {k j}, held k = some j → record? s k = some j
  key_eq : ∀ {k j}, record? s k = some j → j.key = k
  renewed_eq : ∀ {k j}, record? s k = some j → j.renewed = j
  eq_of_not_hasErred : ¬ hasErred s → record? s = held

namespace Keeping

variable [RecordStore σ] {held : JobKey → Option Job} {s s' : σ} {k : JobKey} {j : Job}

/-- A store with the same records that has erred no less. -/
theorem congr (h : Keeping held s) (hrecords : record? s' = record? s)
    (herred : hasErred s → hasErred s') : Keeping held s' where
  record_of_held := fun hk => hrecords ▸ h.record_of_held hk
  key_eq := fun hk => h.key_eq (hrecords ▸ hk)
  renewed_eq := fun hk => h.renewed_eq (hrecords ▸ hk)
  eq_of_not_hasErred := fun hn => hrecords.trans (h.eq_of_not_hasErred fun he => hn (herred he))

theorem find (h : Keeping held s) {reply : Except JobError (Option Job)}
    (hfind : JobStore.find k s = (reply, s')) : Keeping held s' :=
  h.congr (RecordStore.record?_find hfind) (RecordStore.hasErred_find hfind)

/-- What is held under one key changes, and so does the record. -/
theorem update (h : Keeping held s) {x : Option Job}
    (hx : ∀ j, x = some j → j.key = k ∧ j.renewed = j)
    (hrecords : record? s' = Function.update (record? s) k x)
    (herred : hasErred s → hasErred s') : Keeping (Function.update held k x) s' := by
  have hcases : ∀ {k' i}, record? s' k' = some i →
      k' = k ∧ x = some i ∨ record? s k' = some i := by
    intro k' i hk
    rw [hrecords, update_apply] at hk
    split at hk
    · next h => exact .inl ⟨h, hk⟩
    · exact .inr hk
  exact {
    record_of_held := by
      intro k' i hk
      rw [hrecords, update_apply]
      rw [update_apply] at hk
      split at hk
      · next hkk => rw [if_pos hkk, hk]
      · next hkk => rw [if_neg hkk, h.record_of_held hk]
    key_eq := fun hk => (hcases hk).elim (fun ⟨hkk, hi⟩ => hkk ▸ (hx _ hi).1) h.key_eq
    renewed_eq := fun hk => (hcases hk).elim (fun ⟨_, hi⟩ => (hx _ hi).2) h.renewed_eq
    eq_of_not_hasErred := fun hn => by
      rw [hrecords, h.eq_of_not_hasErred fun he => hn (herred he)] }

theorem write (h : Keeping held s) (hj : j.renewed = j)
    (hwrite : JobStore.write j s = (.ok true, s')) :
    Keeping (Function.update held j.key (some j)) s' :=
  h.update (fun _ hi => Option.some.inj hi ▸ ⟨rfl, hj⟩) (RecordStore.record?_write hwrite)
    (RecordStore.hasErred_write hwrite)

/-- What is held under one key changes, to what the record says or, if calls have gone wrong, to
nothing. -/
theorem amend (h : Keeping held s) {x : Option Job} (hx : ∀ j, x = some j → record? s k = some j)
    (hk : record? s k = x ∨ hasErred s) : Keeping (Function.update held k x) s where
  record_of_held := by
    intro k' j hheld
    rw [update_apply] at hheld
    split at hheld
    · next hkk => exact hkk ▸ hx j hheld
    · exact h.record_of_held hheld
  key_eq := h.key_eq
  renewed_eq := h.renewed_eq
  eq_of_not_hasErred := fun hn => by
    rw [h.eq_of_not_hasErred hn] at hk ⊢
    exact (Function.update_eq_self_iff.mpr (hk.resolve_right hn).symm).symm

theorem delete (h : Keeping held s) (k : JobKey) :
    Keeping (Function.update held k none) (JobStore.delete k s).2 := by
  rcases RecordStore.record?_delete k s with hrecords | ⟨hrecords, herred⟩
  · exact h.update (by simp) hrecords (RecordStore.hasErred_delete k s)
  · exact (h.congr hrecords fun _ => herred).amend (by simp) (.inr herred)

end Keeping

namespace LiveJobs

/-- The live jobs, as they were before anybody worked on them. -/
def held (l : LiveJobs) (k : JobKey) : Option Job := (l.find? k).map (·.job.renewed)

theorem held_eq_some {l : LiveJobs} {k : JobKey} {live : LiveJob} (h : l.find? k = some live) :
    l.held k = some live.job.renewed := by
  rw [held, h]
  rfl

theorem held_erase (l : LiveJobs) (k : JobKey) : (l.erase k).held = update l.held k none := by
  funext k'
  simp only [held, find?_erase_eq, update_apply]
  split <;> rfl

theorem held_insert (l : LiveJobs) (j : Job) (w : Option SessionId) :
    (l.insert j w).held = update l.held j.key (some j.renewed) := by
  funext k'
  simp only [held, find?_insert_eq, update_apply]
  split <;> rfl

/-- Work on a job does not show in what is held of it. -/
theorem held_modify {l : LiveJobs} {k : JobKey} {f : LiveJob → LiveJob}
    (hf : ∀ live, l.find? k = some live → (f live).job.renewed = live.job.renewed) :
    (l.modify k f).held = l.held := by
  funext k'
  simp only [held, find?_modify]
  split
  · next hk =>
    subst hk
    cases hl : l.find? k with
    | none => rfl
    | some live => exact congrArg some (hf live hl)
  · rfl

end LiveJobs

/-! ### What happens to a core -/

theorem Queue.find?_accept_cases {q : Queue} {j i : QueuedJob} {u : String}
    (h : (q.accept j).find? u = some i) : q.find? u = some i ∨ i.functionName = j.functionName := by
  rw [find?_accept] at h
  split at h
  · exact .inr (Option.some.inj h ▸ rfl)
  · exact .inl h

namespace Core

/-- Every live job is on record, and each queue is that of its function and holds jobs of it. -/
structure Sound [RecordStore σ] (c : Core σ) : Prop where
  keeping : Keeping c.live.held c.store
  functionName : ∀ f, (c.queues f).functionName = f
  ofFunction : ∀ {f u j}, (c.queues f).find? u = some j → j.functionName = f

variable [RecordStore σ] {c c' : Core σ}

/-- A change of one queue that lets no job of another function in. -/
theorem Sound.withQueue (hc : c.Sound) {f : String} {q : Queue}
    (hname : q.functionName = (c.queues f).functionName)
    (hjobs : ∀ {u j}, q.find? u = some j → (c.queues f).find? u = some j ∨ j.functionName = f)
    {live : LiveJobs} {store : σ} (hkeeping : Keeping live.held store) (handles : HandleFactory) :
    Sound ⟨live, update c.queues f q, store, handles⟩ where
  keeping := hkeeping
  functionName := by
    intro f'
    show (update c.queues f q f').functionName = f'
    rw [update_apply]
    split
    · next h => rw [hname, hc.functionName, h]
    · exact hc.functionName f'
  ofFunction := by
    intro f' u j hj
    have hj : (update c.queues f q f').find? u = some j := hj
    rw [update_apply] at hj
    split at hj
    · next h => exact h ▸ (hjobs hj).elim hc.ofFunction id
    · exact hc.ofFunction hj

theorem Sound.admission (hc : c.Sound) (h : c.Admission c') : c'.Sound := by
  cases h with
  | refused hstore =>
    refine ⟨?_, hc.functionName, hc.ofFunction⟩
    rcases hstore with rfl | ⟨reply, hwrite, hne⟩
    · exact hc.keeping
    · exact hc.keeping.congr (RecordStore.record?_write_of_ne hwrite hne)
        (RecordStore.hasErred_write hwrite)
  | @letIn j store hnew hhandle hj hwrite =>
    refine hc.withQueue (q := (c.queues j.functionName).accept j.summary) rfl
      Queue.find?_accept_cases ?_ _
    rw [LiveJobs.held_insert, hj]
    exact hc.keeping.write hj hwrite

/-- A queued job is looked up in the store under its own key. -/
theorem Sound.key_of_yields (hc : c.Sound) {f u : String} {j : QueuedJob} {q : Queue}
    (hq : (c.queues f).Yields u j q) : (⟨q.functionName, j.uniqueId⟩ : JobKey) = j.key := by
  rw [hq.functionName, hc.functionName, ← hc.ofFunction hq.find?]
  rfl

theorem Sound.shift (hc : c.Sound) (h : c.Shift c') : c'.Sound := by
  cases h with
  | adjust hname hjobs =>
    exact hc.withQueue hname (fun {u i} hi => .inl (by rwa [Queue.find?, hjobs] at hi))
      hc.keeping _
  | lose hq hfind hlost =>
    -- a record that is missed although it is there stays behind: that find has gone wrong
    refine hc.withQueue hq.functionName (fun hi => .inl (hq.find?_of_find? hi)) ?_ _
    rw [hc.key_of_yields hq] at hfind
    rw [LiveJobs.held_erase]
    refine (hc.keeping.find hfind).amend (by simp) ?_
    rw [RecordStore.record?_find hfind]
    exact RecordStore.hasErred_of_find hfind hlost
  | hand hq hfind hlive =>
    refine hc.withQueue hq.functionName (fun hi => .inl (hq.find?_of_find? hi)) ?_ _
    rw [LiveJobs.held_modify fun l hl => by rw [Option.some.inj (hlive.symm.trans hl)]; rfl]
    exact hc.keeping.find hfind
  | @adopt f u j q record store id hq hfind hlive =>
    refine hc.withQueue hq.functionName (fun hi => .inl (hq.find?_of_find? hi)) ?_ _
    -- a record that was left behind is what the job is taken up from
    have hkeeping := hc.keeping.find hfind
    have hrecord : record? store _ = some record :=
      RecordStore.record?_find hfind ▸ RecordStore.record?_of_find hfind
    rw [← hkeeping.key_eq hrecord] at hrecord
    rw [LiveJobs.held_insert]
    refine hkeeping.amend (fun i hi => ?_) (.inl ?_)
    · rw [← Option.some.inj hi]
      exact hrecord.trans (congrArg some (hkeeping.renewed_eq hrecord).symm)
    · exact hrecord.trans (congrArg some (hkeeping.renewed_eq hrecord).symm)
  | @requeue k live hlive =>
    have hname : live.job.functionName = k.functionName := congrArg JobKey.functionName <|
      hc.keeping.key_eq (hc.keeping.record_of_held (LiveJobs.held_eq_some hlive))
    have hjobs : ∀ {u j}, ((c.queues k.functionName).reinstate live.job.renewed.summary).2.find? u =
        some j → (c.queues k.functionName).find? u = some j ∨ j.functionName = k.functionName := by
      intro u j hj
      unfold Queue.reinstate at hj
      split at hj
      · exact .inl hj
      · exact (Queue.find?_accept_cases hj).imp_right fun h => h.trans hname
    refine hc.withQueue ?_ hjobs ?_ _
    · unfold Queue.reinstate
      split <;> rfl
    · rw [LiveJobs.held_modify]
      · exact hc.keeping
      · exact fun _ _ => rfl
  | advance =>
    refine ⟨?_, hc.functionName, hc.ofFunction⟩
    rw [LiveJobs.held_modify]
    · exact hc.keeping
    · exact fun _ _ => rfl
  | finish hlive _ =>
    refine ⟨?_, hc.functionName, hc.ofFunction⟩
    rw [LiveJobs.held_erase]
    exact hc.keeping.delete _
  | remove hq =>
    refine hc.withQueue hq.functionName (fun hi => .inl (hq.find?_of_find? hi)) ?_ _
    rw [LiveJobs.held_erase]
    exact hc.keeping.delete _

theorem Sound.shifts (hc : c.Sound) (h : ReflTransGen Shift c c') : c'.Sound := by
  induction h with
  | refl => exact hc
  | tail _ hs ih => exact ih.shift hs

/-- Nothing is written to the store after a job was let in. -/
theorem Shift.record_of_record {k : JobKey} {j : Job} (h : c.Shift c')
    (hr : record? c'.store k = some j) : record? c.store k = some j := by
  have hdelete : ∀ k', record? (JobStore.delete k' c.store).2 k = some j →
      record? c.store k = some j := by
    intro k' hr
    rcases RecordStore.record?_delete k' c.store with h | ⟨h, -⟩
    · rw [h, update_apply] at hr
      split at hr
      · exact absurd hr (by simp)
      · exact hr
    · exact h ▸ hr
  cases h with
  | lose _ hfind _ | hand _ hfind _ | adopt _ hfind _ => exact RecordStore.record?_find hfind ▸ hr
  | finish _ _ | remove _ => exact hdelete _ hr
  | _ => exact hr

theorem record_of_shifts {k : JobKey} {j : Job} (h : ReflTransGen Shift c c')
    (hr : record? c'.store k = some j) : record? c.store k = some j := by
  induction h with
  | refl => exact hr
  | tail _ h ih => exact ih (h.record_of_record hr)

end Core

/-! ### Runs -/

namespace Engine

variable [RecordStore σ] {e : Engine σ}

theorem sound_act (he : e.core.Sound) {a : Action σ} (ha : ∀ change, a ≠ .alterStore change) :
    (e.act a).core.Sound :=
  (core_act e ha).elim he.admission he.shifts

theorem sound_run (he : e.core.Sound) {as : List (Action σ)}
    (has : ∀ change, .alterStore change ∉ as) : (e.run as).core.Sound := by
  induction as generalizing e with
  | nil => exact he
  | cons a as ih =>
    have ha : ∀ change, a ≠ .alterStore change := fun change h =>
      has change (h ▸ List.mem_cons_self)
    exact ih (sound_act he ha) fun change h => has change (List.mem_cons_of_mem a h)

/-- An engine that starts over a store without records. -/
theorem sound_start (settings : EngineSettings) (store : σ) (hstore : ∀ k, record? store k = none)
    (now : Int64) (newId : Nat → String) (isLinked : Bool) :
    (start settings store now newId isLinked).core.Sound where
  keeping := {
    record_of_held := fun h => absurd h (by simp [core, start, new, LiveJobs.held, LiveJobs.find?,
      LiveJobs.empty])
    key_eq := fun h => absurd ((hstore _).symm.trans h) (by simp)
    renewed_eq := fun h => absurd ((hstore _).symm.trans h) (by simp)
    eq_of_not_hasErred := fun _ => funext hstore }
  functionName := fun _ => rfl
  ofFunction := fun h => absurd h (by simp [core, start, new, workshop, workshop?, Workshop.new,
      Queue.new, Queue.find?])

/-- Every live job has its record: the store gives it back as it was let in. -/
structure Durable (e : Engine σ) : Prop where
  record_of_live : ∀ {k live}, e.live.find? k = some live →
    record? e.store k = some live.job.renewed
  live_of_record : ¬ hasErred e.store → ∀ {k j}, record? e.store k = some j →
    ∃ live, e.live.find? k = some live ∧ live.job.renewed = j

theorem durable_of_sound (he : e.core.Sound) : e.Durable where
  record_of_live := fun h => he.keeping.record_of_held (LiveJobs.held_eq_some h)
  live_of_record := by
    intro hn k j h
    have hheld : record? e.store = e.live.held := he.keeping.eq_of_not_hasErred hn
    rw [hheld] at h
    exact Option.map_eq_some_iff.mp h

/-- Whichever writes, finds and deletes fail, and how. -/
theorem durable_run (settings : EngineSettings) (plan : Nat → Option Fault) (now : Int64)
    (newId : Nat → String) (isLinked : Bool) (as : List (Action UnreliableStore))
    (has : ∀ change, .alterStore change ∉ as) :
    ((start settings (.new plan) now newId isLinked).run as).Durable :=
  durable_of_sound (sound_run (sound_start settings _ (fun _ => rfl) now newId isLinked) has)

/-- A write is refused, a delete leaves a record behind, and a find misses one; the third job keeps
its record. -/
theorem durable_run_left_behind :
    ∃ (plan : Nat → Option Fault) (as : List (Action UnreliableStore)),
      (∀ change, .alterStore change ∉ as) ∧
        (((start .default (.new plan) 0 decimal true).run as).live.find? ⟨"f", "w"⟩).isSome ∧
        ((start .default (.new plan) 0 decimal true).run as).live.find? ⟨"f", "u"⟩ = none ∧
        (((start .default (.new plan) 0 decimal true).run as).store.records.find?
          ⟨"f", "u"⟩).isSome ∧
        ((start .default (.new plan) 0 decimal true).run as).Durable := by
  refine ⟨fun n => if n = 1 ∨ n = 5 then some .refuse else if n = 6 then some .decline else none,
    [.arrive "1.1.1.1:1", .connect 0, .canDo 0 "f" none, .submit (.new "f" "u" []) (some 0),
      .submit (.new "f" "v" []) none, .submit (.new "f" "v" []) none,
      .submit (.new "f" "w" []) none, .grab 0, .finish "H:localhost:1" .fail, .grab 0],
    by simp, ?_, ?_, ?_, durable_run .default _ 0 decimal true _ (by simp)⟩ <;> decide +kernel

end Engine

end JobBroker
