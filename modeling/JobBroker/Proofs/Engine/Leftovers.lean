import JobBroker.Proofs.Engine.Holdings
import JobBroker.Proofs.Store.Faults
import Mathlib.Data.List.Induction

/-!
# Records that are left over

A job that ends is deleted from the store, in whatever way it ends, unless a grab gives it up
because the find of its record has failed. Such a record stays, and the next engine takes the job up
again.

* `Core.Shift.leftover` : what leaves a record over.
* `accounted_run` : each record is that of a live job, or of one that was given up in this way; and
  an engine that starts over the store hands out no other old jobs.
* `handed_after_end` : a job that its client was told has failed is handed out by the next engine.
-/

namespace JobBroker

open Text (decimal)

open Function (update update_apply)
open Relation (ReflTransGen)
open RecordStore (record?)

/-- No delete fails. -/
def FaultyStore.Deletes {σ : Type} (s : FaultyStore σ) : Prop := ∀ k, s.faults.delete k = false

theorem FaultyStore.Deletes.record?_delete {s : FaultyStore MemoryStore} (hs : s.Deletes)
    (k : JobKey) : record? (JobStore.delete k s).2 = update (record? s) k none := by
  rw [delete_eq (hs k)]
  exact MemoryStore.find?_erase_eq s.store k

/-- A find that is let through gives the record there is. -/
theorem FaultyStore.fault_of_missed {s s' : FaultyStore MemoryStore} {k : JobKey} {j : Job} {reply}
    (h : JobStore.find k s = (reply, s')) (hmiss : ∀ j, reply ≠ .ok (some j))
    (hj : record? s k = some j) : s.faults.find k ≠ none := by
  intro hf
  obtain ⟨rfl, -⟩ := Prod.mk.inj ((find_eq hf).symm.trans h)
  exact hmiss j (congrArg Except.ok hj)

namespace Core

variable {c c' : Core (FaultyStore MemoryStore)} {k : JobKey} {j : Job}

/-- The store has a record that is not that of a live job. -/
def Leftover (c : Core (FaultyStore MemoryStore)) (k : JobKey) (j : Job) : Prop :=
  record? c.store k = some j ∧ c.live.held k ≠ some j

theorem held_eq_none_iff {l : LiveJobs} : l.held k = none ↔ l.find? k = none :=
  Option.map_eq_none_iff

theorem Shift.faults_eq (h : c.Shift c') : c'.store.faults = c.store.faults := by
  cases h with
  | lose _ hfind _ | hand _ hfind _ | adopt _ hfind _ => exact FaultyStore.faults_find hfind
  | finish _ _ | remove _ => exact FaultyStore.faults_delete _ _
  | _ => rfl

theorem faults_eq_of_shifts (h : ReflTransGen Shift c c') : c'.store.faults = c.store.faults := by
  induction h with
  | refl => rfl
  | tail _ h ih => exact h.faults_eq.trans ih

/-- A job that is taken up from its record is held as the record says. -/
theorem Sound.held_adopt (hc : c.Sound) {f u : String} {i : QueuedJob} {q : Queue} {record : Job}
    {store : FaultyStore MemoryStore} (hq : (c.queues f).Yields u i q)
    (hfind : JobStore.find ⟨q.functionName, i.uniqueId⟩ c.store = (.ok (some record), store))
    (worker : Option SessionId) :
    JobStore.find record.key c.store = (.ok (some record), store) ∧
      (c.live.insert { record with state := .working } worker).held =
        update c.live.held record.key (some record) := by
  rw [hc.key_of_yields hq] at hfind
  have hrecord := RecordStore.record?_of_find hfind
  rw [← hc.keeping.key_eq hrecord] at hfind
  refine ⟨hfind, (LiveJobs.held_insert _ _ _).trans ?_⟩
  exact congrArg (update c.live.held record.key <| some ·) (hc.keeping.renewed_eq hrecord)

/-- A shift leaves the live jobs alone, or one leaves, or one is taken up from its record. -/
theorem Shift.held_cases (h : c.Shift c') (hc : c.Sound) :
    c'.live.held = c.live.held ∨ (∃ k, c'.live.held = update c.live.held k none) ∨
      ∃ record store, JobStore.find record.key c.store = (.ok (some record), store) ∧
        c'.live.held = update c.live.held record.key (some record) := by
  cases h with
  | adjust _ _ => exact .inl rfl
  | lose _ _ _ | finish _ _ | remove _ => exact .inr (.inl ⟨_, LiveJobs.held_erase _ _⟩)
  | hand _ _ hlive =>
    exact .inl (LiveJobs.held_modify fun l hl => by
      rw [Option.some.inj (hlive.symm.trans hl)]; rfl)
  | adopt hq hfind _ =>
    obtain ⟨hfind, hheld⟩ := hc.held_adopt hq hfind _
    exact .inr (.inr ⟨_, _, hfind, hheld⟩)
  | requeue _ | advance =>
    left
    exact LiveJobs.held_modify fun _ _ => rfl

/-- While its record is not found a job can only leave. -/
theorem Shift.held_of_fault (h : c.Shift c') (hc : c.Sound) (hf : c.store.faults.find k ≠ none) :
    c'.live.held k = c.live.held k ∨ c'.live.held k = none := by
  rcases h.held_cases hc with h | ⟨k', h⟩ | ⟨record, store, hfind, h⟩
  · exact .inl (congrFun h k)
  · rw [h, update_apply]
    split
    · exact .inr rfl
    · exact .inl rfl
  · have hne : k ≠ record.key := by
      rintro rfl
      obtain ⟨reply, hmiss, hfault⟩ := FaultyStore.find_of_fault hf
      exact hmiss record (congrArg Prod.fst (hfault.symm.trans hfind))
    exact .inl (h ▸ Function.update_of_ne hne _ _)

/-- A job that is gone does not come back while its record is not found. -/
theorem held_eq_none_of_shifts (h : ReflTransGen Shift c c') (hc : c.Sound)
    (hf : c.store.faults.find k ≠ none) (hk : c.live.held k = none) : c'.live.held k = none := by
  induction h using ReflTransGen.head_induction_on with
  | refl => exact hk
  | head h _ ih =>
    refine ih (hc.shift h) (by rwa [h.faults_eq]) ?_
    exact (h.held_of_fault hc hf).elim (fun h => h.trans hk) id

/-- A record that is left over was so before, or its job has left now without being deleted, as it
was not found. -/
theorem Shift.leftover (h : c.Shift c') (hc : c.Sound) (hd : c.store.Deletes)
    (hl : c'.Leftover k j) : c.Leftover k j ∨
      c.live.held k = some j ∧ c'.live.held k = none ∧ c.store.faults.find k ≠ none := by
  have hrecord := h.record_of_record hl.1
  obtain ⟨hr, hheld⟩ := hl
  have hdelete : ∀ k', record? (JobStore.delete k' c.store).2 k = some j →
      (c.live.erase k').held k ≠ some j → c.Leftover k j := by
    intro k' hr hheld
    rw [hd.record?_delete, update_apply] at hr
    split at hr
    · exact absurd hr (by simp)
    · next hne =>
      rw [LiveJobs.held_erase, Function.update_of_ne hne] at hheld
      exact ⟨hrecord, hheld⟩
  cases h with
  | adjust _ _ => exact .inl ⟨hrecord, hheld⟩
  | @lose f u i q reply store hq hfind hmiss =>
    rw [hc.key_of_yields hq] at hfind
    rw [LiveJobs.held_erase] at hheld ⊢
    by_cases hk : k = i.key
    · subst hk
      by_cases hlive : c.live.held i.key = some j
      · exact .inr ⟨hlive, Function.update_self .., FaultyStore.fault_of_missed hfind hmiss hrecord⟩
      · exact .inl ⟨hrecord, hlive⟩
    · rw [Function.update_of_ne hk] at hheld
      exact .inl ⟨hrecord, hheld⟩
  | hand _ _ hlive =>
    rw [LiveJobs.held_modify fun l hl => by
      rw [Option.some.inj (hlive.symm.trans hl)]; rfl] at hheld
    exact .inl ⟨hrecord, hheld⟩
  | @adopt f u i q record store id hq hfind _ =>
    obtain ⟨hfind, hadopted⟩ := hc.held_adopt hq hfind (some id)
    refine .inl ⟨hrecord, fun hlive => hheld ?_⟩
    show (c.live.insert { record with state := .working } (some id)).held k = some j
    rw [hadopted, update_apply]
    split
    · next hk => exact (RecordStore.record?_of_find hfind).symm.trans (hk ▸ hrecord)
    · exact hlive
  | requeue _ | advance =>
    refine .inl ⟨hrecord, fun hlive => hheld ?_⟩
    rw [LiveJobs.held_modify]
    · exact hlive
    · exact fun _ _ => rfl
  | finish _ _ | remove _ => exact .inl (hdelete _ hr hheld)

/-- A tidy shift leaves nothing over. -/
theorem Tidy.leftover (h : c.Tidy c') (hc : c.Sound) (hd : c.store.Deletes)
    (hl : c'.Leftover k j) : c.Leftover k j := by
  refine (h.shift.leftover hc hd hl).resolve_right fun ⟨hheld, hgone, _⟩ => ?_
  have hstore := h.deleted (fun hnone => by simp [held_eq_none_iff.mpr hnone] at hheld)
    (held_eq_none_iff.mp hgone)
  have hr := hl.1
  rw [hstore, hd.record?_delete] at hr
  exact absurd hr (by simp)

theorem leftover_of_tidy (h : ReflTransGen Tidy c c') (hc : c.Sound) (hd : c.store.Deletes)
    (hl : c'.Leftover k j) : c.Leftover k j := by
  induction h using ReflTransGen.head_induction_on with
  | refl => exact hl
  | head h _ ih =>
    refine h.leftover hc hd (ih (hc.shift h.shift) fun k => ?_)
    rw [h.shift.faults_eq]
    exact hd k

/-- What shifts leave over was left over before, or its job has left because it was not found. -/
theorem leftover_of_shifts (h : ReflTransGen Shift c c') (hc : c.Sound) (hd : c.store.Deletes)
    (hl : c'.Leftover k j) : c.Leftover k j ∨
      c.live.held k = some j ∧ c'.live.held k = none ∧ c.store.faults.find k ≠ none := by
  induction h using ReflTransGen.head_induction_on with
  | refl => exact .inl hl
  | @head c b h hrest ih =>
    have hb := hc.shift h
    have hfaults := h.faults_eq
    rcases ih hb (fun k => by rw [hfaults]; exact hd k) with hl | ⟨hheld, hgone, hfault⟩
    · refine (h.leftover hc hd hl).imp_right fun ⟨hheld, hgone, hfault⟩ => ⟨hheld, ?_, hfault⟩
      exact held_eq_none_of_shifts hrest hb (hfaults ▸ hfault) hgone
    · rw [hfaults] at hfault
      refine .inr ⟨?_, hgone, hfault⟩
      rcases h.held_of_fault hc hfault with h | h
      · exact h ▸ hheld
      · exact absurd (h.symm.trans hheld) (by simp)

theorem Admission.faults_eq (h : c.Admission c') : c'.store.faults = c.store.faults := by
  cases h with
  | refused hstore =>
    rcases hstore with rfl | ⟨_, hwrite, _⟩
    · rfl
    · exact FaultyStore.faults_write hwrite
  | letIn _ _ _ hwrite => exact FaultyStore.faults_write hwrite

/-- An admission writes at most the record of the job it lets in, under the next handle. -/
theorem Admission.record_cases (h : c.Admission c') (hr : record? c'.store k = some j) :
    record? c.store k = some j ∨ j.handle = c.handles.next.1 ∧ c'.live.held k = some j := by
  cases h with
  | refused hstore =>
    rcases hstore with rfl | ⟨_, hwrite, hne⟩
    · exact .inl hr
    · exact .inl (RecordStore.record?_write_of_ne hwrite hne ▸ hr)
  | @letIn i store _ hhandle hi hwrite =>
    rw [RecordStore.record?_write hwrite, update_apply] at hr
    show _ ∨ _ ∧ (c.live.insert i none).held k = some j
    rw [LiveJobs.held_insert, hi, update_apply]
    split at hr
    · next hk =>
      obtain rfl := Option.some.inj hr
      exact .inr ⟨hhandle, if_pos hk⟩
    · exact .inl hr

theorem Admission.leftover (h : c.Admission c') (hl : c'.Leftover k j) : c.Leftover k j := by
  refine ⟨(h.record_cases hl.1).resolve_right fun hnew => hl.2 hnew.2, fun hheld => hl.2 ?_⟩
  cases h with
  | refused _ => exact hheld
  | @letIn i store hnew _ _ _ =>
    show (c.live.insert i none).held k = some j
    rw [LiveJobs.held_insert, Function.update_of_ne]
    · exact hheld
    · rintro rfl
      exact absurd (hheld.symm.trans (held_eq_none_iff.mpr hnew)) (by simp)

end Core

namespace Engine

variable {e : Engine (FaultyStore MemoryStore)} {a : Action (FaultyStore MemoryStore)}
  {as : List (Action (FaultyStore MemoryStore))} {k : JobKey} {j : Job}

/-! ### Runs -/

/-- What happens to the store besides calls changes its faults only, and lets all deletes be. -/
def OnlyFaults (as : List (Action (FaultyStore MemoryStore))) : Prop :=
  ∀ change, .alterStore change ∈ as → ∀ s, (change s).store = s.store ∧ (change s).Deletes

/-- A grab has given the job up, as the find of its record failed. -/
def Missed (e : Engine (FaultyStore MemoryStore)) (as : List (Action (FaultyStore MemoryStore)))
    (k : JobKey) (j : Job) : Prop :=
  ∃ past id later, as = past ++ .grab id :: later ∧ (e.run past).live.held k = some j ∧
    (e.run past).store.faults.find k ≠ none ∧ (e.run (past ++ [.grab id])).live.find? k = none

theorem Missed.concat (h : e.Missed as k j) (a : Action (FaultyStore MemoryStore)) :
    e.Missed (as ++ [a]) k j := by
  obtain ⟨past, id, later, rfl, h⟩ := h
  exact ⟨past, id, later ++ [a], by simp, h⟩

theorem OnlyFaults.cons (h : OnlyFaults (a :: as)) : OnlyFaults [a] ∧ OnlyFaults as :=
  ⟨fun change hm => h change (List.mem_cons.mpr (.inl (List.mem_singleton.mp hm))),
    fun change hm => h change (List.mem_cons_of_mem a hm)⟩

theorem sound_act_faults (hs : e.core.Sound) (ha : OnlyFaults [a]) : (e.act a).core.Sound := by
  by_cases halter : ∃ change, a = .alterStore change
  · obtain ⟨change, rfl⟩ := halter
    obtain ⟨hstore, -⟩ := ha change (by simp) e.store
    exact ⟨hs.keeping.congr (congrArg MemoryStore.find? hstore) id, hs.functionName, hs.ofFunction⟩
  · exact sound_act hs fun change h => halter ⟨change, h⟩

theorem sound_run_faults (hs : e.core.Sound) (has : OnlyFaults as) : (e.run as).core.Sound := by
  induction as generalizing e with
  | nil => exact hs
  | cons a as ih => exact ih (sound_act_faults hs has.cons.1) has.cons.2

theorem deletes_run (hd : e.store.Deletes) (has : OnlyFaults as) : (e.run as).store.Deletes := by
  induction as generalizing e with
  | nil => exact hd
  | cons a as ih =>
    refine ih ?_ has.cons.2
    by_cases halter : ∃ change, a = .alterStore change
    · obtain ⟨change, rfl⟩ := halter
      exact (has.cons.1 change (by simp) e.store).2
    · have hfaults : (e.act a).store.faults = e.store.faults := by
        rcases core_act e fun change h => halter ⟨change, h⟩ with h | h
        · exact h.faults_eq
        · exact Core.faults_eq_of_shifts h
      exact fun k => by rw [hfaults]; exact hd k

/-- Only a grab leaves a record over that was not left over before. -/
theorem leftover_act (hs : e.core.Sound) (hd : e.store.Deletes) (ha : OnlyFaults [a])
    (hl : (e.act a).core.Leftover k j) : e.core.Leftover k j ∨
      ∃ id, a = .grab id ∧ e.live.held k = some j ∧ (e.act a).live.held k = none ∧
        e.store.faults.find k ≠ none := by
  by_cases halter : ∃ change, a = .alterStore change
  · obtain ⟨change, rfl⟩ := halter
    obtain ⟨hstore, -⟩ := ha change (by simp) e.store
    refine .inl ⟨?_, hl.2⟩
    rw [← hl.1]
    exact congrArg (MemoryStore.find? · k) hstore.symm
  · by_cases hgrab : ∃ id, a = .grab id
    · obtain ⟨id, rfl⟩ := hgrab
      refine (Core.leftover_of_shifts (shifts_takeFrom id (e.abilities id) e) hs hd hl).imp_right ?_
      exact fun h => ⟨id, rfl, h⟩
    · rcases tidy_act e (fun change h => halter ⟨change, h⟩) fun id h => hgrab ⟨id, h⟩ with h | h
      · exact .inl (h.leftover hl)
      · exact .inl (Core.leftover_of_tidy h hs hd hl)

/-- What is left over after a run was given up by a grab. -/
theorem missed_of_leftover (hs : e.core.Sound) (hd : e.store.Deletes)
    (hnone : ∀ k j, ¬ e.core.Leftover k j) (has : OnlyFaults as)
    (hl : (e.run as).core.Leftover k j) : e.Missed as k j := by
  induction as using List.reverseRecOn generalizing k j with
  | nil => exact absurd hl (hnone k j)
  | append_singleton as a ih =>
    have hpast : OnlyFaults as := fun change h => has change (List.mem_append_left _ h)
    have ha : OnlyFaults [a] := fun change h => has change (List.mem_append_right _ h)
    have hrun : e.run (as ++ [a]) = (e.run as).act a := run_append e as [a]
    rw [hrun] at hl
    rcases leftover_act (sound_run_faults hs hpast) (deletes_run hd hpast) ha hl with
      hl | ⟨id, rfl, hheld, hgone, hfault⟩
    · exact (ih hpast hl).concat a
    · exact ⟨as, id, [], rfl, hheld, hfault, hrun ▸ Core.held_eq_none_iff.mp hgone⟩

/-! ### The next engine -/

theorem record_act (ha : OnlyFaults [a]) (hr : record? (e.act a).store k = some j) :
    record? e.store k = some j ∨
      j.handle = e.handles.next.1 ∧ (e.act a).handles = e.handles.next.2 := by
  by_cases halter : ∃ change, a = .alterStore change
  · obtain ⟨change, rfl⟩ := halter
    obtain ⟨hstore, -⟩ := ha change (by simp) e.store
    exact .inl ((congrArg (MemoryStore.find? · k) hstore).symm.trans hr)
  · rcases core_act e fun change h => halter ⟨change, h⟩ with h | h
    · exact (h.record_cases hr).imp_right fun hnew => ⟨hnew.1, h.handles_eq⟩
    · exact .inl (Core.record_of_shifts h hr)

/-- A record that is written during a run has a handle that was issued in it. -/
theorem record_run (has : OnlyFaults as) (hr : record? (e.run as).store k = some j) :
    record? e.store k = some j ∨ j.handle ∈ e.issuedHandles as := by
  induction as generalizing e with
  | nil => exact .inl hr
  | cons a as ih =>
    rw [issuedHandles, List.mem_append]
    rcases ih has.cons.2 hr with hr | hissued
    · rcases record_act has.cons.1 hr with hr | hnew
      · exact .inl hr
      · refine .inr (.inl ?_)
        rw [if_neg (by rw [hnew.2]; exact HandleFactory.next_ne _), hnew.1]
        exact List.mem_singleton_self _
    · exact .inr (.inr hissued)

theorem ne_empty_of_issued {handle : String} (h : handle ∈ e.issuedHandles as) : handle ≠ "" := by
  induction as generalizing e with
  | nil => exact absurd h List.not_mem_nil
  | cons a as ih =>
    rw [issuedHandles, List.mem_append] at h
    rcases h with h | h
    · split at h
      · exact absurd h List.not_mem_nil
      · exact List.mem_singleton.mp h ▸ Handle.render_ne_empty _ _
    · exact ih h

/-- A job that is handed out is on record. -/
theorem record_of_nextJob (hs : e.core.Sound) {id : SessionId} (h : (e.nextJob id).1 = some j) :
    record? e.store j.key = some j.renewed := by
  obtain ⟨k, hlive⟩ := live_of_takeFrom h
  have hshifts := shifts_takeFrom id (e.abilities id) e
  have hafter := hs.shifts hshifts
  have hrecord := hafter.keeping.record_of_held (LiveJobs.held_eq_some hlive)
  obtain rfl : j.key = k := hafter.keeping.key_eq (j := j.renewed) hrecord
  exact Core.record_of_shifts hshifts hrecord

/-- The job can be read back as it is, and has a handle. -/
def OnRecord (e : Engine (FaultyStore MemoryStore)) (j : Job) : Prop :=
  record? e.store j.key = some j ∧ j.renewed = j ∧ j.handle ≠ ""

theorem sound_takeUp (hs : e.core.Sound) (hf : (e.workshop? j.functionName).isSome)
    (hj : e.OnRecord j) : ({ e.setQueue j.functionName
      ((e.workshop j.functionName).queue.accept j.summary) with
        live := e.live.insert j.renewed none } : Engine _).core.Sound := by
  obtain ⟨hrecord, hrenewed, -⟩ := hj
  rw [hrenewed]
  have hkeeping : Keeping (e.live.insert j none).held e.store := by
    rw [LiveJobs.held_insert, hrenewed]
    exact hs.keeping.amend (fun i hi => Option.some.inj hi ▸ hrecord) (.inr trivial)
  have hcore := congrArg (fun c : Core (FaultyStore MemoryStore) =>
    { c with live := e.live.insert j none })
    (core_setQueue hf ((e.workshop j.functionName).queue.accept j.summary))
  have hsound := hs.withQueue (f := j.functionName)
    (q := (e.workshop j.functionName).queue.accept j.summary) rfl Queue.find?_accept_cases hkeeping
      e.handles
  exact Eq.subst (motive := Core.Sound) hcore.symm hsound

theorem sound_restore (hs : e.core.Sound) (hj : e.OnRecord j) : (e.restore j).2.core.Sound := by
  have hf := isSome_establish e j.functionName
  have hs : (e.establish j.functionName).core.Sound := (core_establish e j.functionName).symm ▸ hs
  rw [restore_of_handle hj.2.2]
  dsimp only
  unfold Queue.reinstate
  split
  · exact hs
  · exact sound_takeUp hs hf hj

theorem sound_restoreAll {js : List Job} (hs : e.core.Sound) (hjs : ∀ j ∈ js, e.OnRecord j) :
    (e.restoreAll js).2.core.Sound := by
  induction js generalizing e with
  | nil => exact hs
  | cons j js ih =>
    refine ih (e := (e.restore j).2) (sound_restore hs (hjs j List.mem_cons_self)) fun i hi => ?_
    have hstore : (e.restore j).2.store = e.store := store_restoreAll [j] e
    rw [OnRecord, hstore]
    exact hjs i (List.mem_cons_of_mem j hi)

theorem faults_readRecords (qs : List QueuedJob) (e : Engine (FaultyStore MemoryStore)) :
    (e.readRecords qs).2.store.faults = e.store.faults := by
  induction qs generalizing e with
  | nil => rfl
  | cons q qs ih =>
    unfold readRecords
    split
    · next hfind => exact (ih _).trans (FaultyStore.faults_find hfind)
    · next hfind => exact (ih _).trans (FaultyStore.faults_find hfind)

theorem loaded_faults (hs : e.core.Sound) :
    e.loaded.2.core.Sound ∧ record? e.loaded.2.store = record? e.store ∧
      e.loaded.2.store.faults = e.store.faults ∧
      ∀ j ∈ e.loaded.1, ∃ k, record? e.store k = some j := by
  have hsame : (JobStore.readAll e.store).2 = e.store := by
    show (if e.store.faults.readAll then (FaultyStore.refused "read_all", e.store)
      else e.store.through JobStore.readAll).2 = e.store
    split <;> rfl
  unfold loaded
  split
  · next store h =>
    obtain rfl : e.store = store := by rw [← hsame, h]
    exact ⟨hs, rfl, rfl, by simp⟩
  · next queued store h =>
    obtain rfl : e.store = store := by rw [← hsame, h]
    obtain ⟨hrecords, hread⟩ := record?_readRecords queued e
    have hfaults := faults_readRecords queued e
    obtain ⟨store, hsnd⟩ := readRecords_snd queued e
    refine ⟨?_, hrecords, hfaults, hread⟩
    rw [hsnd] at hrecords ⊢
    exact ⟨hs.keeping.congr hrecords id, hs.functionName, hs.ofFunction⟩

/-- An engine that takes up the records of a store, all of which are jobs with handles. -/
theorem sound_load {records : MemoryStore} (faults : Faults)
    (hrecords : ∀ {k j}, records.find? k = some j → j.key = k ∧ j.renewed = j ∧ j.handle ≠ "")
    (settings : EngineSettings) (now : Int64) (newId : Nat → String) (isLinked : Bool) :
    let e := (start settings (⟨records, faults⟩ : FaultyStore MemoryStore) now newId
      isLinked).load.2
    e.core.Sound ∧ e.store.faults = faults ∧ record? e.store = records.find? := by
  intro e
  obtain ⟨e₀, he₀⟩ : ∃ e₀, start settings (⟨records, faults⟩ : FaultyStore MemoryStore) now newId
    isLinked = e₀ := ⟨_, rfl⟩
  have hs : e₀.core.Sound := he₀ ▸ {
    keeping := {
      record_of_held := fun h => absurd h (by simp [core, start, new, LiveJobs.held,
        LiveJobs.find?, LiveJobs.empty])
      key_eq := fun h => (hrecords h).1
      renewed_eq := fun h => (hrecords h).2.1
      eq_of_not_hasErred := fun hn => absurd trivial hn }
    functionName := fun _ => rfl
    ofFunction := fun h => absurd h (by simp [core, start, new, workshop, workshop?, Workshop.new,
      Queue.new, Queue.find?]) }
  have hstore : e₀.store = ⟨records, faults⟩ := he₀ ▸ rfl
  obtain ⟨hloaded, hsame, hfaults, hread⟩ := loaded_faults hs
  have he : e = (e₀.loaded.2.restoreAll e₀.loaded.1).2 := he₀ ▸ load_snd _
  rw [he, store_restoreAll, hsame, hfaults, hstore]
  refine ⟨sound_restoreAll hloaded fun j hj => ?_, rfl, rfl⟩
  obtain ⟨k, hk⟩ := hread j hj
  obtain ⟨rfl, hrenewed, hhandle⟩ := hrecords (show records.find? k = some j by
    rw [hstore] at hk
    exact hk)
  exact ⟨by rw [hsame]; exact hk, hrenewed, hhandle⟩

/-- What there is on record after a run, what the clients were told of it, and what an engine makes
of it that starts over the same records, whichever of its finds fail. -/
structure Accounted (e : Engine (FaultyStore MemoryStore))
    (as : List (Action (FaultyStore MemoryStore))) : Prop where
  live_or_missed : ∀ {k j}, record? (e.run as).store k = some j →
    (e.run as).live.held k = some j ∨ e.Missed as k j
  missed_of_notice : e.IsRun as → ∀ {id p k j}, p ∈ (e.run as).notices id →
    p.ends? = some j.handle → record? (e.run as).store k = some j → e.Missed as k j
  handed_again : ∀ (settings : EngineSettings) (faults : Faults) (now : Int64)
    (newId : Nat → String) (isLinked : Bool) {bs}, OnlyFaults bs →
      let e' := (start settings (⟨(e.run as).store.store, faults⟩ : FaultyStore MemoryStore) now
        newId isLinked).load.2
      ∀ {id j}, ((e'.run bs).nextJob id).1 = some j → j.handle ∈ e'.issuedHandles bs ∨
        (e.run as).live.held j.key = some j.renewed ∨ e.Missed as j.key j.renewed

theorem accounted_run (settings : EngineSettings) {faults : Faults}
    (hfaults : ∀ k, faults.delete k = false) (now : Int64) (newId : Nat → String) (isLinked : Bool)
    {as : List (Action (FaultyStore MemoryStore))} (has : OnlyFaults as) :
    (start settings (⟨.empty, faults⟩ : FaultyStore MemoryStore) now newId
      isLinked).Accounted as := by
  obtain ⟨e, he⟩ : ∃ e, start settings (⟨.empty, faults⟩ : FaultyStore MemoryStore) now newId
    isLinked = e := ⟨_, rfl⟩
  have hnone : ∀ k, record? e.store k = none := fun k => he ▸ rfl
  have hs : e.core.Sound := he ▸ sound_start settings _ (fun _ => rfl) now newId isLinked
  have hrun := sound_run_faults hs has
  have hcases : ∀ {k j}, record? (e.run as).store k = some j →
      (e.run as).live.held k = some j ∨ e.Missed as k j := by
    intro k j hr
    by_cases hheld : (e.run as).live.held k = some j
    · exact .inl hheld
    · refine .inr (missed_of_leftover hs (he ▸ hfaults) (fun k j hl => ?_) has ⟨hr, hheld⟩)
      exact absurd ((hnone k).symm.trans hl.1) (by simp)
  rw [he]
  refine ⟨hcases, fun hlegal id p k j hp hends hr => ?_,
    fun settings' faults' now' newId' isLinked' bs hbs => ?_⟩
  · -- a handle that stood in a notice leads to no live job
    have horder := hlegal.inOrder (he ▸ start_inOrder settings _ now newId isLinked)
    refine (hcases hr).resolve_left fun hheld => ?_
    obtain ⟨live, hlive, rfl⟩ := Option.map_eq_some_iff.mp hheld
    have hspent := horder.consistent.spent_of_notice hp hends
    exact absurd (hspent.2.symm.trans (horder.consistent.keys_handle hlive)) (by simp)
  · intro e' id j hj
    have hrecords : ∀ {k j}, (e.run as).store.store.find? k = some j →
        j.key = k ∧ j.renewed = j ∧ j.handle ≠ "" := by
      intro k j hr
      have hissued := (record_run has hr).resolve_left fun h => by simp [hnone] at h
      exact ⟨hrun.keeping.key_eq hr, hrun.keeping.renewed_eq hr, ne_empty_of_issued hissued⟩
    obtain ⟨hs', -, hsame⟩ := sound_load faults' hrecords settings' now' newId' isLinked'
    have hrecord := record_of_nextJob (sound_run_faults hs' hbs) hj
    rcases record_run hbs hrecord with hr | hissued
    · rw [hsame] at hr
      exact .inr (hcases hr)
    · exact .inl hissued

/-- The find of one record fails; the job of another is live when the engine stops. -/
theorem accounted_run_find_fails :
    ∃ as : List (Action (FaultyStore MemoryStore)),
      let e := start .default (⟨.empty, .none⟩ : FaultyStore MemoryStore) 0 decimal false
      OnlyFaults as ∧ (record? (e.run as).store ⟨"f", "u"⟩).isSome ∧
        (e.run as).live.find? ⟨"f", "u"⟩ = none ∧
        ((e.run as).live.find? ⟨"f", "v"⟩).isSome ∧ e.Accounted as := by
  have has : OnlyFaults [.arrive "1.1.1.1:1", .connect 0, .canDo 0 "f" none,
      .submit (.new "f" "u" []) (some 0), .submit (.new "f" "v" []) none,
      .alterStore fun s => { s with faults := { Faults.none with
        find := fun k => if k.uniqueId = "u" then some .refuse else none } }, .grab 0] := by
    intro change h
    obtain rfl := by simpa using h
    exact fun s => ⟨rfl, fun _ => rfl⟩
  exact ⟨_, has, by decide +kernel, by decide +kernel, by decide +kernel,
    accounted_run .default (fun _ => rfl) 0 decimal false has⟩

/-- A client is told that a job has failed whose record could not be read. The next engine finds the
record, and hands the job to a worker under the same handle. -/
theorem handed_after_end :
    ∃ as bs : List (Action (FaultyStore MemoryStore)),
      let e := start .default (⟨.empty, .none⟩ : FaultyStore MemoryStore) 0 decimal false
      let e' := (start .default (⟨(e.run as).store.store, .none⟩ : FaultyStore MemoryStore) 0
        decimal false).load.2
      e.IsRun as ∧ OnlyFaults as ∧ (e.run as).live.find? ⟨"f", "u"⟩ = none ∧
        (e.run as).notices 0 = [.response (.workFail "H:localhost:1")] ∧
        (record? (e.run as).store ⟨"f", "u"⟩).map Job.handle = some "H:localhost:1" ∧
        ((e'.run bs).nextJob 0).1.map Job.handle = some "H:localhost:1" := by
  refine ⟨[.arrive "1.1.1.1:1", .connect 0, .canDo 0 "f" none, .submit (.new "f" "u" []) (some 0),
      .alterStore fun s =>
        { s with faults := { Faults.none with find := fun _ => some .refuse } },
      .grab 0], [.arrive "1.1.1.1:1", .connect 0, .canDo 0 "f" none],
    ?_, fun change h => ?_, ?_, ?_, ?_, ?_⟩
  case refine_2 =>
    obtain rfl := by simpa using h
    exact fun s => ⟨rfl, fun _ => rfl⟩
  all_goals decide +kernel

end Engine

end JobBroker
