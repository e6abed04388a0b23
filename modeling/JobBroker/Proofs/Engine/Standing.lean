import JobBroker.Proofs.Engine.Admission
import JobBroker.Proofs.Engine.Matching

/-!
# How a job stands

What is done to an engine shows in the job that is found under a handle. The job leaves, or it
stands otherwise than before, or it is as it was.

* `LiveJobs.Within` : jobs may have left, and nothing else has happened.
* `findJob?_requeueAll`, `live_takeFrom` : which jobs are queued again, and which is handed out.
* `Engine.InPlace` : every job is found where it belongs.
* `InPlace.load` : what becomes of the jobs when stored ones are taken up.
-/

namespace JobBroker

open RecordStore (record?)

/-! ### Live jobs -/

namespace LiveJobs

variable {l l' l'' : LiveJobs} {k : JobKey} {handle : String}

/-- Jobs may have left, and nothing else has happened. -/
def Within (l' l : LiveJobs) : Prop := ∀ k live, l'.find? k = some live → l.find? k = some live

theorem Within.of_eq (h : l' = l) : l'.Within l := fun _ _ hlive => h ▸ hlive

theorem Within.refl (l : LiveJobs) : l.Within l := .of_eq rfl

theorem Within.trans (h : l'.Within l) (h' : l''.Within l') : l''.Within l :=
  fun k live hlive => h k live (h' k live hlive)

theorem Within.erase (l : LiveJobs) (k : JobKey) : (l.erase k).Within l := by
  intro k' live h
  rw [find?_erase] at h
  split at h
  · exact absurd h (by simp)
  · exact h

namespace Indexed

variable (hl : l.Indexed)
include hl

/-- The job under a key changes, and the one under its handle is the same job. -/
theorem ofHandle?_modify (hk : l.keyOf? handle = some k) (f : LiveJob → LiveJob) (h : String) :
    (l.modify k f).ofHandle? h = if handle = h then (l.ofHandle? h).map f else l.ofHandle? h := by
  show (l.keyOf? h).bind (l.modify k f).find? =
    if handle = h then ((l.keyOf? h).bind l.find?).map f else (l.keyOf? h).bind l.find?
  split
  · next hh => rw [← hh, hk, Option.bind_some, find?_modify, if_pos rfl, Option.bind_some]
  · next hh =>
    cases hkey : l.keyOf? h with
    | none => rfl
    | some k' =>
      rw [Option.bind_some, Option.bind_some, find?_modify]
      refine if_neg fun hkk => hh ?_
      subst hkk
      obtain ⟨j, hj, rfl⟩ := (hl handle k).mp hk
      obtain ⟨j', hj', rfl⟩ := (hl h k).mp hkey
      rw [Option.some.inj (hj.symm.trans hj')]

/-- No two live jobs have one handle. -/
theorem key_eq {k' : JobKey} {live live' : LiveJob} (hk : l.find? k = some live)
    (hk' : l.find? k' = some live') (h : live.job.handle = live'.job.handle) : k = k' := by
  have hkey : l.keyOf? live.job.handle = some k := (hl _ k).mpr ⟨_, held_eq_some hk, rfl⟩
  have hkey' : l.keyOf? live.job.handle = some k' := (hl _ k').mpr ⟨_, held_eq_some hk', h.symm⟩
  exact Option.some.inj (hkey.symm.trans hkey')

end Indexed

end LiveJobs

namespace Engine

variable {σ : Type} {e e' : Engine σ} {handle : String} {j : Job}

theorem findJob?_eq_some_iff (hl : e.live.Indexed) : e.findJob? handle = some j ↔
    ∃ k live, e.live.find? k = some live ∧ live.job = j ∧ j.handle = handle := by
  simp only [findJob?, Option.map_eq_some_iff, ofHandle?_eq_some_iff hl]
  constructor
  · rintro ⟨live, ⟨k, hlive, hhandle⟩, rfl⟩
    exact ⟨k, live, hlive, rfl, hhandle⟩
  · rintro ⟨k, live, hlive, rfl, hhandle⟩
    exact ⟨live, ⟨k, hlive, hhandle⟩, rfl⟩

theorem findJob?_of_within (hl : e.live.Indexed) (hl' : e'.live.Indexed)
    (h : e'.live.Within e.live) (hj : e'.findJob? handle = some j) :
    e.findJob? handle = some j := by
  obtain ⟨k, live, hlive, hjob⟩ := (findJob?_eq_some_iff hl').mp hj
  exact (findJob?_eq_some_iff hl).mpr ⟨k, live, h k live hlive, hjob⟩

theorem findJob?_of_modify (hl : e.live.Indexed) {h : String} {k : JobKey}
    (hk : e.live.keyOf? h = some k) {f : LiveJob → LiveJob} {g : Job → Job}
    (hf : ∀ live, (f live).job = g live.job) (hlive : e'.live = e.live.modify k f) :
    e'.findJob? handle =
      if h = handle then (e.findJob? handle).map g else e.findJob? handle := by
  rw [findJob?, hlive, hl.ofHandle?_modify hk, findJob?]
  split
  · rw [Option.map_map, Option.map_map]
    exact congrArg (Option.map · _) (funext hf)
  · rfl

/-! ### What is done to a job -/

section Operations

/-- Queueing a job again that nobody works on does nothing. -/
theorem findJob?_requeue (hl : e.live.Indexed) (h handle : String) :
    (e.requeue h).live.Indexed ∧ (e.requeue h).findJob? handle =
      (e.findJob? handle).map fun j =>
        if h = handle ∧ j.state = .working then j.renewed else j := by
  cases hj : e.jobInState h .working with
  | error err =>
    have hcore : (e.requeue h).live = e.live :=
      congrArg Core.live (core_requeue_idle fun live hlive => nomatch hj.symm.trans hlive)
    refine ⟨hcore ▸ hl, ?_⟩
    rw [findJob?, hcore, ← findJob?]
    cases hfind : e.findJob? handle with
    | none => rfl
    | some j =>
      have hnot : ¬ (h = handle ∧ j.state = .working) := by
        rintro ⟨rfl, hstate⟩
        obtain ⟨live, hlive, rfl⟩ := Option.map_eq_some_iff.mp hfind
        simp [jobInState, hlive, hstate] at hj
      rw [Option.map_some, if_neg hnot]
  | ok live =>
    obtain ⟨k, hkey, -, hstate⟩ := find?_of_jobInState hj
    have hcore := congrArg Core.live (core_requeue hkey hj)
    refine ⟨?_, ?_⟩
    · rw [show (e.requeue h).live = _ from hcore]
      exact hl.modify fun _ _ => rfl
    · rw [findJob?_of_modify hl hkey (g := Job.renewed) (fun _ => rfl) hcore]
      split
      · next hh =>
        subst hh
        rw [findJob?_of_jobInState hj, Option.map_some, Option.map_some, if_pos ⟨rfl, hstate⟩]
      · next hh => simp [hh]

variable [JobStore σ]

theorem findJob?_requeueAll (handles : List String) (handle : String) (hl : e.live.Indexed)
    (hpolicy : e.settings.disconnectPolicy = .requeue) :
    (handles.foldl abandon e).findJob? handle =
      (e.findJob? handle).map fun j =>
        if handle ∈ handles ∧ j.state = .working then j.renewed else j := by
  induction handles generalizing e with
  | nil => simp
  | cons h handles ih =>
    have hrequeue : e.abandon h = e.requeue h := by simp only [abandon, hpolicy]
    obtain ⟨hl', hfind⟩ := findJob?_requeue hl h handle
    rw [List.foldl_cons, hrequeue, ih hl' ((steady_requeue e h).settings ▸ hpolicy), hfind,
      Option.map_map]
    refine congrArg (Option.map · _) (funext fun j => ?_)
    by_cases hh : h = handle
    · by_cases hstate : j.state = .working <;> simp [hh, hstate, Job.renewed]
    · simp [hh, Ne.symm hh]

theorem within_finish (e : Engine σ) (h : String) (o : Outcome) :
    (e.finish h o).2.live.Within e.live := by
  cases hj : e.jobInState h .working with
  | error err =>
    have hcore := core_finish_idle (fun live hlive => nomatch hj.symm.trans hlive) o
    exact .of_eq (congrArg Core.live hcore)
  | ok live =>
    obtain ⟨k, hkey, -, -⟩ := find?_of_jobInState hj
    have hcore := congrArg Core.live (core_finish hkey hj o)
    exact (LiveJobs.Within.erase e.live k).trans (.of_eq hcore)

theorem within_failAll (handles : List String) (e : Engine σ)
    (hpolicy : e.settings.disconnectPolicy = .fail) :
    (handles.foldl abandon e).live.Within e.live := by
  induction handles generalizing e with
  | nil => exact .refl _
  | cons h handles ih =>
    have hfail : e.abandon h = (e.finish h .fail).2 := by simp only [abandon, hpolicy]
    have hrest := ih (e.abandon h) ((steady_abandon e h).settings ▸ hpolicy)
    exact .trans (hfail ▸ within_finish e h .fail) hrest

theorem within_remove (he : e.Filed) (h : String) : (e.remove h).2.live.Within e.live := by
  cases hj : e.jobInState h .queued with
  | error err =>
    rw [show (e.remove h).2 = e by simp [remove, hj]]
    exact .refl _
  | ok live =>
    obtain ⟨q, -, -, hremove⟩ := he.remove_eq hj
    rw [hremove]
    exact .erase e.live live.job.key

theorem within_hear (e : Engine σ) (event : PeerEvent) : (e.hear event).live.Within e.live := by
  unfold hear
  dsimp only
  split
  · exact .refl _
  · exact .of_eq (congrArg Core.live (core_wakeCrew e event.functionName))
  · exact .refl _
  · exact .refl _
  · next live _ _ _ =>
    split
    · exact .refl _
    · unfold settle
      dsimp only
      split
      · exact .erase e.live live.job.key
      · exact .refl _

/-- A worker gets nothing, or a job that was queued; jobs may be lost on the way. -/
theorem live_takeFrom (id : SessionId) (fs : List String) (he : e.core.Filed) :
    (e.takeFrom id fs).1 = none ∧ (e.takeFrom id fs).2.live.Within e.live ∨
      ∃ l k live, LiveJobs.Within l e.live ∧ l.find? k = some live ∧ live.job.state = .queued ∧
        (e.takeFrom id fs).1 = some { live.job with state := .working } ∧
        (e.takeFrom id fs).2.live =
          l.modify k fun _ => ⟨{ live.job with state := .working }, some id⟩ := by
  induction fs generalizing e with
  | nil => exact .inl ⟨rfl, .refl _⟩
  | cons f fs ih =>
    unfold takeFrom
    split
    · exact ih he
    · next w hw =>
      obtain rfl : e.workshop f = w := by rw [workshop, hw, Option.getD_some]
      split
      · next q hq =>
        rcases Queue.yields_takeNext hq with ⟨-, hname, hjobs⟩ | ⟨u, j, hj, -⟩
        · refine ih (e := e.setQueue f q) ?_
          rw [core_setQueue (Option.isSome_of_eq_some hw)]
          exact he.shift (.adjust hname hjobs)
        · exact absurd hj (by simp)
      · next j q hq =>
        rcases Queue.yields_takeNext hq with ⟨hj, -⟩ | ⟨u, j', hj, hyields⟩
        · exact absurd hj (by simp)
        obtain rfl := Option.some.inj hj
        split
        · next store hresolve =>
          obtain ⟨reply, hfind, ⟨-, hlost⟩ | ⟨record, hrecord, -⟩⟩ := Queue.resolve_cases hresolve
          · have hdrop : (dropLost { e.setQueue f q with store } j.key).live =
                e.live.erase j.key := congrArg Core.live (core_dropLost _ j.key)
            have herase := LiveJobs.Within.erase e.live j.key
            rcases ih (he.shift (shift_dropLost hyields hfind hlost)) with
              ⟨hnone, hwithin⟩ | ⟨l, k, live, hwithin, hrest⟩ <;> rw [hdrop] at hwithin
            · exact .inl ⟨hnone, herase.trans hwithin⟩
            · exact .inr ⟨l, k, live, herase.trans hwithin, hrest⟩
          · exact absurd hrecord (by simp)
        · next record store hresolve =>
          obtain ⟨live, hlive, hstate, rfl⟩ := LiveJobs.waiting_eq_some_iff.mp
            ((he.find?_eq f u).symm.trans hyields.find?)
          obtain hkey : live.job.key = ⟨f, u⟩ := he.key_eq hlive
          have hassign := assign_of_live (e := { e.setQueue f q with store }) hlive record id
          refine .inr ⟨e.live, ⟨f, u⟩, live, .refl _, hlive, hstate, ?_⟩
          rw [show live.job.summary.key = ⟨f, u⟩ from hkey, hassign]
          exact ⟨rfl, rfl⟩

end Operations

/-! ### Stored jobs that are taken up -/

section Records

theorem live_restore (hj : j.handle ≠ "") : (e.restore j).2.live =
    if (e.workshop j.functionName).queue.contains j.uniqueId then e.live
    else e.live.insert j.renewed none := by
  simp only [restore_snd, if_neg hj, revive, Job.renewed, workshop_establish]
  show (if (e.workshop j.functionName).queue.contains j.uniqueId then _ else _ : Engine σ).live = _
  split <;> rfl

variable [JobStore σ] [RecordStore σ]

/-- Every job is found where it belongs, and those that are queued are as they were before anybody
worked on them. -/
structure InPlace (e : Engine σ) : Prop where
  filed : e.Filed
  addressed : e.core.Addressed
  rested : ∀ {h i}, e.findJob? h = some i → i.state = .queued → i.renewed = i

namespace InPlace

theorem calls_of_findJob? (he : e.InPlace) (hj : e.findJob? handle = some j) :
    ∃ k, e.core.Calls k handle := by
  obtain ⟨k, live, hlive, rfl, hhandle⟩ := (findJob?_eq_some_iff he.addressed.indexed).mp hj
  exact ⟨k, live.job.renewed, .inl (LiveJobs.held_eq_some hlive), hhandle⟩

/-- When a record is taken up, the job with its handle is queued, and others are left alone. -/
theorem findJob?_restore (he : e.InPlace) {k : JobKey} (hj : record? e.store k = some j) {i : Job}
    (hi : (e.restore j).2.findJob? handle = some i) :
    (handle = j.handle → i.renewed = i) ∧ (handle ≠ j.handle → e.findJob? handle = some i) := by
  have hrecord := he.addressed.calls_of_record hj
  obtain ⟨k', live, hlive, rfl, hhandle⟩ :=
    (findJob?_eq_some_iff (addressed_restore he.addressed hj).indexed).mp hi
  have hold : e.live.find? k' = some live →
      (handle = j.handle ↔ k' = j.key) ∧ e.findJob? handle = some live.job := fun h =>
    ⟨he.addressed.handle_eq_iff ⟨_, .inl (LiveJobs.held_eq_some h), hhandle⟩ hrecord,
      (findJob?_eq_some_iff he.addressed.indexed).mpr ⟨k', live, h, rfl, hhandle⟩⟩
  rw [live_restore (he.addressed.handle_ne_empty hj)] at hlive
  split at hlive
  · next hin =>
    obtain ⟨hsame, hfind⟩ := hold hlive
    refine ⟨fun hh => he.rested hfind ?_, fun _ => hfind⟩
    -- the job is in its queue already
    obtain ⟨q, hq⟩ := Option.isSome_iff_exists.mp hin
    obtain ⟨live', hlive', hstate, -⟩ :=
      LiveJobs.waiting_eq_some_iff.mp ((he.filed.find?_eq j.functionName j.uniqueId).symm.trans hq)
    obtain rfl : k' = ⟨j.functionName, j.uniqueId⟩ := hsame.mp hh
    obtain rfl := Option.some.inj (hlive'.symm.trans hlive)
    exact hstate
  · rw [LiveJobs.find?_insert] at hlive
    split at hlive
    · obtain rfl := Option.some.inj hlive
      exact ⟨fun _ => rfl, fun hne => absurd hhandle.symm hne⟩
    · next hne =>
      obtain ⟨hsame, hfind⟩ := hold hlive
      exact ⟨fun hh => absurd (hsame.mp hh).symm hne, fun _ => hfind⟩

theorem restore (he : e.InPlace) {k : JobKey} (hj : record? e.store k = some j) :
    (e.restore j).2.InPlace where
  filed := he.filed.restore j
  addressed := addressed_restore he.addressed hj
  rested := by
    intro h i hi hstate
    obtain ⟨hsame, hother⟩ := he.findJob?_restore hj hi
    by_cases hh : h = j.handle
    · exact hsame hh
    · exact he.rested (hother hh) hstate

theorem restoreAll {js : List Job} (he : e.InPlace)
    (hjs : ∀ i ∈ js, ∃ k, record? e.store k = some i) : (e.restoreAll js).2.InPlace ∧
      ∀ {h i}, (e.restoreAll js).2.findJob? h = some i →
        (h ∈ js.map Job.handle → i.renewed = i) ∧
        (h ∉ js.map Job.handle → e.findJob? h = some i) := by
  induction js generalizing e with
  | nil => exact ⟨he, fun hi => ⟨fun h => absurd h List.not_mem_nil, fun _ => hi⟩⟩
  | cons j js ih =>
    obtain ⟨k, hk⟩ := hjs j List.mem_cons_self
    have hstore : (e.restore j).2.store = e.store := (restore_cases e j).1
    obtain ⟨hall, hrest⟩ := ih (he.restore hk) fun i hi =>
      hstore ▸ hjs i (List.mem_cons_of_mem j hi)
    refine ⟨hall, fun {h i} hi => ?_⟩
    obtain ⟨hin, hout⟩ := hrest hi
    rw [List.map_cons, List.mem_cons, not_or]
    by_cases hh : h ∈ js.map Job.handle
    · exact ⟨fun _ => hin hh, fun hnot => absurd hh hnot.2⟩
    · obtain ⟨hsame, hother⟩ := he.findJob?_restore hk (hout hh)
      exact ⟨fun hmem => hsame (hmem.resolve_right hh), fun hnot => hother hnot.1⟩

/-- A load queues the jobs whose records it reads, and leaves others alone. -/
theorem load (hread : ∀ s : σ, record? (JobStore.readAll s).2 = record? s) (he : e.InPlace) :
    e.load.2.InPlace ∧ ∀ {h i}, e.load.2.findJob? h = some i →
      (h ∈ e.loaded.1.map Job.handle → i.renewed = i) ∧
      (h ∉ e.loaded.1.map Job.handle → e.findJob? h = some i) := by
  obtain ⟨store, hstore, hloaded, hbegin, hjobs⟩ := addressed_loaded hread he.addressed
  have hread' : ({ e with store } : Engine σ).InPlace :=
    ⟨{ he.filed with }, hbegin, he.rested⟩
  rw [load_snd, hloaded]
  exact hread'.restoreAll fun j hj => hstore ▸ hjobs j hj

end InPlace

end Records

end Engine

end JobBroker
