import JobBroker.Proofs.Engine.Standing

/-!
# What the status tells

A job is handed to a worker, reports on it come in, and it may be queued again. The engine keeps no
record of this but the state and the progress of the job as they are. They tell the last of it, and
what they tell does not depend on whatever has happened to other jobs meanwhile.

* `Stage`, `stages` : what has happened to the work on the job under a handle.
* `follows_perform` : how a job stands after a deed. `Stage.Explains` : after all of them.
* `recalls_performAll` : what is said of every handle and of every unique id.
* `forgets_requeued` : the progress is lost when a job is queued again.
-/

namespace JobBroker

open Text (decimal)

open RecordStore (record?)

/-! ### What has happened to a job -/

/-- What matters to the status of a job. -/
inductive Stage
  /-- The job is handed to a worker. -/
  | handed
  /-- The job is queued again, as its worker has left, or as its record is taken up. -/
  | requeued
  /-- A report on its progress is accepted. -/
  | reported (numerator denominator : UInt32)
deriving DecidableEq, Repr

namespace Stage

variable {ss : List Stage} {s : Stage} {j : Job}

/-- The job was handed to a worker, and was not queued again since. -/
def IsOut (ss : List Stage) : Prop :=
  ∃ past later, ss = past ++ .handed :: later ∧ .requeued ∉ later

theorem isOut_concat : IsOut (ss ++ [s]) ↔ s = .handed ∨ IsOut ss ∧ s ≠ .requeued := by
  constructor
  · rintro ⟨past, later, hsplit, hnot⟩
    rcases List.eq_nil_or_concat' later with rfl | ⟨later, t, rfl⟩
    · obtain ⟨-, rfl⟩ : ss = past ∧ s = .handed := by simpa using hsplit
      exact .inl rfl
    · rw [← List.cons_append, ← List.append_assoc] at hsplit
      obtain ⟨rfl, hs⟩ := List.append_inj' hsplit rfl
      obtain rfl : s = t := by simpa using hs
      exact .inr ⟨⟨past, later, rfl, fun h => hnot (List.mem_append_left _ h)⟩,
        fun h => hnot (List.mem_append_right _ (h ▸ List.mem_singleton_self _))⟩
  · rintro (rfl | ⟨⟨past, later, rfl, hnot⟩, hs⟩)
    · exact ⟨ss, [], rfl, List.not_mem_nil⟩
    · refine ⟨past, later ++ [s], by simp, fun h => ?_⟩
      rcases List.mem_append.mp h with h | h
      · exact hnot h
      · exact hs (List.mem_singleton.mp h).symm

/-- How far the work has come, by the last thing that has happened to the job. -/
def progress (ss : List Stage) : UInt32 × UInt32 :=
  match ss.getLast? with
  | some (.reported n d) => (n, d)
  | _ => (0, 0)

/-- The job stands as it must after what has happened to it. -/
structure Explains (ss : List Stage) (j : Job) : Prop where
  working_iff : j.state = .working ↔ IsOut ss
  progress_eq : (j.numerator, j.denominator) = progress ss

theorem Explains.concat_handed (hstate : j.state = .working)
    (hzero : (j.numerator, j.denominator) = (0, 0)) : Explains (ss ++ [.handed]) j where
  working_iff := iff_of_true hstate (isOut_concat.mpr (.inl rfl))
  progress_eq := by simpa [progress] using hzero

theorem Explains.concat_requeued (hj : j.renewed = j) : Explains (ss ++ [.requeued]) j where
  working_iff := by
    rw [← hj, isOut_concat]
    simp [Job.renewed]
  progress_eq := by
    rw [← hj]
    simp [progress, Job.renewed]

theorem Explains.concat_reported {i : Job} (h : Explains ss i) (hi : i.state = .working)
    (hstate : j.state = .working) {n d : UInt32}
    (hj : (j.numerator, j.denominator) = (n, d)) : Explains (ss ++ [.reported n d]) j where
  working_iff := iff_of_true hstate
    (isOut_concat.mpr (.inr ⟨h.working_iff.mp hi, by simp⟩))
  progress_eq := by simpa [progress] using hj

theorem Explains.nil (hj : j.renewed = j) : Explains [] j where
  working_iff := by
    rw [← hj]
    simp [IsOut, Job.renewed]
  progress_eq := by
    rw [← hj]
    simp [progress, Job.renewed]

theorem Explains.last_report (h : Explains ss j) {past later : List Stage} {n d : UInt32}
    (hss : ss = past ++ .reported n d :: later) (hreport : ∀ n' d', .reported n' d' ∉ later)
    (hhanded : .handed ∉ later) (hrequeued : .requeued ∉ later) :
    (j.numerator, j.denominator) = (n, d) := by
  rw [h.progress_eq, hss]
  cases later with
  | nil => simp [progress]
  | cons s later =>
    cases s with
    | handed => exact absurd List.mem_cons_self hhanded
    | requeued => exact absurd List.mem_cons_self hrequeued
    | reported n' d' => exact absurd List.mem_cons_self (hreport n' d')

theorem Explains.no_report (h : Explains ss j)
    (hnone : ∀ past n d later, ss = past ++ .reported n d :: later →
      .handed ∈ later ∨ .requeued ∈ later) : (j.numerator, j.denominator) = (0, 0) := by
  rw [h.progress_eq, progress]
  split
  · next n d hlast =>
    obtain ⟨past, hss⟩ := List.getLast?_eq_some_iff.mp hlast
    exact (hnone past n d [] hss).elim (absurd · List.not_mem_nil) (absurd · List.not_mem_nil)
  · rfl

end Stage

/-- A status tells what has happened to the job. -/
structure JobStatus.Recalls (s : JobStatus) (ss : List Stage) : Prop where
  /-- The job is running if it was handed to a worker and not queued again since. -/
  isRunning_iff : s.isRunning ↔ ∃ past later, ss = past ++ .handed :: later ∧ .requeued ∉ later
  /-- The last report counts, if the job was neither handed to a worker nor queued again since. -/
  last_report : ∀ past n d later, ss = past ++ .reported n d :: later →
    (∀ n' d', .reported n' d' ∉ later) → .handed ∉ later → .requeued ∉ later →
      (s.numerator, s.denominator) = (n, d)
  no_report : (∀ past n d later, ss = past ++ .reported n d :: later →
    .handed ∈ later ∨ .requeued ∈ later) → (s.numerator, s.denominator) = (0, 0)

theorem Stage.Explains.recalls {ss : List Stage} {j : Job} (h : Explains ss j) :
    j.status.Recalls ss where
  isRunning_iff := by
    refine Iff.trans ?_ h.working_iff
    simp [JobStatus.isRunning, Job.status]
  last_report _ _ _ _ := h.last_report
  no_report := h.no_report

/-! ### What a deed does to a job -/

namespace Engine

variable {σ : Type} {e : Engine σ} {handle : String} {j : Job}

section Deeds

variable {d : Deed σ} {ds : List (Deed σ)} [JobStore σ]

/-- What a deed does to the work on the job under a handle. -/
def stage? (e : Engine σ) (handle : String) : Deed σ → Option Stage
  | .act (.grab id) =>
    if (e.nextJob id).1.map Job.handle = some handle then some .handed else none
  | .act (.disconnect id) =>
    if e.settings.disconnectPolicy = .requeue ∧ handle ∈ e.assigned id ∧
        (e.findJob? handle).map Job.state = some .working then some .requeued
    else none
  | .act (.progress handle' n d) =>
    if handle' = handle ∧ (e.reportProgress handle n d).1 = .ok () then some (.reported n d)
    else none
  | .load => if handle ∈ e.loaded.1.map Job.handle then some .requeued else none
  | _ => none

/-- What some deeds do to the work on the job under a handle, one after the other. -/
def stages (e : Engine σ) (handle : String) : List (Deed σ) → List Stage
  | [] => []
  | d :: ds => (e.stage? handle d).toList ++ (e.perform d).stages handle ds

theorem stages_concat (e : Engine σ) (handle : String) (ds : List (Deed σ)) (d : Deed σ) :
    e.stages handle (ds ++ [d]) =
      e.stages handle ds ++ ((e.performAll ds).stage? handle d).toList := by
  induction ds generalizing e with
  | nil => simp [stages, performAll]
  | cons d' ds ih =>
    rw [List.cons_append, stages, ih, stages, List.append_assoc]
    rfl

/-- How the job under a handle stands after a deed, by what the deed has done to it. -/
inductive Follows (e : Engine σ) (handle : String) (j : Job) : Option Stage → Prop
  | handed : j.state = .working → (j.numerator, j.denominator) = (0, 0) →
    Follows e handle j (some .handed)
  | requeued : j.renewed = j → Follows e handle j (some .requeued)
  | reported {i : Job} {n d : UInt32} : e.findJob? handle = some i → i.state = .working →
    j.state = .working → (j.numerator, j.denominator) = (n, d) →
    Follows e handle j (some (.reported n d))
  | kept : e.findJob? handle = some j → Follows e handle j none
  /-- The job has come under the next handle. -/
  | letIn : handle = e.handles.next.1 → j.renewed = j → Follows e handle j none

omit [JobStore σ] in
theorem Follows.ite {c : Prop} [Decidable c] {s : Stage} (hyes : c → e.Follows handle j (some s))
    (hno : ¬ c → e.Follows handle j none) :
    e.Follows handle j (if c then some s else none) := by
  split
  · next h => exact hyes h
  · next h => exact hno h

variable [RecordStore σ]

section Follows

variable (he : e.InPlace)
include he

theorem follows_grab (id : SessionId) (hl' : (e.nextJob id).2.live.Indexed)
    (hj : (e.nextJob id).2.findJob? handle = some j) :
    e.Follows handle j (e.stage? handle (.act (.grab id))) := by
  have hl := he.addressed.indexed
  rcases live_takeFrom id (e.abilities id) he.filed.toFiled with
    ⟨hnone, hwithin⟩ | ⟨l, k, live, hwithin, hlive, hstate, htaken, hafter⟩
  · have hidle : (e.nextJob id).1.map Job.handle = none := congrArg (Option.map Job.handle) hnone
    have hkept := findJob?_of_within hl hl' hwithin hj
    exact .ite (fun h => nomatch hidle.symm.trans h) fun _ => .kept hkept
  · have hjob : (e.nextJob id).1.map Job.handle = some live.job.handle :=
      congrArg (Option.map Job.handle) htaken
    obtain ⟨k', live', hlive', rfl, rfl⟩ := (findJob?_eq_some_iff hl').mp hj
    have hold := hwithin k live hlive
    rw [show (e.nextJob id).2.live = _ from hafter, LiveJobs.find?_modify] at hlive'
    split at hlive'
    · next hk =>
      subst hk
      rw [hlive, Option.map_some] at hlive'
      obtain rfl := Option.some.inj hlive'
      have hrested : live.job.renewed = live.job :=
        he.rested ((findJob?_eq_some_iff hl).mpr ⟨k, live, hold, rfl, rfl⟩) hstate
      refine .ite (fun _ => .handed rfl ?_) fun h => absurd hjob h
      rw [← hrested]
      rfl
    · next hk =>
      refine .ite (fun h => ?_) fun _ => .kept ((findJob?_eq_some_iff hl).mpr
        ⟨k', live', hwithin k' live' hlive', rfl, rfl⟩)
      have hsame : live.job.handle = live'.job.handle := Option.some.inj (hjob.symm.trans h)
      exact absurd (hl.key_eq hold (hwithin k' live' hlive') hsame) hk

theorem follows_disconnect (id : SessionId) (hl' : (e.disconnect id).live.Indexed)
    (hj : (e.disconnect id).findJob? handle = some j) :
    e.Follows handle j (e.stage? handle (.act (.disconnect id))) := by
  have hl := he.addressed.indexed
  have hsame : (e.depart id).live = e.live := congrArg Core.live (core_depart e id)
  cases hpolicy : e.settings.disconnectPolicy with
  | fail =>
    have hwithin := within_failAll (e.assigned id) (e.depart id) hpolicy
    have hkept := findJob?_of_within hl hl' (hsame ▸ hwithin) hj
    exact .ite (fun h => nomatch hpolicy.symm.trans h.1) fun _ => .kept hkept
  | requeue =>
    have hfind := findJob?_requeueAll (e := e.depart id) (e.assigned id) handle (hsame ▸ hl) hpolicy
    obtain ⟨i, hi, hij⟩ := Option.map_eq_some_iff.mp (hfind.symm.trans hj)
    have hi : e.findJob? handle = some i := by rwa [findJob?, hsame] at hi
    have hworks : (e.findJob? handle).map Job.state = some .working ↔ i.state = .working := by
      rw [hi, Option.map_some, Option.some.injEq]
    refine .ite (fun h => ?_) fun h => ?_
    · rw [if_pos ⟨h.2.1, hworks.mp h.2.2⟩] at hij
      exact .requeued (hij ▸ rfl)
    · rw [if_neg fun h' => h ⟨hpolicy, h'.1, hworks.mpr h'.2⟩] at hij
      exact .kept (hij ▸ hi)

theorem follows_progress (h : String) (n d : UInt32)
    (hj : (e.reportProgress h n d).2.findJob? handle = some j) :
    e.Follows handle j (e.stage? handle (.act (.progress h n d))) := by
  cases hworks : e.jobInState h .working with
  | error err =>
    have hsame : e.reportProgress h n d = (.error err, e) := by simp [reportProgress, hworks]
    rw [hsame] at hj
    refine .ite ?_ fun _ => .kept hj
    rintro ⟨rfl, hok⟩
    exact absurd ((congrArg Prod.fst hsame).symm.trans hok) (by simp)
  | ok live =>
    obtain ⟨k, hkey, hlive, hstate⟩ := find?_of_jobInState hworks
    obtain rfl : live.job.key = k := he.filed.key_eq hlive
    have hmodified : (e.reportProgress h n d).2.live = e.live.modify live.job.key fun l =>
        { l with job := { l.job with numerator := n, denominator := d } } := by
      simp only [reportProgress, hworks]
      rfl
    have hok : (e.reportProgress h n d).1 = .ok () := by simp [reportProgress, hworks]
    rw [findJob?_of_modify he.addressed.indexed hkey
      (g := fun i => { i with numerator := n, denominator := d }) (fun _ => rfl) hmodified] at hj
    refine .ite ?_ fun hnot => ?_
    · rintro ⟨rfl, -⟩
      have hfind := findJob?_of_jobInState hworks
      obtain rfl : _ = j := by simpa [hfind] using hj
      exact .reported hfind hstate hstate rfl
    · rw [if_neg fun hh => hnot ⟨hh, hh ▸ hok⟩] at hj
      exact .kept hj

theorem follows_submit (i : Job) (client : Option SessionId)
    (hl' : (e.submit i client).2.live.Indexed)
    (hj : (e.submit i client).2.findJob? handle = some j) : e.Follows handle j none := by
  have hl := he.addressed.indexed
  have htaken := taken_submit e i client
  generalize hcore : (e.submit i client).2.core = c' at htaken
  generalize (e.submit i client).1 = answer at htaken
  have hlive : (e.submit i client).2.live = c'.live := congrArg Core.live hcore
  cases htaken with
  | joined _ => exact .kept (findJob?_of_within hl hl' (.of_eq hlive) hj)
  | refused _ => exact .kept (findJob?_of_within hl hl' (.of_eq hlive) hj)
  | letIn _ hnew _ =>
    obtain ⟨k, live, hk, rfl, hhandle⟩ := (findJob?_eq_some_iff hl').mp hj
    rw [hlive, LiveJobs.find?_insert] at hk
    split at hk
    · obtain rfl := Option.some.inj hk
      rw [hnew] at hhandle ⊢
      exact .letIn hhandle.symm rfl
    · exact .kept ((findJob?_eq_some_iff hl).mpr ⟨k, live, hk, rfl, hhandle⟩)

theorem follows_perform (hread : ∀ s : σ, record? (JobStore.readAll s).2 = record? s)
    (hl' : (e.perform d).live.Indexed) (hj : (e.perform d).findJob? handle = some j) :
    e.Follows handle j (e.stage? handle d) := by
  have hkept : (e.perform d).live.Within e.live → e.Follows handle j none := fun h =>
    .kept (findJob?_of_within he.addressed.indexed hl' h hj)
  have hsame : (e.perform d).core = e.core → e.Follows handle j none := fun h =>
    hkept (.of_eq (congrArg Core.live h))
  cases d with
  | load =>
    obtain ⟨hin, hout⟩ := (he.load hread).2 hj
    exact .ite (fun h => .requeued (hin h)) fun h => .kept (hout h)
  | act a =>
    cases a with
    | arrive peer => exact hsame rfl
    | connect id => exact hsame (core_connect e id)
    | disconnect id => exact follows_disconnect he id hl' hj
    | setClientId id clientId => exact hsame rfl
    | wantExceptions id wants => exact hsame rfl
    | canDo id f timeout => exact hsame (core_addAbility e id f timeout)
    | cantDo id f => exact hsame (core_removeAbility e id f)
    | resetAbilities id => exact hsame (core_resetAbilities e id)
    | sleep id => exact hsame (core_sleep e id)
    | wake id => exact hsame (core_wake e id)
    | grab id => exact follows_grab he id hl' hj
    | submit i client => exact follows_submit he i client hl' hj
    | finish h o => exact hkept (within_finish e h o)
    | progress h n d => exact follows_progress he h n d hj
    | data h data => exact hsame (core_reportData e h data)
    | warning h data => exact hsame (core_reportWarning e h data)
    | remove h => exact hkept (within_remove he.filed h)
    | setMaxQueue f size => exact hkept (.refl _)
    | hear event => exact hkept (within_hear e event)
    | setClock now => exact hsame rfl
    | elapse seconds => exact hsame rfl
    | alterStore change => exact hkept (.refl _)

end Follows

omit [JobStore σ] [RecordStore σ] in
theorem Follows.rested {o : Option Stage} (h : e.Follows handle j o)
    (he : ∀ {i}, e.findJob? handle = some i → i.state = .queued → i.renewed = i)
    (hstate : j.state = .queued) : j.renewed = j := by
  cases h with
  | handed hworks _ | reported _ _ hworks _ => exact nomatch hworks.symm.trans hstate
  | requeued hj | letIn _ hj => exact hj
  | kept hj => exact he hj hstate

/-- Something is done only to jobs that are live or on record. -/
theorem calls_of_stage? (hread : ∀ s : σ, record? (JobStore.readAll s).2 = record? s)
    (he : e.InPlace) {n : Stage} (h : e.stage? handle d = some n) :
    ∃ k, e.core.Calls k handle := by
  unfold stage? at h
  split at h
  · next id =>
    obtain ⟨htaken, -⟩ := Option.ite_none_right_eq_some.mp h
    obtain ⟨i, hi, rfl⟩ := Option.map_eq_some_iff.mp htaken
    rcases live_takeFrom id (e.abilities id) he.filed.toFiled with
      ⟨hnone, -⟩ | ⟨l, k, live, hwithin, hlive, -, hjob, -⟩
    · exact nomatch hi.symm.trans hnone
    · obtain rfl := Option.some.inj (hjob.symm.trans hi)
      exact ⟨k, live.job.renewed, .inl (LiveJobs.held_eq_some (hwithin k live hlive)), rfl⟩
  · next id =>
    obtain ⟨⟨-, -, hworks⟩, -⟩ := Option.ite_none_right_eq_some.mp h
    obtain ⟨i, hi, -⟩ := Option.map_eq_some_iff.mp hworks
    exact he.calls_of_findJob? hi
  · next n d =>
    obtain ⟨⟨rfl, hok⟩, -⟩ := Option.ite_none_right_eq_some.mp h
    unfold reportProgress at hok
    split at hok
    · exact nomatch hok
    · next live hlive =>
      obtain ⟨k, hkey, -⟩ := find?_of_jobInState hlive
      obtain ⟨i, hi, hhandle⟩ := (he.addressed.indexed _ k).mp hkey
      exact ⟨k, i, .inl hi, hhandle⟩
  · obtain ⟨hmem, -⟩ := Option.ite_none_right_eq_some.mp h
    obtain ⟨i, hi, rfl⟩ := List.mem_map.mp hmem
    obtain ⟨-, -, -, -, hjobs⟩ := addressed_loaded hread he.addressed
    obtain ⟨k, hk⟩ := hjobs i hi
    exact ⟨i.key, he.addressed.calls_of_record hk⟩
  · exact nomatch h

end Deeds

/-! ### Runs -/

section Runs

variable [JobStore σ] [RecordStore σ] (settings : EngineSettings) {store : σ} (now : Int64)
  (newId : Nat → String) (isLinked : Bool) {ds ds' : List (Deed σ)}

theorem Alone.of_append (h : Alone store (ds ++ ds')) : Alone store ds where
  empty := h.empty
  read := h.read
  kept change hc := h.kept change (List.mem_append_left ds' hc)
  room := by
    have hroom := h.room
    rw [List.countP_append] at hroom
    omega

theorem Alone.addressed (h : Alone store ds) :
    ((start settings store now newId isLinked).performAll ds).core.Addressed := by
  have hroom := h.room
  have hlast : (start settings store now newId isLinked).handles.last.toNat = 0 := rfl
  exact (addressed_performAll h.read h.kept (addressed_start settings now newId isLinked h.empty)
    (Filed.start settings store now newId isLinked) (by omega)).1

theorem Alone.inPlace (h : Alone store ds) :
    ((start settings store now newId isLinked).performAll ds).InPlace := by
  induction ds using List.reverseRecOn with
  | nil =>
    exact ⟨.start .., addressed_start settings now newId isLinked h.empty, fun hi => nomatch hi⟩
  | append_singleton ds d ih =>
    have he := ih h.of_append
    have haddressed := h.addressed settings now newId isLinked
    refine ⟨(Filed.start ..).performAll _, haddressed, fun hi hstate => ?_⟩
    rw [performAll_concat] at hi haddressed
    exact (follows_perform he h.read haddressed.indexed hi).rested he.rested hstate

/-- Whatever has happened under a handle, the handle was that of a job by then. -/
theorem calls_of_mem_stages (h : Alone store ds) {n : Stage}
    (hn : n ∈ (start settings store now newId isLinked).stages handle ds) :
    ∃ past later k, ds = past ++ later ∧
      ((start settings store now newId isLinked).performAll past).core.Calls k handle := by
  induction ds using List.reverseRecOn with
  | nil => exact absurd hn List.not_mem_nil
  | append_singleton ds d ih =>
    rw [stages_concat, List.mem_append, Option.mem_toList] at hn
    rcases hn with hn | hn
    · obtain ⟨past, later, k, rfl, hcalls⟩ := ih h.of_append hn
      exact ⟨past, later ++ [d], k, List.append_assoc .., hcalls⟩
    · obtain ⟨k, hcalls⟩ := calls_of_stage? h.read (h.of_append.inPlace ..) hn
      exact ⟨ds, [d], k, rfl, hcalls⟩

/-- A job stands as it must after what has happened to it. -/
theorem explains_performAll (h : Alone store ds)
    (hj : ((start settings store now newId isLinked).performAll ds).findJob? handle = some j) :
    Stage.Explains ((start settings store now newId isLinked).stages handle ds) j := by
  induction ds using List.reverseRecOn generalizing j with
  | nil => exact nomatch hj
  | append_singleton ds d ih =>
    have haddressed := h.addressed settings now newId isLinked
    rw [performAll_concat] at hj haddressed
    have hfollows := follows_perform (h.of_append.inPlace ..) h.read haddressed.indexed hj
    rw [stages_concat]
    generalize ((start settings store now newId isLinked).performAll ds).stage? handle d = o
      at hfollows
    cases hfollows with
    | handed hstate hzero => exact .concat_handed hstate hzero
    | requeued hnew => exact .concat_requeued hnew
    | reported hi hworks hstate hprogress =>
      exact (ih h.of_append hi).concat_reported hworks hstate hprogress
    | kept hi =>
      rw [Option.toList_none, List.append_nil]
      exact ih h.of_append hi
    | letIn hnext hnew =>
      -- nothing has happened under a handle that comes next
      have hnone : (start settings store now newId isLinked).stages handle ds = [] := by
        refine List.eq_nil_iff_forall_not_mem.mpr fun n hn => ?_
        obtain ⟨past, later, k, rfl, hcalls⟩ :=
          calls_of_mem_stages settings now newId isLinked h.of_append hn
        exact ne_next_of_calls settings now newId isLinked h.of_append hcalls hnext
      rw [hnone]
      exact .nil hnew

/-! ### What is said of a job -/

omit [JobStore σ] [RecordStore σ]

theorem exists_findJob?_of_called (hl : e.live.Indexed) {s : JobState} (h : e.Called handle s) :
    ∃ i, e.findJob? handle = some i ∧ e.status handle = i.status := by
  obtain ⟨k, live, hlive, hhandle, rfl⟩ := h
  have hfind := (findJob?_eq_some_iff hl).mpr ⟨k, live, hlive, rfl, hhandle⟩
  exact ⟨live.job, hfind, by rw [status, hfind]; rfl⟩

theorem status_unknown_iff (hl : e.live.Indexed) (handle : String) :
    e.status handle = .unknown handle ↔ ∀ s, ¬ e.Called handle s := by
  constructor
  · intro h s hs
    obtain ⟨i, -, hstatus⟩ := exists_findJob?_of_called hl hs
    exact nomatch congrArg JobStatus.state (hstatus.symm.trans h)
  · intro h
    cases hfind : e.findJob? handle with
    | none => simp [status, hfind]
    | some i =>
      obtain ⟨k, live, hlive, rfl, hhandle⟩ := (findJob?_eq_some_iff hl).mp hfind
      exact absurd ⟨k, live, hlive, hhandle, rfl⟩ (h live.job.state)

/-- What is said of a unique id: that no live job has it, or it is all about one that has. -/
structure PicksOne (e : Engine σ) (u : String) : Prop where
  unknown_iff : e.statusOfUnique u = (.unknown "", 0) ↔
    ∀ k live, e.live.find? k = some live → live.job.uniqueId ≠ u
  about_one : e.statusOfUnique u ≠ (.unknown "", 0) → ∃ k live, e.live.find? k = some live ∧
    live.job.uniqueId = u ∧
      e.statusOfUnique u = (e.status live.job.handle, (e.waiters k).length)

theorem picksOne (he : e.Filed) (hl : e.live.Indexed) (u : String) : e.PicksOne u := by
  cases hfind : e.live.toList.find? (·.job.uniqueId = u) with
  | none =>
    have hunknown : e.statusOfUnique u = (.unknown "", 0) := by simp only [statusOfUnique, hfind]
    refine ⟨iff_of_true hunknown fun k live hlive hu => ?_, fun hne => absurd hunknown hne⟩
    obtain rfl : live.job.key = k := he.key_eq hlive
    have hmem := (mem_live_iff he).mpr hlive
    exact List.find?_eq_none.mp hfind live hmem (decide_eq_true hu)
  | some live =>
    have hlive := (mem_live_iff he).mp (List.mem_of_find?_eq_some hfind)
    have hu : live.job.uniqueId = u := by simpa using List.find?_some hfind
    have hanswer : e.statusOfUnique u = (live.job.status, (e.waiters live.job.key).length) := by
      simp only [statusOfUnique, hfind]
    have hstatus : e.status live.job.handle = live.job.status := by
      rw [status, (findJob?_eq_some_iff hl).mpr ⟨_, live, hlive, rfl, rfl⟩]
      rfl
    refine ⟨iff_of_false (fun hunknown => ?_) fun hnone => hnone _ live hlive hu,
      fun _ => ⟨live.job.key, live, hlive, hu, hstatus.symm ▸ hanswer⟩⟩
    exact nomatch congrArg (·.1.state) (hanswer.symm.trans hunknown)

variable [JobStore σ] [RecordStore σ]

/-- Whatever was done to an engine that started over an empty store: what it says of a handle
follows from what was done to the job, and what it says of a unique id is about one job. -/
theorem recalls_performAll (h : Alone store ds) (handle u : String) :
    let e := (start settings store now newId isLinked).performAll ds
    (e.status handle = .unknown handle ↔ ∀ s, ¬ e.Called handle s) ∧
      (∀ s, e.Called handle s →
        (e.status handle).Recalls ((start settings store now newId isLinked).stages handle ds)) ∧
      e.PicksOne u := by
  intro e
  have he : e.InPlace := h.inPlace settings now newId isLinked
  have hl := he.addressed.indexed
  refine ⟨status_unknown_iff hl handle, fun s hs => ?_, picksOne he.filed hl u⟩
  obtain ⟨i, hi, hstatus⟩ := exists_findJob?_of_called hl hs
  rw [hstatus]
  exact (explains_performAll settings now newId isLinked h hi).recalls

/-- A worker leaves its job after two reports, and another one goes on with it. Another job has the
same unique id. -/
theorem recalls_performAll_two_workers :
    let ds : List (Deed MemoryStore) :=
      [.load, .act (.arrive "1.1.1.1:1"), .act (.connect 0), .act (.arrive "1.1.1.1:2"),
        .act (.connect 1), .act (.canDo 0 "f" none), .act (.canDo 1 "f" none),
        .act (.submit (.new "f" "u" []) (some 1)), .act (.submit (.new "g" "u" []) none),
        .act (.grab 0), .act (.progress "H:localhost:1" 1 4),
        .act (.progress "H:localhost:1" 2 4), .act (.disconnect 0), .act (.grab 1),
        .act (.alterStore (·.erase ⟨"f", "u"⟩)), .act (.progress "H:localhost:1" 3 4),
        .act (.progress "H:localhost:2" 1 2)]
    let e₀ := start EngineSettings.default MemoryStore.empty 0 decimal true
    let e := e₀.performAll ds
    e₀.stages "H:localhost:1" ds =
        [.handed, .reported 1 4, .reported 2 4, .requeued, .handed, .reported 3 4] ∧
      e.Called "H:localhost:1" .working ∧
      (e.status "H:localhost:1").Recalls (e₀.stages "H:localhost:1" ds) ∧ e.PicksOne "u" ∧
      e.status "H:localhost:1" = ⟨"H:localhost:1", some .working, 3, 4⟩ ∧
      e.status "H:localhost:2" = ⟨"H:localhost:2", some .queued, 0, 0⟩ ∧
      e.statusOfUnique "u" = (e.status "H:localhost:1", 1) := by
  intro ds e₀ e
  have halone : Alone MemoryStore.empty ds := by
    refine ⟨fun _ => rfl, fun _ => rfl, fun change hmem s k j hj => ?_, by decide⟩
    obtain rfl : change = (·.erase ⟨"f", "u"⟩) := by simpa [ds] using hmem
    have hj : (s.erase ⟨"f", "u"⟩).find? k = some j := hj
    rw [MemoryStore.find?_erase] at hj
    split at hj
    · exact absurd hj (by simp)
    · exact hj
  obtain ⟨-, hknown, hone⟩ :=
    recalls_performAll EngineSettings.default 0 decimal true halone "H:localhost:1" "u"
  have hcalled : e.Called "H:localhost:1" .working := by
    refine ⟨⟨"f", "u"⟩, (e.live.find? ⟨"f", "u"⟩).get (by decide +kernel), ?_, ?_, ?_⟩ <;>
      decide +kernel
  exact ⟨by decide +kernel, hcalled, hknown _ hcalled, hone, by decide +kernel,
    by decide +kernel, by decide +kernel⟩

/-- A job that is queued again has lost the last report since it was handed to a worker. -/
theorem forgets_requeued :
    let ds : List (Deed MemoryStore) :=
      [.act (.arrive "1.1.1.1:1"), .act (.connect 0), .act (.canDo 0 "f" none),
        .act (.submit (.new "f" "u" []) none), .act (.grab 0),
        .act (.progress "H:localhost:1" 3 10), .act (.disconnect 0)]
    let e₀ := start EngineSettings.default MemoryStore.empty 0 decimal false
    let status := (e₀.performAll ds).status "H:localhost:1"
    status = ⟨"H:localhost:1", some .queued, 0, 0⟩ ∧
      e₀.stages "H:localhost:1" ds = [.handed, .reported 3 10, .requeued] ∧
      ¬ ∀ past n d later, e₀.stages "H:localhost:1" ds = past ++ .reported n d :: later →
        (∀ n' d', .reported n' d' ∉ later) → .handed ∉ later →
          (status.numerator, status.denominator) = (n, d) := by
  intro ds e₀ status
  have hstatus : status = ⟨"H:localhost:1", some .queued, 0, 0⟩ := by decide +kernel
  have hstages : e₀.stages "H:localhost:1" ds = [.handed, .reported 3 10, .requeued] := by
    decide +kernel
  refine ⟨hstatus, hstages, fun h => ?_⟩
  have hlost := h [.handed] 3 10 [.requeued] hstages (by simp) (by simp)
  rw [hstatus] at hlost
  exact absurd hlost (by decide)

end Runs

end Engine

end JobBroker
