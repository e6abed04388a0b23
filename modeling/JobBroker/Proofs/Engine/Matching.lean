import JobBroker.Proofs.Engine.ByHandle
import JobBroker.Proofs.Engine.Holdings

/-!
# Matching workers and jobs

A worker that asks for work gets it from the first of its functions that has any, and from that
function the job that is next at the time. While all records can be read nothing else happens.

* `takeFrom_of_idle`, `takeFrom_of_ready` : the walk over the functions of a worker.
* `pairwise_learned` : a worker's functions stand in the order in which it has learned them.
* `matched_performAll` : what a worker gets, whatever was done before.
-/

namespace JobBroker

open Text (decimal)

open Function (update)
open RecordStore (record?)

namespace Queue

variable {q : Queue} {now : Int64}

theorem Orderly.takeNext_of_idle (hq : q.Orderly) (h : ∀ i ∈ q.toList, ¬ i.isReady now) :
    q.takeNext now = (none, q) := by
  obtain ⟨r, hr⟩ := hq
  have hnone : next? now r.jobs = none := by
    refine Option.not_isSome_iff_eq_none.mp fun hsome => ?_
    obtain ⟨i, hi, hready⟩ := isSome_next?_iff.mp hsome
    exact h i (hr.toList_eq.symm ▸ hi) hready
  have htake := hr.takeNext now
  rwa [hnone] at htake

/-- The next job leaves the queue, and the others stand as before. -/
theorem Orderly.takeNext_of_next? (hq : q.Orderly) {i : QueuedJob}
    (h : next? now q.toList = some i) : ∃ q' : Queue, q.takeNext now = (some i, q') ∧
      q'.Orderly ∧ q'.toList = q.toList.filter (·.uniqueId ≠ i.uniqueId) ∧
      q'.functionName = q.functionName ∧ q'.maxSize = q.maxSize := by
  obtain ⟨r, hr⟩ := hq
  rw [hr.toList_eq] at h ⊢
  have htake := hr.takeNext now
  rw [h] at htake
  obtain ⟨q', hq', hr'⟩ := htake
  exact ⟨q', hq', ⟨_, hr'⟩, hr'.toList_eq.trans (hr.jobs_without i.uniqueId),
    hr'.functionName_eq.trans hr.functionName_eq.symm, hr'.maxSize_eq.trans hr.maxSize_eq.symm⟩

end Queue

namespace Engine

variable {σ : Type} {e : Engine σ} {id : SessionId} {f : String}

/-- A job of the function may be handed out. -/
def Offers (e : Engine σ) (f : String) : Prop :=
  ∃ i ∈ (e.workshop f).queue.toList, i.isReady e.now

theorem offers_iff : e.Offers f ↔ (next? e.now (e.workshop f).queue.toList).isSome :=
  isSome_next?_iff.symm

instance (e : Engine σ) (f : String) : Decidable (e.Offers f) := decidable_of_iff _ offers_iff.symm

/-- The first function that offers a job, and the job that is next of that function. -/
theorem exists_first_offer {fs : List String} (h : ∃ f ∈ fs, e.Offers f) :
    ∃ before f after i, fs = before ++ f :: after ∧ (∀ g ∈ before, ¬ e.Offers g) ∧
      next? e.now (e.workshop f).queue.toList = some i := by
  induction fs with
  | nil => exact absurd h (by simp)
  | cons g fs ih =>
    by_cases hg : e.Offers g
    · obtain ⟨i, hi⟩ := Option.isSome_iff_exists.mp (offers_iff.mp hg)
      exact ⟨[], g, fs, i, rfl, by simp, hi⟩
    · obtain ⟨f, hf, hoffers⟩ := h
      have hrest : ∃ f ∈ fs, e.Offers f := by
        rcases List.mem_cons.mp hf with rfl | hf
        · exact absurd hoffers hg
        · exact ⟨f, hf, hoffers⟩
      obtain ⟨before, f, after, i, rfl, hbefore, hi⟩ := ih hrest
      refine ⟨g :: before, f, after, i, rfl, ?_, hi⟩
      exact List.forall_mem_cons.mpr ⟨hg, hbefore⟩

section Walk

variable [JobStore σ] (hq : ∀ f, (e.workshop f).queue.Orderly)
include hq

/-- A function that offers nothing is passed over. -/
theorem takeFrom_cons_of_idle (h : ¬ e.Offers f) (fs : List String) :
    e.takeFrom id (f :: fs) = e.takeFrom id fs := by
  rw [takeFrom]
  split
  · rfl
  · next w hw =>
    obtain rfl : e.workshop f = w := by rw [workshop, hw, Option.getD_some]
    have htake := (hq f).takeNext_of_idle fun i hi hready => h ⟨i, hi, hready⟩
    simp only [htake, setQueue_self]

theorem takeFrom_of_idle {fs : List String} (h : ∀ f ∈ fs, ¬ e.Offers f) :
    e.takeFrom id fs = (none, e) := by
  induction fs with
  | nil => rfl
  | cons f fs ih =>
    obtain ⟨hf, hfs⟩ := List.forall_mem_cons.mp h
    rw [takeFrom_cons_of_idle hq hf, ih hfs]

end Walk

theorem assign_of_live {k : JobKey} {live : LiveJob} (h : e.live.find? k = some live)
    (record : Job) (id : SessionId) : e.assign k record id =
      ({ live.job with state := .working },
        { e with
          live := e.live.modify k fun _ => ⟨{ live.job with state := .working }, some id⟩ }
            |>.modifySession id (·.assign live.job.handle)) := by
  simp only [assign, h, Option.isSome_some, if_true]
  rfl

/-- The job `j`, which was queued as `i` in the queue of `f`, is handed to a session: it leaves the
queue, is worked on and belongs to the session, and nothing else happens. -/
structure Hands [JobStore σ] (e : Engine σ) (id : SessionId) (f : String) (i : QueuedJob) (j : Job)
    (e' : Engine σ) : Prop where
  key_eq : j.key = ⟨f, i.uniqueId⟩
  summary_eq : j.summary = i
  was : ∃ worker, e.live.find? j.key = some ⟨j, worker⟩ ∧ j.state = .queued
  find?_eq : e'.live.find? =
    update e.live.find? j.key (some ⟨{ j with state := .working }, some id⟩)
  keys_eq : e'.live.keys = e.live.keys
  session?_eq : ∀ k, e'.session? k =
    if id = k then (e.session? id).map (·.assign j.handle) else e.session? k
  workshop?_eq : ∃ q : Queue, q.Orderly ∧
    q.toList = (e.workshop f).queue.toList.filter (·.uniqueId ≠ i.uniqueId) ∧
    q.functionName = f ∧ q.maxSize = (e.workshop f).queue.maxSize ∧
    ∀ g, e'.workshop? g =
      if f = g then (e.workshop? g).map fun w => { w with queue := q } else e.workshop? g
  store_eq : e'.store = (JobStore.find j.key e.store).2
  rest_eq : e' = { e with
    workshops := e'.workshops, live := e'.live, sessions := e'.sessions, store := e'.store }

variable [JobStore σ]

/-- The record of every queued job can be read. -/
def Readable (e : Engine σ) : Prop :=
  ∀ f, ∀ i ∈ (e.workshop f).queue.toList,
    ∃ record store, JobStore.find ⟨f, i.uniqueId⟩ e.store = (.ok (some record), store)

theorem takeFrom_cons_of_next? (he : e.Filed) (hnamed : e.core.Named)
    (hq : (e.workshop f).queue.Orderly) (hread : e.Readable) {i : QueuedJob}
    (hi : next? e.now (e.workshop f).queue.toList = some i) (fs : List String) :
    ∃ j e', e.takeFrom id (f :: fs) = (some { j with state := .working }, e') ∧
      e.Hands id f i j e' := by
  have hmem := mem_of_next? hi
  obtain ⟨live, hlive, hstate, hsummary⟩ :=
    LiveJobs.waiting_eq_some_iff.mp ((he.mem_toList_iff hq).mp hmem)
  have hkey : live.job.key = ⟨f, i.uniqueId⟩ := he.key_eq hlive
  obtain ⟨w, hw⟩ := Option.isSome_iff_exists.mp
    (he.known (k := ⟨f, i.uniqueId⟩) (Option.isSome_of_eq_some hlive))
  obtain rfl : e.workshop f = w := by rw [workshop, show e.workshop? f = _ from hw]; rfl
  obtain ⟨q, htake, horderly, hlist, hname, hmaxSize⟩ := hq.takeNext_of_next? hi
  have hname : q.functionName = f := hname.trans (hnamed f)
  obtain ⟨record, store, hfind⟩ := hread f i hmem
  have hresolve : q.resolve i e.store = (some record, store) := by
    rw [Queue.resolve, hname, hfind]
  have hqueued : i.key = ⟨f, i.uniqueId⟩ := by
    rw [← hsummary, Job.key_summary, hkey, hsummary]
  have hassign := assign_of_live (e := { e.setQueue f q with store }) hlive record id
  have htaken : e.takeFrom id (f :: fs) = (some { live.job with state := .working },
      ({ e.setQueue f q with
        store
        live := e.live.modify ⟨f, i.uniqueId⟩ fun _ =>
          ⟨{ live.job with state := .working }, some id⟩ } : Engine σ).modifySession id
        (·.assign live.job.handle)) := by
    rw [takeFrom, show e.workshop? f = _ from hw]
    simp only [htake, hresolve, hqueued, hassign]
    rfl
  refine ⟨live.job, _, htaken, ?_⟩
  exact {
      key_eq := hkey
      summary_eq := hsummary
      was := ⟨live.worker, hkey.symm ▸ hlive, hstate⟩
      find?_eq := by
        funext k
        show (e.live.modify _ _).find? k = _
        rw [LiveJobs.find?_modify, Function.update_apply, hkey]
        split
        · next hk => rw [if_pos hk.symm, ← hk, hlive]; rfl
        · next hk => rw [if_neg (Ne.symm hk)]
      keys_eq := rfl
      session?_eq := fun k => session?_modifySession _ id k _
      workshop?_eq :=
        ⟨q, horderly, hlist, hname, hmaxSize, fun g => workshop?_modifyWorkshop e f g _⟩
      store_eq := by
        rw [hkey, hfind]
        rfl
      rest_eq := rfl }

theorem takeFrom_of_ready (he : e.Filed) (hnamed : e.core.Named)
    (hq : ∀ f, (e.workshop f).queue.Orderly) (hread : e.Readable) {before after : List String}
    (hbefore : ∀ g ∈ before, ¬ e.Offers g) {i : QueuedJob}
    (hi : next? e.now (e.workshop f).queue.toList = some i) :
    ∃ j e', e.takeFrom id (before ++ f :: after) = (some { j with state := .working }, e') ∧
      e.Hands id f i j e' := by
  induction before with
  | nil => exact takeFrom_cons_of_next? he hnamed (hq f) hread hi after
  | cons g before ih =>
    obtain ⟨hg, hbefore⟩ := List.forall_mem_cons.mp hbefore
    rw [List.cons_append, takeFrom_cons_of_idle hq hg]
    exact ih hbefore

/-- What a worker gets that asks for work. -/
structure Matched (e : Engine σ) (id : SessionId) : Prop where
  none_iff : (e.nextJob id).1 = none ↔ ∀ f ∈ e.abilities id, ¬ e.Offers f
  idle : (e.nextJob id).1 = none → (e.nextJob id).2 = e
  hands : (∃ f ∈ e.abilities id, e.Offers f) → ∃ before f after i j,
    e.abilities id = before ++ f :: after ∧ (∀ g ∈ before, ¬ e.Offers g) ∧
      next? e.now (e.workshop f).queue.toList = some i ∧
      (e.nextJob id).1 = some { j with state := .working } ∧ e.Hands id f i j (e.nextJob id).2

theorem matched (he : e.Filed) (hnamed : e.core.Named)
    (hq : ∀ f, (e.workshop f).queue.Orderly) (hread : e.Readable) (id : SessionId) :
    e.Matched id := by
  have hnone : (∀ f ∈ e.abilities id, ¬ e.Offers f) → e.nextJob id = (none, e) := fun h =>
    takeFrom_of_idle hq h
  have hsome : (∃ f ∈ e.abilities id, e.Offers f) → ∃ before f after i j,
      e.abilities id = before ++ f :: after ∧ (∀ g ∈ before, ¬ e.Offers g) ∧
        next? e.now (e.workshop f).queue.toList = some i ∧
        (e.nextJob id).1 = some { j with state := .working } ∧
        e.Hands id f i j (e.nextJob id).2 := by
    intro hoffers
    obtain ⟨before, f, after, i, hsplit, hbefore, hi⟩ := exists_first_offer hoffers
    obtain ⟨j, e', htaken, hhands⟩ : ∃ j e', e.takeFrom id (before ++ f :: after) =
        (some { j with state := .working }, e') ∧ e.Hands id f i j e' :=
      takeFrom_of_ready he hnamed hq hread hbefore hi
    have hnext : e.nextJob id = (some { j with state := .working }, e') := by
      rw [nextJob, hsplit, htaken]
    exact ⟨before, f, after, i, j, hsplit, hbefore, hi, congrArg Prod.fst hnext, hnext ▸ hhands⟩
  have hiff : (e.nextJob id).1 = none ↔ ∀ f ∈ e.abilities id, ¬ e.Offers f := by
    refine ⟨fun h => ?_, fun h => congrArg Prod.fst (hnone h)⟩
    by_contra hoffers
    push Not at hoffers
    obtain ⟨_, _, _, _, _, -, -, -, hjob, -⟩ := hsome hoffers
    exact absurd (h.symm.trans hjob) (by simp)
  exact ⟨hiff, fun h => congrArg Prod.snd (hnone (hiff.mp h)), hsome⟩

/-! ### The order of a worker's functions -/

/-- What one deed does to what a session can do: it learns a function that it could not do, or it
learns nothing and keeps the order. -/
theorem abilities_perform (e : Engine σ) (d : Deed σ) (id : SessionId) :
    (∃ f timeout, d = .act (.canDo id f timeout) ∧ f ∉ e.abilities id ∧
        (e.perform d).abilities id = e.abilities id ++ [f]) ∨
      ((e.perform d).abilities id).Sublist (e.abilities id) := by
  have hsame : (e.perform d).abilities id = e.abilities id →
      ((e.perform d).abilities id).Sublist (e.abilities id) := fun h => h ▸ List.Sublist.refl _
  cases d with
  | load =>
    refine .inr (hsame ?_)
    rw [abilities, session?, show (e.perform .load).sessions = _ from sessions_load e]
    rfl
  | act a =>
    cases hstaffs : a.staffs with
    | false => exact .inr (hsame ((SameCrews.act e hstaffs).abilities id))
    | true =>
      cases a with
      | arrive peer =>
        refine .inr ?_
        rw [abilities, show (e.perform (.act (.arrive peer))).session? id = _ from
          session?_newSession e peer id]
        split
        · exact List.nil_sublist _
        · exact .refl _
      | connect i =>
        refine .inr (hsame ?_)
        show (e.connect i).abilities id = _
        unfold connect
        split <;> rfl
      | disconnect i =>
        refine .inr ?_
        rw [show (e.perform (.act (.disconnect i))).abilities id = _ from
          abilities_disconnect e i id]
        split
        · exact List.nil_sublist _
        · exact .refl _
      | canDo i f timeout =>
        have hable : (e.perform (.act (.canDo i f timeout))).abilities id = _ :=
          abilities_addAbility e i f timeout id
        split at hable
        · next h =>
          obtain ⟨rfl, -, hf⟩ := h
          exact .inl ⟨f, timeout, rfl, hf, hable⟩
        · exact .inr (hsame hable)
      | cantDo i f =>
        refine .inr ?_
        rw [show (e.perform (.act (.cantDo i f))).abilities id = _ from
          abilities_removeAbility e i f id]
        split
        · exact List.filter_sublist
        · exact .refl _
      | resetAbilities i =>
        refine .inr ?_
        rw [show (e.perform (.act (.resetAbilities i))).abilities id = _ from
          abilities_resetAbilities e i id]
        split
        · exact List.nil_sublist _
        · exact .refl _
      | _ => exact absurd hstaffs Bool.false_ne_true

/-- The session could do `f` when it has last learned `g`, and could do both ever since. -/
def LearnedAfter (e : Engine σ) (ds : List (Deed σ)) (id : SessionId) (f g : String) : Prop :=
  ∃ past timeout later, ds = past ++ .act (.canDo id g timeout) :: later ∧
    g ∉ (e.performAll past).abilities id ∧ f ∈ (e.performAll past).abilities id ∧
    ∀ n ≤ later.length,
      f ∈ (e.performAll (past ++ .act (.canDo id g timeout) :: later.take n)).abilities id ∧
      g ∈ (e.performAll (past ++ .act (.canDo id g timeout) :: later.take n)).abilities id

theorem performAll_concat (e : Engine σ) (ds : List (Deed σ)) (d : Deed σ) :
    e.performAll (ds ++ [d]) = (e.performAll ds).perform d :=
  List.foldl_append

theorem LearnedAfter.concat {ds : List (Deed σ)} {f g : String} (h : e.LearnedAfter ds id f g)
    {d : Deed σ} (hf : f ∈ (e.performAll (ds ++ [d])).abilities id)
    (hg : g ∈ (e.performAll (ds ++ [d])).abilities id) : e.LearnedAfter (ds ++ [d]) id f g := by
  obtain ⟨past, timeout, later, rfl, hnew, hold, hsince⟩ := h
  rw [List.append_assoc, List.cons_append] at hf hg
  refine ⟨past, timeout, later ++ [d], by simp, hnew, hold, fun n hn => ?_⟩
  rcases Nat.lt_or_ge later.length n with hlt | hle
  · have hall : (later ++ [d]).take n = later ++ [d] :=
      List.take_of_length_le (by rw [List.length_append]; exact hlt)
    rw [hall]
    exact ⟨hf, hg⟩
  · rw [List.take_append_of_le_length hle]
    exact hsince n hle

/-- The functions of a session stand in the order in which it has learned them. -/
theorem pairwise_learned (ds : List (Deed σ)) (h : e.abilities id = []) :
    ((e.performAll ds).abilities id).Pairwise (e.LearnedAfter ds id) := by
  induction ds using List.reverseRecOn with
  | nil =>
    rw [show e.performAll [] = e from rfl, h]
    exact .nil
  | append_singleton ds d ih =>
    have hkept : ∀ fs : List String, fs.Sublist ((e.performAll ds).abilities id) →
        (∀ f ∈ fs, f ∈ (e.performAll (ds ++ [d])).abilities id) →
        fs.Pairwise (e.LearnedAfter (ds ++ [d]) id) := fun fs hsub hmem =>
      (ih.sublist hsub).imp_of_mem fun hf hg hlearned =>
        hlearned.concat (hmem _ hf) (hmem _ hg)
    rcases abilities_perform (e.performAll ds) d id with ⟨g, timeout, rfl, hnew, hable⟩ | hsub
    · have hmem : ∀ f ∈ (e.performAll ds).abilities id ++ [g],
          f ∈ (e.performAll (ds ++ [.act (.canDo id g timeout)])).abilities id := by
        rw [performAll_concat, hable]
        exact fun f hf => hf
      rw [performAll_concat, hable, List.pairwise_append]
      refine ⟨hkept _ (.refl _) fun f hf => hmem f (List.mem_append_left _ hf),
        List.pairwise_singleton _ _, fun f hf g' hg' => ?_⟩
      obtain rfl := List.mem_singleton.mp hg'
      refine ⟨ds, timeout, [], rfl, hnew, hf, fun n hn => ?_⟩
      rw [List.take_nil]
      exact ⟨hmem f (List.mem_append_left _ hf), hmem _ (List.mem_append_right _ hg')⟩
    · refine hkept _ ?_ fun f hf => hf
      rw [performAll_concat]
      exact hsub

/-- Whatever was done to an engine since it started, as long as the records of the queued jobs can
be read: a worker that asks for work gets nothing when none of its functions offers a job, and else
the next job of the first one that does, in the order in which it has learned them. -/
theorem matched_performAll [RecordStore σ] (settings : EngineSettings) (store : σ) (now : Int64)
    (newId : Nat → String) (isLinked : Bool) (ds : List (Deed σ)) (id : SessionId)
    (hread : ((start settings store now newId isLinked).performAll ds).Readable) :
    let e := (start settings store now newId isLinked).performAll ds
    e.Matched id ∧ record? (e.nextJob id).2.store = record? e.store ∧
      (e.abilities id).Pairwise ((start settings store now newId isLinked).LearnedAfter ds id) := by
  intro e
  have hfiled := (Filed.start settings store now newId isLinked).performAll ds
  have hnamed := named_performAll (e := start settings store now newId isLinked) (fun _ => rfl) ds
  have htended := (unmanned_start settings store now newId isLinked).wakeful.toTended
  have hmatched := matched hfiled hnamed (tended_performAll htended ds).orderly hread id
  refine ⟨hmatched, ?_, pairwise_learned ds rfl⟩
  by_cases hoffers : ∃ f ∈ e.abilities id, e.Offers f
  · obtain ⟨_, _, _, _, j, -, -, -, -, hhands⟩ := hmatched.hands hoffers
    rw [hhands.store_eq]
    exact RecordStore.record?_find rfl
  · push Not at hoffers
    rw [hmatched.idle (hmatched.none_iff.mpr hoffers)]

/-- A worker forgets a function and learns it again. The first of its functions has only a job that
is held, the second one a job that has come due, which goes before the others. -/
theorem matched_performAll_relearned :
    let ds : List (Deed MemoryStore) :=
      [.act (.arrive "1.1.1.1:1"), .act (.connect 0), .act (.canDo 0 "h" none),
        .act (.canDo 0 "f" none), .act (.canDo 0 "g" none), .act (.cantDo 0 "h"),
        .act (.canDo 0 "f" (some 5)), .act (.canDo 0 "h" none),
        .act (.submit { Job.new "f" "a" [] with timeToRun := 100 } none),
        .act (.submit { Job.new "g" "b" [] with priority := .low } none),
        .act (.submit (.new "g" "c" []) none),
        .act (.submit { Job.new "g" "d" [] with timeToRun := 20 } none),
        .act (.submit (.new "h" "e" []) none), .load, .act (.setClock 50)]
    let e₀ := start EngineSettings.default MemoryStore.empty 0 decimal true
    let e := e₀.performAll ds
    e.Readable ∧ e.Matched 0 ∧ (e.abilities 0).Pairwise (e₀.LearnedAfter ds 0) ∧
      e.abilities 0 = ["f", "g", "h"] ∧ ¬ e.Offers "f" ∧ e.Offers "g" ∧ e.Offers "h" ∧
      (e.nextJob 0).1.map (·.uniqueId) = some "d" := by
  intro ds e₀ e
  have hrecords : ∀ entry ∈ e.workshops.entries, ∀ i ∈ entry.2.queue.toList,
      (e.store.find? ⟨entry.1, i.uniqueId⟩).isSome := by decide +kernel
  have hread : e.Readable := by
    intro f i hi
    unfold workshop at hi
    cases hw : e.workshop? f with
    | none =>
      rw [hw] at hi
      exact absurd hi List.not_mem_nil
    | some w =>
      rw [hw] at hi
      obtain ⟨record, hrecord⟩ := Option.isSome_iff_exists.mp
        (hrecords (f, w) (Table.get?_eq_some_iff.mp hw) i hi)
      have hfind : JobStore.find ⟨f, i.uniqueId⟩ e.store = (.ok (some record), e.store) :=
        Prod.ext (congrArg Except.ok hrecord) rfl
      exact ⟨record, e.store, hfind⟩
  obtain ⟨hmatched, -, hlearned⟩ :=
    matched_performAll EngineSettings.default MemoryStore.empty 0 decimal true ds 0 hread
  exact ⟨hread, hmatched, hlearned, by decide +kernel, by decide +kernel, by decide +kernel,
    by decide +kernel, by decide +kernel⟩

end Engine

end JobBroker
