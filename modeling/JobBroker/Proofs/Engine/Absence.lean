import JobBroker.Proofs.Engine.Conclusion
import JobBroker.Proofs.Engine.Filed
import JobBroker.Proofs.Engine.GivingUp

/-!
# What a session leaves behind

A session that disconnects may be a client, a worker, or both, of the same job even. Nothing of it
is left anywhere, and the jobs it has worked on are queued again behind the others, or have failed.

* `Gone`, `Spares`, `Requeues`, `Fails` : what becomes of the session, of the jobs it has not worked
  on, and by the two policies of those it has.
* `Leaves` : what is known of an engine before. `Leaves.find?_cases` : a job is left alone, queued
  again or closed, from which the rest is read off.
* `IsRun.departed` : all of it after any run.
-/

namespace JobBroker.Engine

open Text (decimal)

variable {σ : Type} [JobStore σ] {e e' : Engine σ} {id : SessionId}

/-! ### A session disconnects -/

/-- A session works on the job that is live under a key. -/
def WorksOn (e : Engine σ) (id : SessionId) (k : JobKey) (live : LiveJob) : Prop :=
  e.live.find? k = some live ∧ live.worker = some id

/-- Nothing of a session is left. -/
structure Gone (e : Engine σ) (id : SessionId) : Prop where
  not_connected : id ∉ e.connected
  not_worker : ∀ f, id ∉ (e.workshop f).crew.workers
  not_sleeper : ∀ f, id ∉ (e.workshop f).crew.sleepers
  not_waiter : ∀ k, id ∉ e.waiters k
  abilities_eq : e.abilities id = []
  assigned_eq : e.assigned id = []

/-- Between `e` and `e'` a session has gone. It is sent nothing, and jobs on which it has not worked
stay as they are, but that it does not wait for them any more. -/
structure Spares (e : Engine σ) (id : SessionId) (e' : Engine σ) : Prop where
  outbox_eq : e'.outbox id = e.outbox id
  find?_eq : ∀ k, (∀ live, ¬ e.WorksOn id k live) → e'.live.find? k = e.live.find? k
  waiters_eq : ∀ k, (∀ live, ¬ e.WorksOn id k live) →
    e'.waiters k = (e.waiters k).filter (· ≠ id)
  noticesOf_eq : ∀ handle i, (∀ k live, e.WorksOn id k live → live.job.handle ≠ handle) →
    e'.noticesOf handle i = e.noticesOf handle i

/-- The jobs on which a session has worked are queued behind the others, as they were before anybody
worked on them. Nobody is told of an end. -/
structure Requeues (e : Engine σ) (id : SessionId) (e' : Engine σ) : Prop where
  find?_eq : ∀ k live, e.WorksOn id k live → e'.live.find? k = some ⟨live.job.renewed, none⟩
  keyOf?_eq : ∀ k live, e.WorksOn id k live → e'.live.keyOf? live.job.handle = some k
  waiters_eq : ∀ k live, e.WorksOn id k live → e'.waiters k = (e.waiters k).filter (· ≠ id)
  noticesOf_eq : ∀ k live, e.WorksOn id k live → ∀ i,
    e'.noticesOf live.job.handle i = e.noticesOf live.job.handle i
  store_eq : e'.store = e.store
  followed : ∀ f, ∃ back, (e.workshop f).queue.Followed back (e'.workshop f).queue ∧
    back.Nodup ∧ ∀ j, j ∈ back ↔
      ∃ live, e.WorksOn id ⟨f, j.uniqueId⟩ live ∧ live.job.summary = j

/-- The jobs on which a session has worked are live no more. Whoever else has waited for one is told
once that it has failed. Each is deleted from the store once. -/
structure Fails (e : Engine σ) (id : SessionId) (e' : Engine σ) : Prop where
  find?_eq : ∀ k live, e.WorksOn id k live → e'.live.find? k = none
  keyOf?_eq : ∀ k live, e.WorksOn id k live → e'.live.keyOf? live.job.handle = none
  waiters_eq : ∀ k live, e.WorksOn id k live → e'.waiters k = []
  noticesOf_eq : ∀ k live, e.WorksOn id k live → ∀ i,
    e'.noticesOf live.job.handle i = e.noticesOf live.job.handle i ++
      if i ∈ e.waiters k ∧ i ≠ id then [.response (.workFail live.job.handle)] else []
  queue_eq : ∀ f, (e'.workshop f).queue = (e.workshop f).queue
  store_eq : ∃ ks, ks.Nodup ∧ (∀ k, k ∈ ks ↔ ∃ live, e.WorksOn id k live) ∧
    e'.store = (deleteEach ks e.store).2 ∧
    ∀ record? : σ → JobKey → Option Job, DeletesRecords record? →
      ∀ k, (k, .ok ()) ∈ (deleteEach ks e.store).1 → record? e'.store k = none

/-- What is known of an engine on the way to a disconnection. -/
structure Leaves (e : Engine σ) (id : SessionId) : Prop where
  inOrder : e.InOrder
  filed : e.Filed
  crewed : e.Crewed
  tended : e.watch.Tended
  room : e.handles.last < e.handles.last + 1

variable {k : JobKey} {live : LiveJob}

namespace Leaves

variable (he : e.Leaves id)
include he

theorem inOrder' : (e.disconnect id).InOrder := by
  obtain ⟨-, -, -, h⟩ := he.inOrder.act (a := .disconnect id) trivial he.room
  exact h

theorem filed' : (e.disconnect id).Filed := he.filed.act (.disconnect id)

theorem crewed' : (e.disconnect id).Crewed := he.crewed.disconnect id

theorem tended' : (e.disconnect id).watch.Tended := tended_act he.tended (.disconnect id)

theorem gone : (e.disconnect id).Gone id := by
  have hnot : id ∉ (e.disconnect id).connected := by simp [connected_disconnect]
  have hable : (e.disconnect id).abilities id = [] :=
    List.eq_nil_iff_forall_not_mem.mpr fun f hf => hnot (he.crewed'.connected_of_able hf)
  refine ⟨hnot, fun f hid => ?_, fun f hid => ?_, fun k hid => ?_, hable, ?_⟩
  · exact absurd (hable ▸ he.crewed'.mem_workers.mp hid) List.not_mem_nil
  · have hf : f ∈ (e.disconnect id).abilities id := he.tended'.able_of_listed hid
    exact absurd (hable ▸ hf) List.not_mem_nil
  · exact hnot (he.inOrder'.keeps.connected_of_waiter hid)
  · exact he.inOrder'.keeps.idle id hnot

/-- A job on which the session has worked is queued again or has ended, and other jobs stay. -/
theorem find?_cases (k : JobKey) :
    (e.disconnect id).live.find? k = e.live.find? k ∧ (∀ live, ¬ e.WorksOn id k live) ∨
      ∃ live, e.WorksOn id k live ∧ (e.settings.disconnectPolicy = .requeue ∧
          (e.disconnect id).live.find? k = some ⟨live.job.renewed, none⟩ ∨
        e.settings.disconnectPolicy = .fail ∧ (e.disconnect id).live.find? k = none) := by
  rcases he.inOrder.find?_disconnect he.room id k with ⟨hsame, hfree⟩ | ⟨live, hlive, hw, hend⟩
  · exact .inl ⟨hsame, fun live ⟨hlive, hw⟩ => hfree live hlive hw⟩
  · exact .inr ⟨live, ⟨hlive, hw⟩, hend⟩

theorem find?_of_idle (hidle : ∀ live, ¬ e.WorksOn id k live) :
    (e.disconnect id).live.find? k = e.live.find? k := by
  rcases he.find?_cases k with ⟨hsame, -⟩ | ⟨live, hworks, -⟩
  · exact hsame
  · exact absurd hworks (hidle live)

theorem find?_of_requeue (hpolicy : e.settings.disconnectPolicy = .requeue)
    (hworks : e.WorksOn id k live) :
    (e.disconnect id).live.find? k = some ⟨live.job.renewed, none⟩ := by
  rcases he.find?_cases k with ⟨-, hnot⟩ | ⟨live', hworks', ⟨-, hagain⟩ | ⟨hfail, -⟩⟩
  · exact absurd hworks (hnot live)
  · obtain rfl := Option.some.inj (hworks.1.symm.trans hworks'.1)
    exact hagain
  · exact nomatch hpolicy.symm.trans hfail

theorem find?_of_fail (hpolicy : e.settings.disconnectPolicy = .fail)
    (hworks : e.WorksOn id k live) : (e.disconnect id).live.find? k = none := by
  rcases he.find?_cases k with ⟨-, hnot⟩ | ⟨live', hworks', ⟨hrequeue, -⟩ | ⟨-, hdead⟩⟩
  · exact absurd hworks (hnot live)
  · exact nomatch hpolicy.symm.trans hrequeue
  · exact hdead

theorem waiters_of_live (hk : ((e.disconnect id).live.find? k).isSome) :
    (e.disconnect id).waiters k = (e.waiters k).filter (· ≠ id) := by
  obtain ⟨ms, hms, hp, -⟩ := he.inOrder.act (a := .disconnect id) trivial he.room
  obtain ⟨l, rest, hr⟩ := hms.plainRest he.inOrder hp (by simp) (by simp)
  obtain ⟨live, hlive⟩ := Option.isSome_iff_exists.mp hk
  refine (hr.waiters (he.inOrder'.consistent.keys_handle hlive)).2.trans ?_
  refine List.filter_congr fun i _ => ?_
  simp [Action.leaver?, eq_comm]

theorem waiters_of_dead (hk : (e.disconnect id).live.find? k = none) :
    (e.disconnect id).waiters k = [] :=
  List.eq_nil_iff_forall_not_mem.mpr fun _ hi => he.inOrder'.consistent.live_of_waiter hi hk

theorem keyOf?_of_live {handle : String}
    (hk : ((e.disconnect id).live.find? k).map (·.job.handle) = some handle) :
    (e.disconnect id).live.keyOf? handle = some k := by
  obtain ⟨live, hlive, rfl⟩ := Option.map_eq_some_iff.mp hk
  exact he.inOrder'.consistent.keys_handle hlive

/-- The handle of a job that has ended leads nowhere. -/
theorem keyOf?_of_dead (hk : e.live.find? k = some live)
    (hdead : (e.disconnect id).live.find? k = none) :
    (e.disconnect id).live.keyOf? live.job.handle = none :=
  he.inOrder.keyOf?_of_dead (a := .disconnect id) trivial he.room hk hdead

/-! #### What waiters are told -/

theorem noticesOf_of_live {handle : String}
    (h : ∀ k live, e.live.find? k = some live → live.job.handle = handle →
      ((e.disconnect id).live.find? k).map (·.job.handle) = some handle) (i : SessionId) :
    (e.disconnect id).noticesOf handle i = e.noticesOf handle i := by
  refine he.inOrder.noticesOf_act (a := .disconnect id) trivial he.room (fun hkey => ?_) i
  obtain ⟨k, hk⟩ := Option.ne_none_iff_exists'.mp hkey
  obtain ⟨live, hlive, hhandle⟩ := he.inOrder.consistent.jobs_of_keys hk
  have hkept : (e.act (.disconnect id)).live.keyOf? handle = some k :=
    he.keyOf?_of_live (h k live hlive hhandle)
  rw [hkept]
  exact Option.some_ne_none k

theorem noticesOf_of_idle {handle : String}
    (h : ∀ k live, e.WorksOn id k live → live.job.handle ≠ handle) (i : SessionId) :
    (e.disconnect id).noticesOf handle i = e.noticesOf handle i := by
  refine he.noticesOf_of_live (fun k live hlive hhandle => ?_) i
  rcases he.find?_cases k with ⟨hsame, -⟩ | ⟨live', hworks, -⟩
  · rw [hsame, hlive, Option.map_some, hhandle]
  · obtain rfl := Option.some.inj (hlive.symm.trans hworks.1)
    exact absurd hhandle (h k live hworks)

theorem noticesOf_of_dead (hk : e.live.find? k = some live)
    (hdead : (e.disconnect id).live.find? k = none) (i : SessionId) :
    (e.disconnect id).noticesOf live.job.handle i = e.noticesOf live.job.handle i ++
      if i ∈ e.waiters k ∧ i ≠ id then [.response (.workFail live.job.handle)] else [] := by
  obtain ⟨live', reply, hlive', hhandle, hends, -, htold⟩ :=
    he.inOrder.act_of_ended (a := .disconnect id) trivial he.room
      (he.inOrder.consistent.keys_handle hk) (he.keyOf?_of_dead hk hdead)
  cases hends with
  | abandoned =>
    refine (htold i).trans ?_
    simp only [Action.leaver?, ne_eq, Option.some.injEq, hhandle, eq_comm]

/-! #### What is sent to the session -/

theorem outbox_of_requeue (hpolicy : e.settings.disconnectPolicy = .requeue) :
    (e.disconnect id).outbox id = e.outbox id := by
  have hleft : e.sessions.Adds (fun i _ => i ≠ id) (e.depart id).sessions :=
    .modify_of_eq e.sessions id fun _ => rfl
  have htended : (e.depart id).watch.Tended := watch_depart e id ▸ he.tended.turn .forget
  have hable : (e.depart id).abilities id = [] := by rw [abilities_depart, if_pos rfl]
  obtain ⟨ps, hps, hsent⟩ :=
    (hleft.trans (adds_requeueAll (e.assigned id) htended hable hpolicy)) id
  have hnone : ps = [] := List.eq_nil_iff_forall_not_mem.mpr fun p hp => hsent p hp rfl
  exact hps.trans (by rw [hnone, List.append_nil]; rfl)

/-- A session that leaves is not told that its own jobs have failed. -/
theorem outbox_of_fail (hpolicy : e.settings.disconnectPolicy = .fail) :
    (e.disconnect id).outbox id = e.outbox id := by
  obtain ⟨ps, hps, hsent⟩ :=
    ((Posts.depart e id).trans (posts_failAll (e.assigned id) _ hpolicy)) id
  have hps : (e.disconnect id).outbox id = e.outbox id ++ ps := hps
  have hnone : ps = [] := List.eq_nil_iff_forall_not_mem.mpr fun p hp => by
    obtain ⟨handle, rfl⟩ := hsent p hp
    have hnotices : (e.disconnect id).noticesOf handle id =
        e.noticesOf handle id ++ ps.filter (·.ends? = some handle) :=
      (congrArg (List.filter _) hps).trans (List.filter_append ..)
    have hsame : (e.disconnect id).noticesOf handle id = e.noticesOf handle id := by
      by_cases hworks : ∃ k live, e.WorksOn id k live ∧ live.job.handle = handle
      · obtain ⟨k, live, hworks, rfl⟩ := hworks
        simpa using he.noticesOf_of_dead hworks.1 (he.find?_of_fail hpolicy hworks) id
      · exact he.noticesOf_of_idle (fun k live h hh => hworks ⟨k, live, h, hh⟩) id
    have hmem : (.response (.workFail handle) : Packet) ∈ ps.filter (·.ends? = some handle) :=
      List.mem_filter.mpr ⟨hp, decide_eq_true rfl⟩
    rw [List.self_eq_append_right.mp (hsame.symm.trans hnotices)] at hmem
    exact absurd hmem List.not_mem_nil
  rw [hps, hnone, List.append_nil]

/-! #### All of it -/

theorem spares : e.Spares id (e.disconnect id) where
  outbox_eq := by
    cases hpolicy : e.settings.disconnectPolicy with
    | requeue => exact he.outbox_of_requeue hpolicy
    | fail => exact he.outbox_of_fail hpolicy
  find?_eq _ hidle := he.find?_of_idle hidle
  waiters_eq k hidle := by
    have hsame := he.find?_of_idle hidle
    cases hlive : e.live.find? k with
    | some live => exact he.waiters_of_live (by rw [hsame, hlive]; rfl)
    | none =>
      -- nobody waits for a job that is not live
      have hnobody : e.waiters k = [] := List.eq_nil_iff_forall_not_mem.mpr fun _ hi =>
        he.inOrder.consistent.live_of_waiter hi hlive
      rw [he.waiters_of_dead (hsame.trans hlive), hnobody, List.filter_nil]
  noticesOf_eq _ i h := he.noticesOf_of_idle h i

omit [JobStore σ] in
theorem state_of_worksOn (hworks : e.WorksOn id k live) : live.job.state = .working :=
  (he.inOrder.consistent.working_iff (show e.ledger.jobs k = some live from hworks.1)).mpr
    ⟨id, hworks.2⟩

/-- The jobs that come back into a queue are those on which the session has worked. -/
theorem mem_back_iff (hpolicy : e.settings.disconnectPolicy = .requeue) {f : String}
    {back : List QueuedJob} (hlist : ((e.disconnect id).workshop f).queue.toList =
      (e.workshop f).queue.toList ++ back) {j : QueuedJob} :
    j ∈ back ↔ ∃ live, e.WorksOn id ⟨f, j.uniqueId⟩ live ∧ live.job.summary = j := by
  have hnodup := (he.tended'.orderly f).nodup_toList
  have hbefore := he.filed.mem_toList_iff (he.tended.orderly f) (j := j)
  have hafter := he.filed'.mem_toList_iff (he.tended'.orderly f) (j := j)
  rw [show (e.disconnect id).watch.queues f = ((e.disconnect id).workshop f).queue from rfl, hlist]
    at hnodup
  rw [hlist, List.mem_append] at hafter
  constructor
  · intro hj
    have hwaiting := hafter.mp (.inr hj)
    rcases he.find?_cases ⟨f, j.uniqueId⟩ with ⟨hsame, -⟩ | ⟨live, hworks, -⟩
    · have hold := hbefore.mpr ((LiveJobs.waiting_congr hsame).symm.trans hwaiting)
      exact absurd hj (List.disjoint_of_nodup_append hnodup hold)
    · refine ⟨live, hworks, ?_⟩
      obtain ⟨live', hlive', -, hsummary⟩ := LiveJobs.waiting_eq_some_iff.mp hwaiting
      obtain rfl := Option.some.inj (hlive'.symm.trans (he.find?_of_requeue hpolicy hworks))
      exact hsummary
  · rintro ⟨live, hworks, hsummary⟩
    refine (hafter.mpr (LiveJobs.waiting_eq_some_iff.mpr
      ⟨_, he.find?_of_requeue hpolicy hworks, rfl, hsummary⟩)).resolve_left fun hj => ?_
    -- what was in the queue before was not worked on
    obtain ⟨live', hlive', hstate, -⟩ := LiveJobs.waiting_eq_some_iff.mp (hbefore.mp hj)
    obtain rfl := Option.some.inj (hlive'.symm.trans hworks.1)
    exact nomatch hstate.symm.trans (he.state_of_worksOn hworks)

theorem requeues (hpolicy : e.settings.disconnectPolicy = .requeue) :
    e.Requeues id (e.disconnect id) := by
  have hlive {k live} (hworks : e.WorksOn id k live) := he.find?_of_requeue hpolicy hworks
  refine {
    find?_eq := fun k live hworks => hlive hworks
    keyOf?_eq := fun k live hworks => he.keyOf?_of_live (by rw [hlive hworks]; rfl)
    waiters_eq := fun k live hworks => he.waiters_of_live (by rw [hlive hworks]; rfl)
    noticesOf_eq := fun k live hworks i => ?_
    store_eq := store_requeueAll (e.assigned id) (e.depart id) hpolicy
    followed := fun f => ?_ }
  · refine he.noticesOf_of_live (fun k' live' hlive' hhandle => ?_) i
    obtain rfl := he.inOrder.consistent.key_inj hlive' hworks.1 hhandle
    rw [hlive hworks]
    rfl
  · obtain ⟨back, hback⟩ := toList_requeueAll (e.assigned id) (e.depart id) hpolicy f
    rw [show ((e.depart id).workshop f).queue = (e.workshop f).queue from
      congrArg (Core.queues · f) (core_depart e id)] at hback
    have hnodup := (he.tended'.orderly f).nodup_toList
    refine ⟨back, (he.tended.orderly f).followed (he.tended'.orderly f) hback, ?_,
      fun j => he.mem_back_iff hpolicy hback⟩
    exact (List.nodup_append.mp (hback ▸ hnodup)).2.1

theorem fails (hpolicy : e.settings.disconnectPolicy = .fail) : e.Fails id (e.disconnect id) := by
  have hdead {k live} (hworks : e.WorksOn id k live) := he.find?_of_fail hpolicy hworks
  obtain ⟨ks, hks⟩ := failed_failAll (e.assigned id) (e.depart id) hpolicy
  rw [core_depart, ← disconnect_eq] at hks
  have hstore : (e.disconnect id).store = (deleteEach ks e.store).2 := hks.store_eq
  refine {
    find?_eq := fun k live hworks => hdead hworks
    keyOf?_eq := fun k live hworks => he.keyOf?_of_dead hworks.1 (hdead hworks)
    waiters_eq := fun k live hworks => he.waiters_of_dead (hdead hworks)
    noticesOf_eq := fun k live hworks => he.noticesOf_of_dead hworks.1 (hdead hworks)
    queue_eq := congrFun hks.queues_eq
    store_eq := ⟨ks, hks.nodup, fun k => hks.mem_iff.trans ?_, hstore, ?_⟩ }
  · constructor
    · rintro ⟨hbefore, hnone⟩
      by_contra hidle
      have hsame := he.find?_of_idle fun live hworks => hidle ⟨live, hworks⟩
      have hdead : e.live.find? k = none := hsame.symm.trans hnone
      exact absurd ((congrArg Option.isSome hdead).symm.trans hbefore) Bool.false_ne_true
    · rintro ⟨live, hworks⟩
      exact ⟨Option.isSome_of_eq_some hworks.1, hdead hworks⟩
  · intro record? hdeletes k hk
    rw [hstore]
    exact hdeletes.deleteEach hk

end Leaves

/-- A run in which a session disconnects last is as long as without that. -/
theorem IsRun.concat_disconnect {as : List (Action σ)} (h : e.IsRun as) (id : SessionId) :
    e.IsRun (as ++ [.disconnect id]) := by
  have hsame : ((e.run as).act (.disconnect id)).handles = (e.run as).handles :=
    Core.handles_eq_of_shifts (shifts_of_no_submission (e.run as) (by simp) (by simp))
  refine ⟨(legalRun_append e as _).mpr ⟨h.legal, trivial, trivial⟩, ?_⟩
  rw [issued_append, issued, if_pos hsame]
  exact h.issued_lt

/-- After every run an engine is ready for a session to disconnect. -/
theorem IsRun.leaves (settings : EngineSettings) (store : σ) (now : Int64) (newId : Nat → String)
    (isLinked : Bool) {as : List (Action σ)}
    (h : (start settings store now newId isLinked).IsRun as) (id : SessionId) :
    ((start settings store now newId isLinked).run as).Leaves id := by
  have htended := (unmanned_start settings store now newId isLinked).wakeful.toTended
  obtain ⟨-, horder, -, hroom, -⟩ :=
    (h.concat_disconnect id).split (start_inOrder settings store now newId isLinked)
  exact {
    inOrder := horder
    filed := (Filed.start settings store now newId isLinked).run as
    crewed := (Crewed.start settings store now newId isLinked).run htended h.legal
    tended := tended_run htended as
    room := hroom }

/-- A session that disconnects leaves nothing behind, and nothing is lost. -/
theorem IsRun.departed (settings : EngineSettings) (store : σ) (now : Int64) (newId : Nat → String)
    (isLinked : Bool) {as : List (Action σ)}
    (h : (start settings store now newId isLinked).IsRun as) (id : SessionId) :
    let e := (start settings store now newId isLinked).run as
    (e.disconnect id).Gone id ∧ e.Spares id (e.disconnect id) ∧
      (settings.disconnectPolicy = .requeue → e.Requeues id (e.disconnect id)) ∧
      (settings.disconnectPolicy = .fail → e.Fails id (e.disconnect id)) := by
  intro e
  have he : e.Leaves id := h.leaves settings store now newId isLinked id
  have hsettings : e.settings = settings := settings_run _ as
  exact ⟨he.gone, he.spares, fun hpolicy => he.requeues (hsettings ▸ hpolicy),
    fun hpolicy => he.fails (hsettings ▸ hpolicy)⟩

/-- Who waits for a job, works on it and sleeps disconnects. The queue, which is full, holds a job
for later, and another session waits too. -/
theorem IsRun.departed_waiting_worker :
    let as : List (Action MemoryStore) :=
      [.arrive "1.1.1.1:1", .connect 0, .arrive "1.1.1.1:2", .connect 1, .setMaxQueue "f" 1,
        .canDo 0 "f" none, .submit (.new "f" "a" []) (some 0),
        .submit (.new "f" "a" []) (some 1), .grab 0,
        .submit { Job.new "f" "b" [] with timeToRun := 100 } none, .sleep 0]
    let requeues := start { EngineSettings.default with disconnectPolicy := .requeue }
      MemoryStore.empty 0 decimal false
    let fails := start { EngineSettings.default with disconnectPolicy := .fail }
      MemoryStore.empty 0 decimal false
    requeues.IsRun as ∧ fails.IsRun as ∧
      (0 ∈ (fails.run as).waiters ⟨"f", "a"⟩ ∧ 0 ∈ ((fails.run as).workshop "f").crew.sleepers ∧
        (fails.run as).assigned 0 = ["H:localhost:1"]) ∧
      (requeues.run as).Requeues 0 ((requeues.run as).disconnect 0) ∧
      ((requeues.run as).disconnect 0).waiters ⟨"f", "a"⟩ = [1] ∧
      (((requeues.run as).disconnect 0).workshop "f").queue.toList.map QueuedJob.uniqueId =
        ["b", "a"] ∧
      (fails.run as).Fails 0 ((fails.run as).disconnect 0) ∧
      ((fails.run as).disconnect 0).outbox 1 = [.response (.workFail "H:localhost:1")] ∧
      ((fails.run as).disconnect 0).outbox 0 = [] := by
  intro as requeues fails
  have hrequeues : requeues.IsRun as := by decide +kernel
  have hfails : fails.IsRun as := by decide +kernel
  obtain ⟨-, -, hrequeue, -⟩ := IsRun.departed _ MemoryStore.empty 0 decimal false hrequeues 0
  obtain ⟨-, -, -, hfail⟩ := IsRun.departed _ MemoryStore.empty 0 decimal false hfails 0
  exact ⟨hrequeues, hfails, by decide +kernel, hrequeue rfl, by decide +kernel, by decide +kernel,
    hfail rfl, by decide +kernel, by decide +kernel⟩

end JobBroker.Engine
