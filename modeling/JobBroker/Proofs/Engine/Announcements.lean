import JobBroker.Proofs.Engine.Deed

/-!
# What is told to other brokers

An engine tells other brokers of three things only: a job is let in, a part of a result is passed
on, work on a job is complete. Above all it is silent about what it hears, so no event goes round
among brokers.

* `Engine.news?` : the event that a deed is worth, by how the deed is answered.
* `channel_perform` : a deed publishes that event and nothing else.
* `published_performAll` : so the events published in a run are those of its deeds, in their order.
-/

namespace JobBroker

/-- An event about a job. -/
def Job.news (j : Job) (kind : PeerEventKind) (data : Bytes) : PeerEvent :=
  ⟨j.uniqueId, j.functionName, kind, data⟩

namespace Engine

variable {σ : Type} {e : Engine σ}

/-- Whether other brokers listen, and what they have been told. -/
def channel (e : Engine σ) : Bool × List PeerEvent := (e.isLinked, e.published)

/-! ### What tells nobody anything -/

@[simp] theorem channel_establish (e : Engine σ) (f : String) :
    (e.establish f).channel = e.channel := rfl

@[simp] theorem channel_modifyCrew (e : Engine σ) (f : String) (change : Crew → Crew) :
    (e.modifyCrew f change).channel = e.channel := rfl

@[simp] theorem channel_setQueue (e : Engine σ) (f : String) (q : Queue) :
    (e.setQueue f q).channel = e.channel := rfl

@[simp] theorem channel_modifySession (e : Engine σ) (id : SessionId) (change : Session → Session) :
    (e.modifySession id change).channel = e.channel := rfl

@[simp] theorem channel_notify (e : Engine σ) (k : JobKey) (body : Body) :
    (e.notify k body).channel = e.channel := rfl

@[simp] theorem channel_dismiss (e : Engine σ) (k : JobKey) (packet : Session → Packet) :
    (e.dismiss k packet).channel = e.channel := rfl

@[simp] theorem channel_wakeCrew (e : Engine σ) (f : String) :
    (e.wakeCrew f).channel = e.channel := by
  unfold wakeCrew
  split <;> rfl

@[simp] theorem channel_await (e : Engine σ) (j : Job) (client : Option SessionId) :
    (e.await j client).channel = e.channel := by
  unfold await
  split
  · rfl
  · split <;> rfl

@[simp] theorem channel_identify (e : Engine σ) (j : Job) :
    (e.identify j).2.channel = e.channel := by
  unfold identify
  split <;> rfl

theorem channel_foldl {α : Type} {op : Engine σ → α → Engine σ}
    (hop : ∀ e a, (op e a).channel = e.channel) (as : List α) (e : Engine σ) :
    (as.foldl op e).channel = e.channel := by
  induction as generalizing e with
  | nil => rfl
  | cons a as ih => exact (ih (op e a)).trans (hop e a)

@[simp] theorem channel_wake (e : Engine σ) (id : SessionId) : (e.wake id).channel = e.channel :=
  channel_foldl (fun e f => channel_modifyCrew e f _) (e.abilities id) e

theorem channel_sleep (e : Engine σ) (id : SessionId) : (e.sleep id).channel = e.channel := by
  have hasleep := channel_foldl (fun (e : Engine σ) f =>
    channel_modifyCrew (e.establish f) f (·.addSleeper id)) (e.abilities id)
      (e.modifySession id (·.sleepUntil (e.uptime + e.settings.longPollSeconds)))
  simp only [sleep]
  split
  · exact (channel_wake _ id).trans hasleep
  · exact hasleep

theorem channel_restore (e : Engine σ) (j : Job) : (e.restore j).2.channel = e.channel := by
  apply restore_of_steps (P := fun e' : Engine σ => e'.channel = e.channel)
  · exact fun _ => rfl
  · exact fun _ _ _ he' => he'

section Stored

variable [JobStore σ]

omit [JobStore σ] in
theorem channel_dropLost (e : Engine σ) (k : JobKey) : (e.dropLost k).channel = e.channel := by
  unfold dropLost
  split <;> rfl

theorem channel_takeFrom (id : SessionId) (fs : List String) (e : Engine σ) :
    (e.takeFrom id fs).2.channel = e.channel := by
  refine takeFrom_of_steps (P := fun e' : Engine σ => e'.channel = e.channel) ?_ ?_ ?_ fs rfl
  · intro e' f q store h
    exact h
  · intro e' k h
    exact (channel_dropLost e' k).trans h
  · intro e' k record h
    exact h

omit [JobStore σ] in
theorem channel_requeue (e : Engine σ) (handle : String) :
    (e.requeue handle).channel = e.channel := by
  unfold requeue
  split
  · rfl
  · dsimp only
    split
    · rfl
    · exact channel_wakeCrew _ _

theorem channel_remove (e : Engine σ) (handle : String) :
    (e.remove handle).2.channel = e.channel := by
  unfold remove
  split
  · rfl
  · dsimp only
    split <;> rfl

theorem channel_settle (e : Engine σ) (live : LiveJob) (data : Bytes) :
    (e.settle live data).channel = e.channel := by
  unfold settle
  dsimp only
  split <;> rfl

/-- Whatever is heard, nothing is told on. -/
theorem channel_hear (e : Engine σ) (event : PeerEvent) : (e.hear event).channel = e.channel := by
  unfold hear
  dsimp only
  split
  · rfl
  · exact channel_wakeCrew e _
  · rfl
  · rfl
  · split
    · rfl
    · exact channel_settle e _ _

theorem channel_load (e : Engine σ) : e.load.2.channel = e.channel := by
  obtain ⟨store, handles, hloaded⟩ := loaded_snd e
  rw [load_snd]
  apply restoreAll_of_restore (P := (·.channel = e.channel)) fun e' j _ he' =>
    (channel_restore e' j).trans he'
  rw [hloaded]
  rfl

omit [JobStore σ] in
theorem channel_reportProgress (e : Engine σ) (handle : String) (n d : UInt32) :
    (e.reportProgress handle n d).2.channel = e.channel := by
  unfold reportProgress
  split <;> rfl

omit [JobStore σ] in
theorem channel_reportWarning (e : Engine σ) (handle : String) (data : Bytes) :
    (e.reportWarning handle data).2.channel = e.channel := by
  unfold reportWarning
  split <;> rfl

/-! ### What is told -/

/-- The event that a deed is worth. A submission that is answered with a job which was not live
before has been let in; every other one has joined a job, or was refused. -/
def news? (e : Engine σ) : Deed σ → Option PeerEvent
  | .act (.submit j client) =>
    match (e.submit j client).1 with
    | .ok j' => if (e.live.find? j'.key).isNone then some (j'.news .submitJob []) else none
    | .error _ => none
  | .act (.data handle data) =>
    match (e.reportData handle data).1 with
    | .ok _ => (e.findJob? handle).map (·.news .workData data)
    | .error _ => none
  | .act (.finish handle (.complete data)) =>
    match (e.finish handle (.complete data)).1 with
    | .ok _ => (e.findJob? handle).map (·.news .workComplete data)
    | .error _ => none
  | _ => none

/-- Publishes an event, if there is one. -/
def announce (e : Engine σ) (news : Option PeerEvent) : Engine σ := news.elim e e.publish

omit [JobStore σ] in
theorem channel_announce (e : Engine σ) (news : Option PeerEvent) : (e.announce news).channel =
    (e.isLinked, if e.isLinked then e.published ++ news.toList else e.published) := by
  cases news with
  | none => simp [announce, channel]
  | some event =>
    show (e.publish event).channel = _
    unfold publish
    split
    · next hlinked => simp [channel, hlinked]
    · next hlinked => simp [channel, hlinked]

omit [JobStore σ] in
theorem announce_congr {e' : Engine σ} (h : e'.channel = e.channel) (news : Option PeerEvent) :
    (e'.announce news).channel = (e.announce news).channel := by
  obtain ⟨hlinked, hpublished⟩ := Prod.mk.inj h
  rw [channel_announce, channel_announce, hlinked, hpublished]

omit [JobStore σ] in
theorem findJob?_of_jobInState {handle : String} {state : JobState} {live : LiveJob}
    (h : e.jobInState handle state = .ok live) : e.findJob? handle = some live.job := by
  obtain ⟨k, hk, hlive, -⟩ := find?_of_jobInState h
  simp [findJob?, LiveJobs.ofHandle?, hk, hlive]

/-- A job that is let in is told of, with the key it was submitted under. -/
theorem channel_letIn (e : Engine σ) (j : Job) (client : Option SessionId) :
    (∃ err, (e.letIn j client).1 = .error err ∧ (e.letIn j client).2.channel = e.channel) ∨
      ∃ j', (e.letIn j client).1 = .ok j' ∧ j'.key = j.key ∧
        (e.letIn j client).2.channel = (e.announce (some (j'.news .submitJob []))).channel := by
  obtain ⟨j₁, hj₁⟩ : ∃ j₁, ({ j.renewed with handle := e.handles.next.1 } : Job) = j₁ := ⟨_, rfl⟩
  have hkey : j₁.key = j.key := hj₁ ▸ rfl
  rcases henqueue : (e.workshop j₁.functionName).queue.enqueue j₁ e.store with
    ⟨err | _ | _, q, store⟩
  · subst hj₁
    simp only [letIn, henqueue]
    exact .inl ⟨err, rfl, rfl⟩
  · subst hj₁
    simp only [letIn, henqueue]
    exact .inl ⟨_, rfl, rfl⟩
  · subst hj₁
    simp only [letIn, henqueue]
    refine .inr ⟨_, rfl, hkey, announce_congr ?_ (some _)⟩
    rw [channel_wakeCrew, channel_await]
    rfl

theorem channel_submit (he : e.Filed) (j : Job) (client : Option SessionId) :
    (e.submit j client).2.channel =
      (e.announce (e.news? (.act (.submit j client)))).channel := by
  rcases hi : e.identify j with ⟨j₁, e₁⟩
  obtain ⟨e₂, he₂⟩ : ∃ e₂, e₁.establish j₁.functionName = e₂ := ⟨_, rfl⟩
  have hchannel : e₂.channel = e.channel := by
    rw [← he₂, channel_establish, ← channel_identify e j, hi]
  have hcore : e₂.core = e.core := by rw [← he₂, core_establish, ← core_identify e j, hi]
  have hlive : e₂.live = e.live := congrArg Core.live hcore
  cases hfind : e.live.find? j₁.key with
  | some live =>
    have hsubmit : e.submit j client = (.ok live.job, e₂.await j₁ client) := by
      simp only [submit, hi, he₂, hlive, hfind]
    have hkey : live.job.key = j₁.key := he.key_eq hfind
    have hnews : e.news? (.act (.submit j client)) = none := by
      simp [news?, hsubmit, hkey, hfind]
    rw [hsubmit, hnews, channel_await]
    exact hchannel
  | none =>
    have hsubmit : e.submit j client = e₂.letIn j₁ client := by
      simp only [submit, hi, he₂, hlive, hfind]
    rcases channel_letIn e₂ j₁ client with ⟨err, herr, hsame⟩ | ⟨j', hj', hkey, htold⟩
    · have hnews : e.news? (.act (.submit j client)) = none := by
        simp [news?, hsubmit, herr]
      rw [hsubmit, hnews, hsame]
      exact hchannel
    · have hnews : e.news? (.act (.submit j client)) = some (j'.news .submitJob []) := by
        simp [news?, hsubmit, hj', hkey, hfind]
      rw [hsubmit, hnews, htold]
      exact announce_congr hchannel _

theorem channel_reportData (e : Engine σ) (handle : String) (data : Bytes) :
    (e.reportData handle data).2.channel =
      (e.announce (e.news? (.act (.data handle data)))).channel := by
  cases hj : e.jobInState handle .working with
  | error err =>
    have hreport : e.reportData handle data = (.error err, e) := by simp only [reportData, hj]
    have hnews : e.news? (.act (.data handle data)) = none := by simp [news?, hreport]
    rw [hreport, hnews]
    rfl
  | ok live =>
    have hreport : e.reportData handle data = (.ok (), (e.publish
        (live.job.news .workData data)).notify live.job.key (.workData handle data)) := by
      simp only [reportData, hj]
      rfl
    have hnews : e.news? (.act (.data handle data)) = some (live.job.news .workData data) := by
      simp [news?, hreport, findJob?_of_jobInState hj]
    rw [hreport, hnews]
    rfl

omit [JobStore σ] in
theorem channel_releaseWorker (e : Engine σ) (worker : Option SessionId) (handle : String) :
    (match worker with
      | some id => if id ∈ e.connected then e.modifySession id (·.release handle) else e
      | none => e).channel = e.channel := by
  split
  · split <;> rfl
  · rfl

theorem channel_finish_of_ok {handle : String} {k : JobKey} {live : LiveJob}
    (hk : e.live.keyOf? handle = some k) (h : e.jobInState handle .working = .ok live)
    (o : Outcome) :
    (e.finish handle o).1 = .ok { live.job with state := o.state } ∧
      (e.finish handle o).2.channel = (e.announce (match o with
        | .complete data => some ⟨k.uniqueId, k.functionName, .workComplete, data⟩
        | .fail | .exception _ => none)).channel := by
  have hended := channel_releaseWorker { e.establish k.functionName with live := e.live.erase k }
    live.worker handle
  simp only [finish, hk, jobInState_establish, h]
  cases o with
  | complete data =>
    refine ⟨rfl, announce_congr ?_ (some _)⟩
    exact hended
  | fail => exact ⟨rfl, hended⟩
  | exception data => exact ⟨rfl, hended⟩

/-- A result that is taken is told of; that work has failed is not. -/
theorem channel_finish (he : e.Filed) (handle : String) (o : Outcome) :
    (e.finish handle o).2.channel = (e.announce (e.news? (.act (.finish handle o)))).channel := by
  cases hj : e.jobInState handle .working with
  | error err =>
    have hnews : e.news? (.act (.finish handle o)) = none := by
      rcases finish_of_error hj o with hfinish | ⟨k, -, hfinish⟩ <;>
        cases o <;> simp [news?, hfinish]
    rw [hnews]
    rcases finish_of_error hj o with hfinish | ⟨k, -, hfinish⟩
    · rw [hfinish]
      rfl
    · rw [hfinish]
      rfl
  | ok live =>
    obtain ⟨k, hk, hlive, -⟩ := find?_of_jobInState hj
    obtain ⟨hanswer, htold⟩ := channel_finish_of_ok hk hj o
    obtain rfl : live.job.key = k := he.key_eq hlive
    rw [htold]
    cases o with
    | complete data =>
      simp only [news?, hanswer, findJob?_of_jobInState hj, Option.map_some]
      rfl
    | fail => rfl
    | exception data => rfl

theorem channel_fail (e : Engine σ) (handle : String) :
    (e.finish handle .fail).2.channel = e.channel := by
  cases hj : e.jobInState handle .working with
  | error err =>
    rcases finish_of_error hj .fail with hfinish | ⟨k, -, hfinish⟩
    · rw [hfinish]
    · rw [hfinish]
      rfl
  | ok live =>
    obtain ⟨k, hk, -⟩ := find?_of_jobInState hj
    exact (channel_finish_of_ok hk hj .fail).2

theorem channel_disconnect (e : Engine σ) (id : SessionId) :
    (e.disconnect id).channel = e.channel := by
  have habandon : ∀ (e : Engine σ) handle, (e.abandon handle).channel = e.channel := by
    intro e handle
    unfold abandon
    split
    · exact channel_requeue e handle
    · exact channel_fail e handle
  exact channel_foldl habandon (e.assigned id) (e.depart id)

/-! ### Deeds and runs -/

/-- A deed publishes the event that it is worth, and nothing else. -/
theorem channel_perform (he : e.Filed) (d : Deed σ) :
    (e.perform d).channel = (e.announce (e.news? d)).channel := by
  cases d with
  | load => exact channel_load e
  | act a =>
    cases a with
    | connect id =>
      show (e.connect id).channel = e.channel
      unfold connect
      split <;> rfl
    | disconnect id => exact channel_disconnect e id
    | resetAbilities id =>
      exact channel_foldl (fun e f => channel_modifyCrew e f _) (e.abilities id)
        (e.modifySession id Session.clearAbilities)
    | sleep id => exact channel_sleep e id
    | wake id => exact channel_wake e id
    | grab id => exact channel_takeFrom id (e.abilities id) e
    | submit j client => exact channel_submit he j client
    | finish handle o => exact channel_finish he handle o
    | progress handle n d => exact channel_reportProgress e handle n d
    | data handle data => exact channel_reportData e handle data
    | warning handle data => exact channel_reportWarning e handle data
    | remove handle => exact channel_remove e handle
    | hear event => exact channel_hear e event
    | _ => rfl

/-- The events that the deeds of a run are worth, in their order. -/
def announcements (e : Engine σ) : List (Deed σ) → List PeerEvent
  | [] => []
  | d :: ds => (e.news? d).toList ++ (e.perform d).announcements ds

/-- While other brokers listen, a run adds its announcements to what they have been told. -/
theorem channel_performAll (he : e.Filed) (hlinked : e.isLinked = true) (ds : List (Deed σ)) :
    (e.performAll ds).channel = (true, e.published ++ e.announcements ds) := by
  induction ds generalizing e with
  | nil => exact Prod.ext hlinked (List.append_nil _).symm
  | cons d ds ih =>
    have hstep := channel_perform he d
    rw [channel_announce, if_pos hlinked, hlinked] at hstep
    obtain ⟨hlinked', hpublished⟩ := Prod.mk.inj hstep
    have hrest := ih (he.perform d) hlinked'
    rw [hpublished, List.append_assoc] at hrest
    exact hrest

/-- Whatever is done to an engine to which other brokers listen, from the start, they are told of
each submission that is let in, each part of a result that is passed on and each result that is
taken, and of nothing else. -/
theorem published_performAll (settings : EngineSettings) (store : σ) (now : Int64)
    (newId : Nat → String) (ds : List (Deed σ)) :
    ((start settings store now newId true).performAll ds).published =
      (start settings store now newId true).announcements ds :=
  congrArg Prod.snd (channel_performAll (Filed.start settings store now newId true) rfl ds)

end Stored

end Engine

end JobBroker
