import JobBroker.Proofs.Engine.Results
import JobBroker.Proofs.Engine.Watch

/-!
# Mail

What comes into the outboxes of sessions, and from where. Packets are put behind those that are
there already. Reports on a job go to those who wait for it, and everything else that an action
puts into an outbox tells the end of a job, or is about no job.

* `posts_act` : what an action puts into outboxes, by what it tells (`Tells`).
* `InOrder.delivers_act` : the same, by what it is about.
* `InOrder.mail_act` : none of it is about a job that has ended before, or that the session does not
  wait for, and after the end of a job there is nothing about it.
-/

namespace JobBroker

/-! ### What packets are about -/

/-- The handle of the job that a packet says is taken in. -/
def Packet.created? (p : Packet) : Option String :=
  match p.body with
  | .jobCreated handle => some handle
  | _ => none

/-- The handle of the job on which a packet reports, while the work goes on. -/
def Packet.reports? (p : Packet) : Option String :=
  match p.body with
  | .workStatus handle _ _ | .workData handle _ | .workWarning handle _ => some handle
  | _ => none

/-- The handle of the job that a packet tells a client about. -/
def Packet.about? (p : Packet) : Option String :=
  match p.body with
  | .jobCreated handle | .workStatus handle _ _ | .workData handle _ | .workWarning handle _
  | .workComplete handle _ | .workFail handle | .workException handle _ => some handle
  | _ => none

namespace Packet

theorem about?_eq_some_iff {p : Packet} {handle : String} : p.about? = some handle ↔
    p.created? = some handle ∨ p.reports? = some handle ∨ p.ends? = some handle := by
  obtain ⟨magic, body⟩ := p
  cases body <;> simp [about?, created?, reports?, ends?, Body.ends?]

theorem created?_eq_none_of_ends {p : Packet} (h : p.about? = p.ends?) : p.created? = none := by
  obtain ⟨magic, body⟩ := p
  cases body <;> simp_all [about?, created?, ends?, Body.ends?]

theorem ends?_of_created {p : Packet} {handle : String} (h : p.created? = some handle) :
    p.ends? = none := by
  obtain ⟨magic, body⟩ := p
  cases body <;> simp_all [created?, ends?, Body.ends?]

theorem of_reports {p : Packet} {handle : String} (h : p.reports? = some handle) :
    p.created? = none ∧ p.ends? = none := by
  obtain ⟨magic, body⟩ := p
  cases body <;> simp_all [created?, reports?, ends?, Body.ends?]

/-- Nothing is told of a job behind its end. -/
def Precedes (p q : Packet) : Prop := ∀ handle, p.ends? = some handle → q.about? ≠ some handle

end Packet

/-- The packets that an engine sends on its own: a call to work, and the failure of a job. -/
inductive Packet.Bare : Packet → Prop
  | noop : Bare (.response .noop)
  | workFail (handle : String) : Bare (.response (.workFail handle))

theorem Packet.Bare.about?_eq {p : Packet} (h : p.Bare) : p.about? = p.ends? := by
  cases h <;> rfl

theorem Outcome.about?_packet (o : Outcome) (handle : String) (s : Session) :
    (o.packet handle s).about? = (o.packet handle s).ends? := by
  cases o with
  | complete data => rfl
  | fail => rfl
  | exception data =>
    simp only [packet]
    cases s.wantsExceptions <;> rfl

theorem Session.outbox_send (s : Session) (p : Packet) :
    ∃ ps, (s.send p).outbox = s.outbox ++ ps ∧ ∀ q ∈ ps, q = p := by
  unfold send
  split
  · exact ⟨[], by simp, by simp⟩
  · exact ⟨[p], rfl, by simp⟩

/-! ### What sessions are sent -/

namespace Sessions

def outbox (ss : Sessions) (id : SessionId) : List Packet :=
  ((ss.get? id).map Session.outbox).getD []

/-- Each outbox holds what it has held, and behind it packets that are right for the session. -/
def Adds (right : SessionId → Packet → Prop) (ss ss' : Sessions) : Prop :=
  ∀ id, ∃ ps, ss'.outbox id = ss.outbox id ++ ps ∧ ∀ p ∈ ps, right id p

namespace Adds

variable {right : SessionId → Packet → Prop} {ss ss' ss'' : Sessions}

theorem refl (ss : Sessions) : Adds right ss ss := fun _ => ⟨[], by simp, by simp⟩

theorem trans (h : Adds right ss ss') (h' : Adds right ss' ss'') : Adds right ss ss'' := by
  intro id
  obtain ⟨ps, hps, hright⟩ := h id
  obtain ⟨ps', hps', hright'⟩ := h' id
  refine ⟨ps ++ ps', by rw [hps', hps, List.append_assoc], fun p hp => ?_⟩
  exact (List.mem_append.mp hp).elim (hright p) (hright' p)

theorem mono {right' : SessionId → Packet → Prop} (hright : ∀ id p, right id p → right' id p)
    (h : Adds right ss ss') : Adds right' ss ss' := by
  intro id
  obtain ⟨ps, hps, hp⟩ := h id
  exact ⟨ps, hps, fun p hmem => hright id p (hp p hmem)⟩

theorem modify (ss : Sessions) (id : SessionId) {change : Session → Session}
    (h : ∀ s, ∃ ps, (change s).outbox = s.outbox ++ ps ∧ ∀ p ∈ ps, right id p) :
    Adds right ss (Table.modify ss id change) := by
  intro i
  unfold outbox
  rw [Table.get?_modify]
  split
  · next hi =>
    subst hi
    cases ss.get? id with
    | none => exact ⟨[], rfl, by simp⟩
    | some s => exact h s
  · exact ⟨[], by simp, by simp⟩

/-- A change of a session that is no matter of its outbox. -/
theorem modify_of_eq (ss : Sessions) (id : SessionId) {change : Session → Session}
    (h : ∀ s, (change s).outbox = s.outbox) : Adds right ss (Table.modify ss id change) :=
  modify ss id fun s => ⟨[], by simp [h], by simp⟩

theorem send {packet : Session → Packet} {ids : List SessionId}
    (h : ∀ id ∈ ids, ∀ s, right id (packet s)) (ss : Sessions) :
    Adds right ss (ss.send packet ids) := by
  induction ids generalizing ss with
  | nil => exact refl ss
  | cons id ids ih =>
    refine .trans (modify ss id fun s => ?_) (ih (fun i hi => h i (List.mem_cons_of_mem _ hi)) _)
    obtain ⟨ps, hps, hsent⟩ := s.outbox_send (packet s)
    exact ⟨ps, hps, fun p hp => hsent p hp ▸ h id List.mem_cons_self s⟩

theorem wakeSession {id : SessionId} (h : right id (.response .noop)) (ss : Sessions) :
    Adds right ss (Table.modify ss id Session.wake) := by
  refine modify ss id fun s => ?_
  unfold Session.wake
  split
  · obtain ⟨ps, hps, hsent⟩ := Session.outbox_send { s with wakeAt := none } (.response .noop)
    exact ⟨ps, hps, fun p hp => hsent p hp ▸ h⟩
  · exact ⟨[], by simp, by simp⟩

theorem wake {ids : List SessionId} (h : ∀ id ∈ ids, right id (.response .noop))
    (ss : Sessions) : Adds right ss (ss.wake ids) := by
  induction ids generalizing ss with
  | nil => exact refl ss
  | cons id ids ih =>
    exact .trans (wakeSession (h id List.mem_cons_self) ss)
      (ih (fun i hi => h i (List.mem_cons_of_mem _ hi)) _)

theorem insert_new {id : SessionId} (hid : ss.get? id = none) (peer : String) :
    Adds right ss (Table.insert ss id (.new peer)) := by
  intro i
  unfold outbox
  rw [Table.get?_insert]
  split
  · next hi =>
    subst hi
    exact ⟨[], by simp [hid, Session.new], by simp⟩
  · exact ⟨[], by simp, by simp⟩

end Adds

end Sessions

namespace Engine

variable {σ : Type} {e e' e'' : Engine σ}

def outbox (e : Engine σ) (id : SessionId) : List Packet := e.sessions.outbox id

/-! ### What is posted -/

/-- Whatever comes into an outbox is one of the packets that are right. -/
def Posts (right : Packet → Prop) (e e' : Engine σ) : Prop :=
  e.sessions.Adds (fun _ => right) e'.sessions

namespace Posts

variable {right : Packet → Prop}

theorem refl (e : Engine σ) : Posts right e e := Sessions.Adds.refl _

theorem trans (h : Posts right e e') (h' : Posts right e' e'') : Posts right e e'' :=
  Sessions.Adds.trans h h'

theorem of_eq (h : e'.sessions = e.sessions) : Posts right e e' := by
  unfold Posts
  rw [h]
  exact .refl _

/-- What has been done before leaves the sessions alone. -/
theorem of_sessions_eq (h : Posts right e' e'') (hsessions : e'.sessions = e.sessions) :
    Posts right e e'' := (of_eq hsessions).trans h

theorem foldl {α : Type} {f : Engine σ → α → Engine σ} (h : ∀ e a, Posts right e (f e a))
    (as : List α) (e : Engine σ) : Posts right e (as.foldl f e) := by
  induction as generalizing e with
  | nil => exact refl e
  | cons a as ih => exact (h e a).trans (ih (f e a))

theorem modifySession (e : Engine σ) (id : SessionId) {change : Session → Session}
    (h : ∀ s, (change s).outbox = s.outbox) : Posts right e (e.modifySession id change) :=
  .modify_of_eq e.sessions id h

theorem notify (e : Engine σ) (k : JobKey) {body : Body} (h : right (.response body)) :
    Posts right e (e.notify k body) :=
  .send (fun _ _ _ => h) e.sessions

theorem dismiss (e : Engine σ) (k : JobKey) {packet : Session → Packet}
    (h : ∀ s, right (packet s)) : Posts right e (e.dismiss k packet) :=
  .send (fun _ _ s => h s) e.sessions

theorem publish (e : Engine σ) (event : PeerEvent) : Posts right e (e.publish event) := by
  refine of_eq ?_
  unfold Engine.publish
  split <;> rfl

theorem await (e : Engine σ) (j : Job) (client : Option SessionId) :
    Posts right e (e.await j client) := by
  refine of_eq ?_
  unfold Engine.await
  split
  · rfl
  · split <;> rfl

theorem identify (e : Engine σ) (j : Job) : Posts right e (e.identify j).2 := by
  refine of_eq ?_
  unfold Engine.identify
  split <;> rfl

theorem connect (e : Engine σ) (id : SessionId) : Posts right e (e.connect id) := by
  refine of_eq ?_
  unfold Engine.connect
  split <;> rfl

theorem addAbility (e : Engine σ) (id : SessionId) (f : String) (timeout : Option UInt32) :
    Posts right e (e.addAbility id f timeout) :=
  modifySession e id fun _ => rfl

theorem removeAbility (e : Engine σ) (id : SessionId) (f : String) :
    Posts right e (e.removeAbility id f) :=
  modifySession e id fun _ => rfl

theorem resetAbilities (e : Engine σ) (id : SessionId) : Posts right e (e.resetAbilities id) := by
  have hclear : Posts right e (e.modifySession id Session.clearAbilities) :=
    modifySession e id fun _ => rfl
  exact hclear.trans (foldl (f := fun e f => e.modifyCrew f (·.remove id))
    (fun _ _ => of_eq rfl) (e.abilities id) (e.modifySession id Session.clearAbilities))

theorem assign (e : Engine σ) (k : JobKey) (record : Job) (id : SessionId) :
    Posts right e (e.assign k record id).2 := by
  refine Sessions.Adds.modify_of_eq _ id fun s => ?_
  unfold Session.assign
  split <;> rfl

theorem releaseWorker (e : Engine σ) (worker : Option SessionId) (handle : String) :
    Posts right e (match worker with
      | some id => if id ∈ e.connected then e.modifySession id (·.release handle) else e
      | none => e) := by
  split
  · split
    · exact modifySession e _ fun _ => rfl
    · exact refl e
  · exact refl e

theorem setMaxQueue (e : Engine σ) (f : String) (size : Nat) :
    Posts right e (e.setMaxQueue f size) := of_eq rfl

theorem depart (e : Engine σ) (id : SessionId) : Posts right e (e.depart id) :=
  Sessions.Adds.modify_of_eq e.sessions id fun _ => rfl

theorem newSession (hid : e.session? e.sessions.size = none) (peer : String) :
    Posts right e (e.newSession peer).2 :=
  Sessions.Adds.insert_new hid peer

/-- The end of the work on a job is told as the outcome says. -/
theorem finish [JobStore σ] (e : Engine σ) (handle : String) {o : Outcome}
    (h : ∀ s, right (o.packet handle s)) : Posts right e (e.finish handle o).2 := by
  unfold Engine.finish
  split
  · exact refl e
  · next k _ =>
    dsimp only
    split
    · exact of_eq rfl
    · next live _ =>
      have hended := (releaseWorker { e.establish k.functionName with
        live := (e.establish k.functionName).live.erase k } live.worker handle).trans
          (dismiss _ k h)
      cases o with
      | complete data => exact hended.trans (publish _ _)
      | _ => exact hended

theorem settle [JobStore σ] (e : Engine σ) (live : LiveJob) {data : Bytes}
    (h : right (.response (.workComplete live.job.handle data))) :
    Posts right e (e.settle live data) := by
  unfold Engine.settle
  dsimp only
  split <;> exact (dismiss _ _ fun _ => h).of_sessions_eq rfl

section Bare

variable (hbare : ∀ p : Packet, p.Bare → right p)
include hbare

theorem wakeSession (e : Engine σ) (id : SessionId) :
    Posts right e (e.modifySession id Session.wake) :=
  Sessions.Adds.wakeSession (hbare _ .noop) e.sessions

theorem wakeCrew (e : Engine σ) (f : String) : Posts right e (e.wakeCrew f) := by
  unfold Engine.wakeCrew
  split
  · exact refl e
  · exact Sessions.Adds.wake (fun _ _ => hbare _ .noop) e.sessions

theorem wake (e : Engine σ) (id : SessionId) : Posts right e (e.wake id) := by
  exact (foldl (f := fun e f => e.modifyCrew f (·.removeSleeper id))
    (fun _ _ => of_eq rfl) (e.abilities id) e).trans (wakeSession hbare _ id)

theorem sleep (e : Engine σ) (id : SessionId) : Posts right e (e.sleep id) := by
  have hdoze : Posts right e
      (e.modifySession id (·.sleepUntil (e.uptime + e.settings.longPollSeconds))) :=
    modifySession e id fun _ => rfl
  have hasleep := hdoze.trans (foldl
    (f := fun e f => (e.establish f).modifyCrew f (·.addSleeper id)) (fun _ _ => of_eq rfl)
    (e.abilities id) _)
  simp only [Engine.sleep]
  split
  · exact hasleep.trans (wake hbare _ id)
  · exact hasleep

theorem dropLost (e : Engine σ) (k : JobKey) : Posts right e (e.dropLost k) := by
  unfold Engine.dropLost
  split
  · exact refl e
  · exact dismiss _ k fun _ => hbare _ (.workFail _)

theorem requeue (e : Engine σ) (handle : String) : Posts right e (e.requeue handle) := by
  unfold Engine.requeue
  split
  · exact refl e
  · dsimp only
    split
    · exact of_eq rfl
    · exact wakeCrew hbare _ _

variable [JobStore σ]

theorem abandon (e : Engine σ) (handle : String) : Posts right e (e.abandon handle) := by
  unfold Engine.abandon
  split
  · exact requeue hbare e handle
  · exact finish e handle fun _ => hbare _ (.workFail _)

theorem disconnect (e : Engine σ) (id : SessionId) : Posts right e (e.disconnect id) :=
  (depart e id).trans (foldl (abandon hbare) _ _)

theorem takeFrom (id : SessionId) (fs : List String) (e : Engine σ) :
    Posts right e (e.takeFrom id fs).2 := by
  refine takeFrom_of_steps (P := Posts right e) ?_ ?_ ?_ fs (refl e)
  · intro e' f q store h
    exact h
  · intro e' k h
    exact h.trans (dropLost hbare e' k)
  · intro e' k record h
    exact h.trans (assign e' k record id)

theorem letIn (e : Engine σ) (j : Job) (client : Option SessionId) :
    Posts right e (e.letIn j client).2 := by
  simp only [Engine.letIn]
  split
  · exact of_eq rfl
  · exact of_eq rfl
  · refine of_sessions_eq ((await _ _ client).trans ((wakeCrew hbare _ _).trans (publish _ _))) ?_
    rfl

theorem submit (e : Engine σ) (j : Job) (client : Option SessionId) :
    Posts right e (e.submit j client).2 := by
  have hidentified : Posts right e (e.identify j).2 := identify e j
  rcases hi : e.identify j with ⟨j₁, e₁⟩
  rw [hi] at hidentified
  have hknown : Posts right e (e₁.establish j₁.functionName) := hidentified.trans (of_eq rfl)
  simp only [Engine.submit, hi]
  split
  · exact hknown.trans (await _ j₁ client)
  · exact hknown.trans (letIn hbare _ j₁ client)

theorem remove (e : Engine σ) (handle : String) : Posts right e (e.remove handle).2 := by
  unfold Engine.remove
  split
  · exact refl e
  · dsimp only
    split
    · exact (dismiss _ _ fun _ => hbare _ (.workFail _)).of_sessions_eq rfl
    · exact of_eq rfl

end Bare

end Posts

/-! ### Actions -/

variable [JobStore σ] {a : Action σ}

/-- The packets that an action may put into outboxes. Apart from those that an engine sends on its
own, they tell what the action itself tells. -/
inductive Tells (e : Engine σ) : Action σ → Packet → Prop
  | bare {a : Action σ} {p : Packet} : p.Bare → Tells e a p
  | finish (handle : String) (o : Outcome) (s : Session) :
    Tells e (.finish handle o) (o.packet handle s)
  | progress (handle : String) (n d : UInt32) :
    Tells e (.progress handle n d) (.response (.workStatus handle n d))
  | data (handle : String) (data : Bytes) :
    Tells e (.data handle data) (.response (.workData handle data))
  | warning (handle : String) (data : Bytes) :
    Tells e (.warning handle data) (.response (.workWarning handle data))
  | heard {event : PeerEvent} {live : LiveJob} : event.kind = .workData →
    e.live.find? ⟨event.functionName, event.uniqueId⟩ = some live →
    Tells e (.hear event) (.response (.workData live.job.handle event.data))
  | settled {event : PeerEvent} {live : LiveJob} : event.kind = .workComplete →
    e.live.find? ⟨event.functionName, event.uniqueId⟩ = some live →
    Tells e (.hear event) (.response (.workComplete live.job.handle event.data))

theorem posts_hear (e : Engine σ) (event : PeerEvent) :
    Posts (e.Tells (.hear event)) e (e.hear event) := by
  unfold hear
  dsimp only
  split
  · exact .refl e
  · exact .wakeCrew (fun _ => .bare) e _
  · exact .refl e
  · next live _ hkind hlive => exact .notify e _ (.heard hkind hlive)
  · next live _ hkind hlive =>
    split
    · exact .refl e
    · exact .settle e live (.settled hkind hlive)

/-- What an action puts into an outbox is put behind what is there. A session that begins is given
an outbox of its own. -/
theorem posts_act (e : Engine σ) (ha : ∀ peer, a ≠ .arrive peer) :
    Posts (e.Tells a) e (e.act a) := by
  have hbare : ∀ p : Packet, p.Bare → e.Tells a p := fun _ => .bare
  cases a with
  | arrive peer => exact absurd rfl (ha peer)
  | connect i => exact .connect e i
  | disconnect i => exact .disconnect hbare e i
  | setClientId i clientId => exact .modifySession e i fun _ => rfl
  | wantExceptions i wants => exact .modifySession e i fun _ => rfl
  | canDo i f timeout => exact .addAbility e i f timeout
  | cantDo i f => exact .removeAbility e i f
  | resetAbilities i => exact .resetAbilities e i
  | sleep i => exact .sleep hbare e i
  | wake i => exact .wake hbare e i
  | grab i => exact .takeFrom hbare i (e.abilities i) e
  | submit j client => exact .submit hbare e j client
  | finish handle o => exact .finish e handle fun s => .finish handle o s
  | progress handle n d =>
    show Posts _ e (e.reportProgress handle n d).2
    unfold reportProgress
    split
    · exact .refl e
    · exact Posts.of_sessions_eq (.notify _ _ (.progress handle n d)) rfl
  | data handle data =>
    show Posts _ e (e.reportData handle data).2
    unfold reportData
    split
    · exact .refl e
    · exact (Posts.publish e _).trans (.notify _ _ (.data handle data))
  | warning handle data =>
    show Posts _ e (e.reportWarning handle data).2
    unfold reportWarning
    split
    · exact .refl e
    · exact .notify e _ (.warning handle data)
  | remove handle => exact .remove hbare e handle
  | setMaxQueue f size => exact .setMaxQueue e f size
  | hear event => exact posts_hear e event
  | _ => exact .refl e

/-- What is in an outbox was there before, or has been put there. -/
theorem mem_outbox_act {id : SessionId} {p : Packet} (h : p ∈ (e.act a).outbox id) :
    p ∈ e.outbox id ∨ e.Tells a p := by
  by_cases ha : ∃ peer, a = .arrive peer
  · obtain ⟨peer, rfl⟩ := ha
    replace h : p ∈ Sessions.outbox (Table.insert e.sessions e.sessions.size (.new peer)) id := h
    rw [Sessions.outbox, Table.get?_insert] at h
    split at h
    · exact absurd h (by simp [Session.new])
    · exact .inl h
  · obtain ⟨ps, hps, hright⟩ := posts_act e (fun peer h => ha ⟨peer, h⟩) id
    rw [outbox, hps] at h
    exact (List.mem_append.mp h).imp_right (hright p)

/-! ### What is about jobs -/

/-- Whatever comes into an outbox tells the end of a job, or is about none. -/
def OnlyEnds (e e' : Engine σ) : Prop :=
  e.sessions.Adds (fun _ p => p.about? = p.ends?) e'.sessions

/-- What comes into the outbox of a session: ends only, or reports on one live job for which it
waits. -/
inductive Delivers (e : Engine σ) (id : SessionId) (ps : List Packet) : Prop
  | ends : (∀ p ∈ ps, p.about? = p.ends?) → Delivers e id ps
  | reports {handle : String} {k : JobKey} : e.live.keyOf? handle = some k →
    (∀ p ∈ ps, id ∈ e.waiters k ∧ p.reports? = some handle) → Delivers e id ps

omit [JobStore σ] in
theorem OnlyEnds.delivers (h : OnlyEnds e e') (id : SessionId) :
    ∃ ps, e'.outbox id = e.outbox id ++ ps ∧ e.Delivers id ps := by
  obtain ⟨ps, hps, hends⟩ := h id
  exact ⟨ps, hps, .ends hends⟩

omit [JobStore σ] in
/-- A report on a live job goes to those who wait for it. -/
theorem delivers_notify {k : JobKey} {handle : String} (hk : e.live.keyOf? handle = some k)
    {body : Body} (hbody : (Packet.response body).reports? = some handle)
    (hsessions : e'.sessions = e.sessions.send (fun _ => .response body) (e.waiters k))
    (id : SessionId) : ∃ ps, e'.outbox id = e.outbox id ++ ps ∧ e.Delivers id ps := by
  have hadds : e.sessions.Adds (fun id p => id ∈ e.waiters k ∧ p.reports? = some handle)
      (e.sessions.send (fun _ => .response body) (e.waiters k)) :=
    .send (fun _ hid _ => ⟨hid, hbody⟩) e.sessions
  obtain ⟨ps, hps, hright⟩ := hadds id
  exact ⟨ps, by rw [outbox, hsessions, hps, outbox], .reports hk hright⟩

omit [JobStore σ] in
theorem InOrder.keyOf?_of_jobInState (he : e.InOrder) {handle : String} {state : JobState}
    {live : LiveJob} (h : e.jobInState handle state = .ok live) :
    e.live.keyOf? handle = some live.job.key := by
  obtain ⟨hlive, rfl, -⟩ := (he.keeps.jobInState_eq_ok_iff he.consistent).mp h
  exact he.consistent.keys_handle hlive

omit [JobStore σ] in
theorem InOrder.session?_size (he : e.InOrder) : e.session? e.sessions.size = none := by
  refine Option.eq_none_iff_forall_ne_some.mpr fun s hs => ?_
  exact absurd (he.keeps.lt_size (Option.isSome_iff_exists.mpr ⟨s, hs⟩)) (Nat.lt_irrefl _)

omit [JobStore σ] in
theorem InOrder.delivers_progress (he : e.InOrder) (handle : String) (n d : UInt32)
    (id : SessionId) : ∃ ps, (e.reportProgress handle n d).2.outbox id = e.outbox id ++ ps ∧
      e.Delivers id ps := by
  unfold reportProgress
  split
  · exact OnlyEnds.delivers (Posts.refl e) id
  · next live hlive => exact delivers_notify (he.keyOf?_of_jobInState hlive) rfl rfl id

omit [JobStore σ] in
theorem InOrder.delivers_data (he : e.InOrder) (handle : String) (data : Bytes) (id : SessionId) :
    ∃ ps, (e.reportData handle data).2.outbox id = e.outbox id ++ ps ∧ e.Delivers id ps := by
  unfold reportData
  split
  · exact OnlyEnds.delivers (Posts.refl e) id
  · next live hlive =>
    have hreports : (Packet.response (.workData handle data)).reports? = some handle := rfl
    refine delivers_notify (he.keyOf?_of_jobInState hlive) hreports ?_ id
    unfold publish
    split <;> rfl

omit [JobStore σ] in
theorem InOrder.delivers_warning (he : e.InOrder) (handle : String) (data : Bytes)
    (id : SessionId) : ∃ ps, (e.reportWarning handle data).2.outbox id = e.outbox id ++ ps ∧
      e.Delivers id ps := by
  unfold reportWarning
  split
  · exact OnlyEnds.delivers (Posts.refl e) id
  · next live hlive => exact delivers_notify (he.keyOf?_of_jobInState hlive) rfl rfl id

theorem InOrder.delivers_hear (he : e.InOrder) (event : PeerEvent) (id : SessionId) :
    ∃ ps, (e.hear event).outbox id = e.outbox id ++ ps ∧ e.Delivers id ps := by
  unfold hear
  dsimp only
  split
  · exact OnlyEnds.delivers (Posts.refl e) id
  · exact OnlyEnds.delivers (Posts.wakeCrew (fun _ => Packet.Bare.about?_eq) e _) id
  · exact OnlyEnds.delivers (Posts.refl e) id
  · next live _ _ hlive =>
    have hhandle := he.consistent.keys_handle hlive
    exact delivers_notify hhandle rfl rfl id
  · split
    · exact OnlyEnds.delivers (Posts.refl e) id
    · exact OnlyEnds.delivers (Posts.settle e _ rfl) id

/-- What an action puts into the outbox of a session is put behind what is there. -/
theorem InOrder.delivers_act (he : e.InOrder) (a : Action σ) (id : SessionId) :
    ∃ ps, (e.act a).outbox id = e.outbox id ++ ps ∧ e.Delivers id ps := by
  have hends : (∀ peer, a ≠ .arrive peer) → (∀ p, e.Tells a p → p.about? = p.ends?) →
      ∃ ps, (e.act a).outbox id = e.outbox id ++ ps ∧ e.Delivers id ps := fun ha h =>
    OnlyEnds.delivers (Sessions.Adds.mono (fun _ => h) (posts_act e ha)) id
  cases a with
  | arrive peer => exact OnlyEnds.delivers (Posts.newSession he.session?_size peer) id
  | finish handle o =>
    refine hends (by simp) fun p hp => ?_
    cases hp with
    | bare h => exact h.about?_eq
    | finish _ _ s => exact o.about?_packet handle s
  | progress handle n d => exact he.delivers_progress handle n d id
  | data handle data => exact he.delivers_data handle data id
  | warning handle data => exact he.delivers_warning handle data id
  | hear event => exact he.delivers_hear event id
  | _ =>
    refine hends (by simp) fun p hp => ?_
    cases hp with
    | bare h => exact h.about?_eq

/-- Of the ends that an action puts into an outbox there is one at most for each job, and that job
has been live, has ended, and the session waits for it. -/
theorem InOrder.ends_act (he : e.InOrder) (ha : e.Legal a)
    (hroom : e.handles.last < e.handles.last + 1) {id : SessionId} {ps : List Packet}
    (hps : (e.act a).outbox id = e.outbox id ++ ps) (handle : String) :
    ps.filter (·.ends? = some handle) = [] ∨
      ∃ k p, e.live.keyOf? handle = some k ∧ id ∈ e.waiters k ∧
        (e.act a).live.keyOf? handle = none ∧ ps.filter (·.ends? = some handle) = [p] := by
  have hnotices : (e.act a).noticesOf handle id =
      e.noticesOf handle id ++ ps.filter (·.ends? = some handle) := by
    show ((e.act a).outbox id).filter _ = (e.outbox id).filter _ ++ _
    rw [hps, List.filter_append]
  by_cases hgone : e.live.keyOf? handle ≠ none ∧ (e.act a).live.keyOf? handle = none
  · obtain ⟨k, hk⟩ := Option.ne_none_iff_exists'.mp hgone.1
    obtain ⟨_, reply, -, -, -, -, htold⟩ := he.act_of_ended ha hroom hk hgone.2
    have hfilter := List.append_cancel_left (hnotices.symm.trans (htold id))
    split at hfilter
    · next hwaits => exact .inr ⟨k, _, hk, hwaits.1, hgone.2, hfilter⟩
    · exact .inl hfilter
  · have hsame := he.noticesOf_act ha hroom (fun hk hk' => hgone ⟨hk, hk'⟩) id
    exact .inl (List.append_right_eq_self.mp (hnotices.symm.trans hsame))

/-- What an action puts into an outbox is about live jobs for which the session waits. None of it
says that a job is taken in, and a job of which it tells the end is not live any more. -/
theorem InOrder.mail_act (he : e.InOrder) (ha : e.Legal a)
    (hroom : e.handles.last < e.handles.last + 1) (id : SessionId) :
    ∃ ps, (e.act a).outbox id = e.outbox id ++ ps ∧ ps.Pairwise Packet.Precedes ∧
      ∀ p ∈ ps, p.created? = none ∧ ∀ handle, p.about? = some handle →
        ∃ k, e.live.keyOf? handle = some k ∧ id ∈ e.waiters k ∧
          (p.ends? = some handle → (e.act a).live.keyOf? handle = none) := by
  obtain ⟨ps, hps, hdelivers⟩ := he.delivers_act a id
  refine ⟨ps, hps, ?_⟩
  cases hdelivers with
  | ends hends =>
    constructor
    · refine List.pairwise_iff_forall_sublist.mpr fun {p q} hpq handle hp hq => ?_
      have hq : q.ends? = some handle := hends q (hpq.subset (by simp)) ▸ hq
      have hlength := (hpq.filter (·.ends? = some handle)).length_le
      rcases he.ends_act ha hroom hps handle with h | ⟨_, _, -, -, -, h⟩ <;>
      · rw [h] at hlength
        simp [hp, hq] at hlength
    · refine fun p hp => ⟨Packet.created?_eq_none_of_ends (hends p hp), fun handle habout => ?_⟩
      have hmem : p ∈ ps.filter (·.ends? = some handle) :=
        List.mem_filter.mpr ⟨hp, by simpa [← hends p hp] using habout⟩
      rcases he.ends_act ha hroom hps handle with h | ⟨k, _, hk, hwaits, hgone, -⟩
      · exact absurd (h ▸ hmem) List.not_mem_nil
      · exact ⟨k, hk, hwaits, fun _ => hgone⟩
  | @reports handle k hk hreports =>
    have hnone : ∀ p ∈ ps, p.created? = none ∧ p.ends? = none := fun p hp =>
      Packet.of_reports (hreports p hp).2
    constructor
    · refine List.pairwise_of_forall_mem_list fun p hp q _ handle hends => ?_
      exact absurd ((hnone p hp).2.symm.trans hends) (by simp)
    · refine fun p hp => ⟨(hnone p hp).1, fun handle' habout => ?_⟩
      obtain ⟨hwaits, hreport⟩ := hreports p hp
      have hsame := Packet.about?_eq_some_iff.mpr (.inr (.inl hreport))
      obtain rfl := Option.some.inj (hsame.symm.trans habout)
      exact ⟨k, hk, hwaits, fun hends => absurd ((hnone p hp).2.symm.trans hends) (by simp)⟩

end Engine

end JobBroker
