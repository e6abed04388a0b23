import JobBroker.Proofs.Admin.Tables
import JobBroker.Proofs.Engine.Addressing

/-!
# Names that operators see

Listings show the functions that are known and what sessions say of themselves. A function becomes
known when a session says that it can do it, when a job for it is submitted or taken up, and when an
operator limits its queue; nothing else brings a name in.

* `Reveals` : between two engines only some functions have become known, and sessions say the same.
  Each operation is shown to reveal no more than the functions that it is given.
* `keyOf?_act` : a handle leads to a job that has been there before, or that is let in.
* `Plain.act`, `Plain.load` : no name breaks a listing as long as none does that is brought in.
-/

namespace JobBroker

open Function (update update_apply)
open Relation (ReflTransGen)
open RecordStore (record?)

/-- What operators see of a session. -/
def Session.label (s : Session) : String × Option String × List String :=
  (s.peer, s.clientId, s.abilities)

/-! ### Handles -/

namespace LiveJobs

theorem keyOf?_of_erase {l : LiveJobs} {k k' : JobKey} {handle : String}
    (h : (l.erase k).keyOf? handle = some k') : l.keyOf? handle = some k' := by
  cases hk : l.find? k with
  | none =>
    rw [erase, hk] at h
    exact h
  | some live =>
    rw [keyOf?_erase_eq hk, update_apply] at h
    split at h
    · exact absurd h (by simp)
    · exact h

theorem keyOf?_of_insert {l : LiveJobs} {j : Job} {w : Option SessionId} {k : JobKey}
    {handle : String} (h : (l.insert j w).keyOf? handle = some k) :
    l.keyOf? handle = some k ∨ k = j.key := by
  rw [keyOf?_insert_eq, update_apply] at h
  split at h
  · exact .inr (Option.some.inj h).symm
  · exact .inl h

end LiveJobs

namespace Core

variable {σ : Type} [JobStore σ] {c c' : Core σ} {handle : String} {k : JobKey}

/-- Once a job is let in, no handle comes to lead anywhere else. -/
theorem Shift.keyOf?_of_filed (h : c.Shift c') (hc : c.Filed)
    (hk : c'.live.keyOf? handle = some k) : c.live.keyOf? handle = some k := by
  cases h with
  | lose _ _ _ | finish _ _ | remove _ => exact LiveJobs.keyOf?_of_erase hk
  | adopt hq _ hnone =>
    obtain ⟨-, live, hlive⟩ := hc.live_of_yields hq
    exact absurd (hnone.symm.trans hlive) (by simp)
  | adjust _ _ | hand _ _ _ | requeue _ | advance => exact hk

theorem keyOf?_of_shifts (hs : ReflTransGen Shift c c') (hc : c.Filed)
    (hk : c'.live.keyOf? handle = some k) : c.live.keyOf? handle = some k := by
  induction hs with
  | refl => exact hk
  | tail hpath hs ih => exact ih (hs.keyOf?_of_filed (hc.shifts hpath).1 hk)

end Core

namespace Engine

variable {σ : Type} {e e' : Engine σ} {fs : String → Prop}

/-- Between `e` and `e'` none but some functions have become known, and sessions say the same. -/
structure Reveals (fs : String → Prop) (e e' : Engine σ) : Prop where
  known : ∀ {f}, (e'.workshop? f).isSome → (e.workshop? f).isSome ∨ fs f
  label : ∀ id, (e'.session? id).map Session.label = (e.session? id).map Session.label

namespace Reveals

theorem refl (e : Engine σ) : Reveals fs e e := ⟨.inl, fun _ => rfl⟩

theorem after {e'' : Engine σ} (h' : Reveals fs e' e'') (h : Reveals fs e e') : Reveals fs e e'' :=
  ⟨fun hf => (h'.known hf).elim h.known .inr, fun id => (h'.label id).trans (h.label id)⟩

/-- Then something happens that the sessions and the workshops have no part in. -/
theorem same {e'' : Engine σ} (h : Reveals fs e e')
    (heq : (e''.sessions, e''.workshops) = (e'.sessions, e'.workshops)) : Reveals fs e e'' := by
  obtain ⟨hsessions, hworkshops⟩ := Prod.mk.inj heq
  refine after ⟨fun {f} hf => .inl ?_, fun id => ?_⟩ h
  · rwa [workshop?, hworkshops] at hf
  · rw [session?, hsessions, session?]

/-! ### Steps -/

theorem establish (e : Engine σ) {f : String} (hf : fs f) : Reveals fs e (e.establish f) := by
  refine ⟨fun {g} hg => ?_, fun _ => rfl⟩
  replace hg : ((e.workshops.insert f (e.workshop f)).get? g).isSome := hg
  rw [Table.get?_insert] at hg
  split at hg
  · next hfg => exact .inr (hfg ▸ hf)
  · exact .inl hg

theorem modifyWorkshop (e : Engine σ) (f : String) (change : Workshop → Workshop) :
    Reveals fs e (e.modifyWorkshop f change) :=
  ⟨fun {g} hg => .inl ((isSome_modifyWorkshop e f g change).symm.trans hg), fun _ => rfl⟩

theorem setQueue (e : Engine σ) (f : String) (q : Queue) : Reveals fs e (e.setQueue f q) :=
  modifyWorkshop e f _

theorem modifySession (e : Engine σ) (id : SessionId) (change : Session → Session)
    (h : ∀ s, (change s).label = s.label) : Reveals fs e (e.modifySession id change) := by
  refine ⟨.inl, fun i => ?_⟩
  rw [session?_modifySession]
  split
  · next hi =>
    rw [Option.map_map, hi]
    exact congrArg (Option.map · _) (funext h)
  · rfl

theorem foldl {α : Type} {op : Engine σ → α → Engine σ} {as : List α}
    (hop : ∀ e, ∀ a ∈ as, Reveals fs e (op e a)) (e : Engine σ) :
    Reveals fs e (as.foldl op e) := by
  induction as generalizing e with
  | nil => exact refl e
  | cons a as ih =>
    have hrest := ih (fun e a ha => hop e a (List.mem_cons_of_mem _ ha)) (op e a)
    exact hrest.after (hop e a List.mem_cons_self)

theorem label_send (s : Session) (p : Packet) : (s.send p).label = s.label := by
  unfold Session.send
  split <;> rfl

theorem label_wake (s : Session) : s.wake.label = s.label := by
  unfold Session.wake
  split
  · exact label_send _ _
  · rfl

theorem send (e : Engine σ) (ids : List SessionId) (packet : Session → Packet) :
    Reveals fs e (e.send ids packet) := by
  induction ids generalizing e with
  | nil => exact refl e
  | cons id ids ih =>
    exact (ih _).after (modifySession e id _ fun s => label_send s (packet s))

theorem dismiss (e : Engine σ) (k : JobKey) (packet : Session → Packet) :
    Reveals fs e (e.dismiss k packet) :=
  (send _ _ packet).after (modifyWorkshop e _ _)

theorem wakeSessions (e : Engine σ) (ids : List SessionId) :
    Reveals fs e { e with sessions := e.sessions.wake ids } := by
  induction ids generalizing e with
  | nil => exact refl e
  | cons id ids ih => exact (ih _).after (modifySession e id _ label_wake)

theorem wakeCrew (e : Engine σ) (f : String) : Reveals fs e (e.wakeCrew f) := by
  unfold Engine.wakeCrew
  split
  · exact refl e
  · next w _ =>
    exact (wakeSessions (e.modifyCrew f _) w.crew.sleepers).after (modifyWorkshop e f _)

theorem publish (e : Engine σ) (event : PeerEvent) : Reveals fs e (e.publish event) := by
  unfold Engine.publish
  split
  · exact (refl e).same rfl
  · exact refl e

theorem await (e : Engine σ) (j : Job) (client : Option SessionId) :
    Reveals fs e (e.await j client) := by
  unfold Engine.await
  split
  · exact refl e
  · split
    · exact refl e
    · exact modifyWorkshop e _ _

theorem wake (e : Engine σ) (id : SessionId) : Reveals fs e (e.wake id) :=
  (modifySession _ id _ label_wake).after
    (foldl (fun e f _ => modifyWorkshop e f _) e)

theorem sleep (e : Engine σ) {id : SessionId} (h : ∀ f ∈ e.abilities id, fs f) :
    Reveals fs e (e.sleep id) := by
  have hasleep := (foldl (fun (e : Engine σ) f hf =>
    (modifyWorkshop _ f fun w => { w with crew := w.crew.addSleeper id }).after
      (establish e (h f hf))) _).after (modifySession e id
        (·.sleepUntil (e.uptime + e.settings.longPollSeconds)) fun _ => rfl)
  simp only [Engine.sleep]
  split
  · exact (wake _ id).after hasleep
  · exact hasleep

theorem setMaxQueue (e : Engine σ) {f : String} (hf : fs f) (size : Nat) :
    Reveals fs e (e.setMaxQueue f size) :=
  (modifyWorkshop _ f _).after (establish e hf)

theorem reportProgress (e : Engine σ) (handle : String) (n d : UInt32) :
    Reveals fs e (e.reportProgress handle n d).2 := by
  unfold Engine.reportProgress
  split
  · exact refl e
  · exact (send _ _ _).after ((refl e).same rfl)

theorem reportData (e : Engine σ) (handle : String) (data : Bytes) :
    Reveals fs e (e.reportData handle data).2 := by
  unfold Engine.reportData
  split
  · exact refl e
  · exact (send _ _ _).after (publish e _)

theorem reportWarning (e : Engine σ) (handle : String) (data : Bytes) :
    Reveals fs e (e.reportWarning handle data).2 := by
  unfold Engine.reportWarning
  split
  · exact refl e
  · exact send e _ _

theorem dropLost (e : Engine σ) (k : JobKey) : Reveals fs e (e.dropLost k) := by
  unfold Engine.dropLost
  split
  · exact refl e
  · exact (dismiss _ k _).after ((refl e).same rfl)

theorem assign (e : Engine σ) (k : JobKey) (record : Job) (id : SessionId) :
    Reveals fs e (e.assign k record id).2 := by
  have hassign : ∀ (s : Session) handle, (s.assign handle).label = s.label := fun s h => by
    unfold Session.assign
    split <;> rfl
  exact (modifySession _ id _ fun s => hassign s _).after ((refl e).same rfl)

theorem requeue (e : Engine σ) {handle : String}
    (hk : ∀ k, e.live.keyOf? handle = some k → fs k.functionName) :
    Reveals fs e (e.requeue handle) := by
  unfold Engine.requeue
  split
  · exact refl e
  · next k hkey =>
    have hestablished := establish e (hk k hkey)
    dsimp only
    split
    · exact hestablished
    · exact (wakeCrew _ _).after ((modifyWorkshop _ _ _).after (hestablished.same rfl))

theorem releaseWorker (e : Engine σ) (worker : Option SessionId) (handle : String) :
    Reveals fs e (match worker with
      | some id => if id ∈ e.connected then e.modifySession id (·.release handle) else e
      | none => e) := by
  split
  · split
    · exact modifySession e _ (·.release handle) fun _ => rfl
    · exact refl e
  · exact refl e

/-! ### Jobs -/

variable [JobStore σ]

theorem finish (e : Engine σ) {handle : String}
    (hk : ∀ k, e.live.keyOf? handle = some k → fs k.functionName) (o : Outcome) :
    Reveals fs e (e.finish handle o).2 := by
  unfold Engine.finish
  split
  · exact refl e
  · next k hkey =>
    have hestablished := establish e (hk k hkey)
    dsimp only
    split
    · exact hestablished
    · next live _ =>
      have herased : Reveals fs e { e.establish k.functionName with live := e.live.erase k } :=
        hestablished.same rfl
      have hended := (dismiss _ k (o.packet handle)).after
        ((releaseWorker _ live.worker handle).after herased)
      cases o with
      | complete data => exact (publish _ _).after (hended.same rfl)
      | _ => exact hended.same rfl

theorem abandonAll {handles : List String} (he : e.core.Filed)
    (hk : ∀ handle k, e.live.keyOf? handle = some k → fs k.functionName) :
    Reveals fs e (handles.foldl abandon e) := by
  induction handles generalizing e with
  | nil => exact refl e
  | cons handle handles ih =>
    have habandon : Reveals fs e (e.abandon handle) := by
      unfold abandon
      split
      · exact requeue e (hk handle)
      · exact finish e (hk handle) .fail
    have hshifts : ReflTransGen Core.Shift e.core (e.abandon handle).core :=
      (tidy_abandonAll [handle] e).lift id fun _ _ h => h.shift
    refine (ih (he.shifts hshifts).1 fun handle' k hkey => ?_).after habandon
    exact hk handle' k (Core.keyOf?_of_shifts hshifts he hkey)

theorem remove (e : Engine σ) {handle : String}
    (hf : ∀ live, e.jobInState handle .queued = .ok live → fs live.job.functionName) :
    Reveals fs e (e.remove handle).2 := by
  unfold Engine.remove
  split
  · exact refl e
  · next live hlive =>
    have hremoved := fun q => (setQueue _ live.job.functionName q).after
      (establish e (hf live hlive))
    dsimp only
    split
    · exact (dismiss _ _ _).after ((hremoved _).same rfl)
    · exact (hremoved _).same rfl

theorem settle (e : Engine σ) (live : LiveJob) (data : Bytes) :
    Reveals fs e (e.settle live data) := by
  unfold Engine.settle
  dsimp only
  refine (dismiss _ _ _).after ?_
  split <;> exact (setQueue e live.job.key.functionName _).same rfl

theorem hear (e : Engine σ) (event : PeerEvent) : Reveals fs e (e.hear event) := by
  unfold Engine.hear
  dsimp only
  split
  · exact refl e
  · exact wakeCrew e _
  · exact refl e
  · exact send e _ _
  · split
    · exact refl e
    · exact settle e _ _

theorem takeFrom (id : SessionId) (gs : List String) (e : Engine σ) :
    Reveals fs e (e.takeFrom id gs).2 := by
  refine takeFrom_of_steps (P := Reveals fs e) ?_ ?_ ?_ gs (refl e)
  · intro e' f q store h
    exact ((setQueue e' f q).after h).same rfl
  · intro e' k h
    exact (dropLost e' k).after h
  · intro e' k record h
    exact (assign e' k record id).after h

theorem letIn (e : Engine σ) (j : Job) (client : Option SessionId) :
    Reveals fs e (e.letIn j client).2 := by
  unfold Engine.letIn
  dsimp only
  split
  · exact (setQueue e _ _).same rfl
  · exact (setQueue e _ _).same rfl
  · exact (publish _ _).after ((wakeCrew _ _).after ((await _ _ client).after
      ((setQueue e _ _).same rfl)))

theorem submit (e : Engine σ) {j : Job} (hf : fs j.functionName) (client : Option SessionId) :
    Reveals fs e (e.submit j client).2 := by
  have hidentify : Reveals fs e (e.identify j).2 ∧
      (e.identify j).1.functionName = j.functionName := by
    unfold identify
    split
    · exact ⟨(refl e).same rfl, rfl⟩
    · exact ⟨refl e, rfl⟩
  have hestablished := (establish (e.identify j).2 (hidentify.2 ▸ hf)).after hidentify.1
  unfold Engine.submit
  dsimp only
  split
  · exact (await _ _ client).after hestablished
  · exact (letIn _ _ client).after hestablished

end Reveals

end Engine

/-! ### Plain names -/

/-- What a session says of itself does not break a line, nor do its functions break a column. -/
structure Session.IsPlain (s : Session) : Prop where
  peer : '\n' ∉ s.peer.toList
  clientId : ∀ i, s.clientId = some i → '\n' ∉ i.toList
  abilities : ∀ f ∈ s.abilities, JobBroker.IsPlain f

namespace Session.IsPlain

variable {s : Session}

theorem new {peer : String} (h : '\n' ∉ peer.toList) : (Session.new peer).IsPlain :=
  ⟨h, fun _ hi => absurd hi (by simp [Session.new]), fun _ hf => absurd hf List.not_mem_nil⟩

theorem of_label {s' : Session} (h : s.IsPlain) (hlabel : s'.label = s.label) : s'.IsPlain := by
  obtain ⟨hpeer, hrest⟩ := Prod.mk.inj hlabel
  obtain ⟨hclient, habilities⟩ := Prod.mk.inj hrest
  exact ⟨hpeer ▸ h.peer, fun i hi => h.clientId i (hclient ▸ hi), habilities ▸ h.abilities⟩

theorem addAbility (h : s.IsPlain) {f : String} (hf : JobBroker.IsPlain f)
    (timeout : Option UInt32) : (s.addAbility f timeout).IsPlain := by
  refine { h with abilities := fun g hg => ?_ }
  unfold Session.addAbility at hg
  dsimp only at hg
  split at hg
  · exact h.abilities g hg
  · rcases List.mem_append.mp hg with hg | hg
    · exact h.abilities g hg
    · exact List.mem_singleton.mp hg ▸ hf

theorem removeAbility (h : s.IsPlain) (f : String) : (s.removeAbility f).IsPlain :=
  { h with abilities := fun g hg => h.abilities g (List.mem_filter.mp hg).1 }

theorem clearAbilities (h : s.IsPlain) : s.clearAbilities.IsPlain :=
  { h with abilities := fun _ hf => absurd hf List.not_mem_nil }

end Session.IsPlain

/-- No text that the action brings in breaks a listing. -/
def Action.IsPlain {σ : Type} : Action σ → Prop
  | .arrive peer => '\n' ∉ peer.toList
  | .setClientId _ clientId => '\n' ∉ clientId.toList
  | .canDo _ f _ | .setMaxQueue f _ => JobBroker.IsPlain f
  | .submit j _ => JobBroker.IsPlain j.functionName
  | _ => True

namespace Engine

variable {σ : Type} {e e' : Engine σ}

/-- No text in a listing breaks it. -/
structure Shown (e : Engine σ) : Prop where
  known : ∀ f, (e.workshop? f).isSome → IsPlain f
  session : ∀ id s, e.session? id = some s → s.IsPlain

/-- Nor does any that may come into one. -/
structure Plain (e : Engine σ) : Prop extends Shown e where
  filed : e.Filed
  key : ∀ handle k, e.live.keyOf? handle = some k → IsPlain k.functionName

namespace Shown

theorem abilities (he : e.Shown) {id : SessionId} : ∀ f ∈ e.abilities id, IsPlain f := by
  intro f hf
  cases hs : e.session? id with
  | none => exact absurd hf (by simp [Engine.abilities, hs])
  | some s =>
    rw [Engine.abilities, hs] at hf
    exact (he.session id s hs).abilities f hf

theorem reveals (he : e.Shown) (h : Reveals IsPlain e e') : e'.Shown where
  known := fun f hf => (h.known hf).elim (he.known f) fun hplain => hplain
  session := by
    intro id s hs
    have hlabel := h.label id
    rw [hs] at hlabel
    obtain ⟨s₀, hs₀, heq⟩ := Option.map_eq_some_iff.mp hlabel.symm
    exact (he.session id s₀ hs₀).of_label heq.symm

theorem modifySession (he : e.Shown) (id : SessionId) {change : Session → Session}
    (hchange : ∀ s, s.IsPlain → (change s).IsPlain) : (e.modifySession id change).Shown where
  known := he.known
  session := by
    intro i s hs
    rw [session?_modifySession] at hs
    split at hs
    · obtain ⟨s₀, hs₀, rfl⟩ := Option.map_eq_some_iff.mp hs
      exact hchange s₀ (he.session id s₀ hs₀)
    · exact he.session i s hs

theorem depart (he : e.Shown) (id : SessionId) : (e.depart id).Shown := by
  have hsession : (e.modifySession id fun s => { s.clearAbilities with assigned := [] }).Shown :=
    he.modifySession id fun s hs => hs.clearAbilities.of_label rfl
  refine ⟨fun f hf => he.known f ?_, hsession.session⟩
  rwa [workshop?_depart, Option.isSome_map] at hf

end Shown

variable [JobStore σ] {a : Action σ}

theorem keyOf?_act (he : e.Filed) {handle : String} {k : JobKey}
    (hk : (e.act a).live.keyOf? handle = some k) : e.live.keyOf? handle = some k ∨
      ∃ j client, a = .submit j client ∧ k.functionName = j.functionName := by
  by_cases halter : ∃ change, a = .alterStore change
  · obtain ⟨change, rfl⟩ := halter
    exact .inl hk
  by_cases hsubmit : ∃ j client, a = .submit j client
  · obtain ⟨j, client, rfl⟩ := hsubmit
    have hname : (e.identify j).1.functionName = j.functionName := by
      unfold identify
      split <;> rfl
    replace hk : (e.submit j client).2.core.live.keyOf? handle = some k := hk
    have htaken := taken_submit e j client
    generalize (e.submit j client).1 = answer, (e.submit j client).2.core = c at htaken hk
    cases htaken with
    | joined _ | refused _ => exact .inl hk
    | letIn _ hj _ =>
      rcases LiveJobs.keyOf?_of_insert hk with hk | rfl
      · exact .inl hk
      · exact .inr ⟨j, client, rfl, (congrArg Job.functionName hj).trans hname⟩
  · have hshifts := shifts_of_no_submission e (fun change h => halter ⟨change, h⟩)
      fun j client h => hsubmit ⟨j, client, h⟩
    exact .inl (Core.keyOf?_of_shifts hshifts he.toFiled hk)

theorem Plain.act (he : e.Plain) (ha : a.IsPlain) : (e.act a).Plain := by
  refine { toShown := ?_, filed := he.filed.act a, key := fun handle k hk => ?_ }
  · have hreveals : Reveals IsPlain e (e.act a) → (e.act a).Shown := he.toShown.reveals
    cases a with
    | arrive peer =>
      refine ⟨he.known, fun id s hs => ?_⟩
      replace hs : (e.newSession peer).2.session? id = some s := hs
      rw [session?_newSession] at hs
      split at hs
      · exact Option.some.inj hs ▸ .new ha
      · exact he.session id s hs
    | setClientId id clientId =>
      refine he.modifySession id fun s hs => { hs with clientId := fun i hi => ?_ }
      exact Option.some.inj hi ▸ ha
    | canDo id f timeout =>
      have hlearnt := he.modifySession id fun s hs => hs.addAbility ha timeout
      exact hlearnt.reveals ((Reveals.modifyWorkshop _ f _).after (.establish _ ha))
    | cantDo id f =>
      have hforgot := he.modifySession id fun s hs => hs.removeAbility f
      exact hforgot.reveals (.modifyWorkshop _ f _)
    | resetAbilities id =>
      have hforgot := he.modifySession id fun s hs => hs.clearAbilities
      exact hforgot.reveals (.foldl (fun e f _ => .modifyWorkshop e f _) _)
    | disconnect id =>
      have hcore : (e.depart id).core = e.core := core_depart e id
      have hkey : ∀ handle k, (e.depart id).live.keyOf? handle = some k → IsPlain k.functionName :=
        fun handle k hk => he.key handle k hk
      exact (he.depart id).reveals (.abandonAll (hcore.symm ▸ he.filed.toFiled) hkey)
    | wantExceptions id wants => exact hreveals (.modifySession e id _ fun _ => rfl)
    | sleep id => exact hreveals (.sleep e he.abilities)
    | wake id => exact hreveals (.wake e id)
    | grab id => exact hreveals (.takeFrom id _ e)
    | submit j client => exact hreveals (.submit e ha client)
    | finish handle o => exact hreveals (.finish e (he.key handle) o)
    | progress handle n d => exact hreveals (.reportProgress e handle n d)
    | data handle data => exact hreveals (.reportData e handle data)
    | warning handle data => exact hreveals (.reportWarning e handle data)
    | remove handle =>
      refine hreveals (.remove e fun live hlive => ?_)
      obtain ⟨k, -, hfind, -⟩ := find?_of_jobInState hlive
      have hname : live.job.key = k := he.filed.key_eq hfind
      subst hname
      exact he.known _ (he.filed.known (Option.isSome_of_eq_some hfind))
    | setMaxQueue f size => exact hreveals (.setMaxQueue e ha size)
    | hear event => exact hreveals (.hear e event)
    | connect id =>
      refine hreveals ?_
      show Reveals IsPlain e (e.connect id)
      unfold connect
      split
      · exact .refl e
      · exact (Reveals.refl e).same rfl
    | setClock now => exact hreveals ((Reveals.refl e).same rfl)
    | elapse seconds => exact hreveals ((Reveals.refl e).same rfl)
    | alterStore change => exact hreveals ((Reveals.refl e).same rfl)
  · rcases keyOf?_act he.filed hk with hk | ⟨j, client, rfl, hname⟩
    · exact he.key handle k hk
    · exact hname ▸ ha

/-! ### Stored jobs -/

omit [JobStore σ] in
theorem Reveals.restore {fs : String → Prop} (e : Engine σ) {j : Job} (hf : fs j.functionName) :
    Reveals fs e (e.restore j).2 := by
  apply restore_of_steps (P := Reveals fs e)
  · exact fun _ => (Reveals.establish _ hf).after ((Reveals.refl e).same rfl)
  · exact fun e' q _ he' => ((Reveals.setQueue e' _ q).after he').same rfl

omit [JobStore σ] in
theorem Plain.restore (he : e.Plain) {j : Job} (hj : IsPlain j.functionName) :
    (e.restore j).2.Plain := by
  refine { toShown := he.reveals (.restore e hj), filed := he.filed.restore j, key := ?_ }
  intro handle k hk
  obtain ⟨-, hlive | hlive⟩ := restore_cases e j
  · exact he.key handle k (hlive ▸ hk)
  · rw [hlive] at hk
    rcases LiveJobs.keyOf?_of_insert hk with hk | rfl
    · exact he.key handle k hk
    · exact hj

variable [RecordStore σ]

theorem Plain.load (he : e.Plain) (hread : ∀ s : σ, record? (JobStore.readAll s).2 = record? s)
    (hstore : ∀ k j, record? e.store k = some j → IsPlain j.functionName) : e.load.2.Plain := by
  obtain ⟨⟨store, -, hloaded⟩, hjobs⟩ := loaded_records hread e
  rw [load_snd]
  apply restoreAll_of_restore (P := Plain) fun e' j hj he' => ?_
  · rw [hloaded]
    exact { he with filed := { he.filed with } }
  · obtain ⟨k, hk⟩ := hjobs j hj
    exact he'.restore (hstore k j hk)

end Engine

end JobBroker
