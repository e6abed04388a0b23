import JobBroker.Proofs.Engine.Departure
import JobBroker.Proofs.Engine.Submission
import JobBroker.Proofs.Engine.Work

/-!
# Actions

Everything that may be done to an engine is an `Action`. It is legal when it is made by a connected
session.

* `Makes` : the moves of the ledger that an action makes. `Cause` : which action a move is made by.
* `InOrder.act` : a legal action takes an engine in order to an engine in order, by such moves.
-/

namespace JobBroker

open Ledger (Move Path)

/-- What may be done to an engine over a store of type `σ`. -/
inductive Action (σ : Type)
  /-- A session begins. It is not connected yet. -/
  | arrive (peer : String)
  | connect (id : SessionId)
  | disconnect (id : SessionId)
  | setClientId (id : SessionId) (clientId : String)
  | wantExceptions (id : SessionId) (wants : Bool)
  | canDo (id : SessionId) (f : String) (timeout : Option UInt32)
  | cantDo (id : SessionId) (f : String)
  | resetAbilities (id : SessionId)
  | sleep (id : SessionId)
  | wake (id : SessionId)
  | grab (id : SessionId)
  | submit (j : Job) (client : Option SessionId)
  | finish (handle : String) (o : Outcome)
  | progress (handle : String) (numerator denominator : UInt32)
  | data (handle : String) (data : Bytes)
  | warning (handle : String) (data : Bytes)
  | remove (handle : String)
  | setMaxQueue (f : String) (size : Nat)
  | hear (event : PeerEvent)
  /-- The clock is set, forward or back. -/
  | setClock (now : Int64)
  | elapse (seconds : Nat)
  /-- Something happens to the store, such as the loss of a record or the beginning of a fault. -/
  | alterStore (change : σ → σ)

namespace Engine

variable {σ : Type} [JobStore σ] {e e' : Engine σ} {l : Ledger} {a : Action σ}

def act (e : Engine σ) : Action σ → Engine σ
  | .arrive peer => (e.newSession peer).2
  | .connect id => e.connect id
  | .disconnect id => e.disconnect id
  | .setClientId id clientId => e.modifySession id fun s => { s with clientId := some clientId }
  | .wantExceptions id wants => e.modifySession id fun s => { s with wantsExceptions := wants }
  | .canDo id f timeout => e.addAbility id f timeout
  | .cantDo id f => e.removeAbility id f
  | .resetAbilities id => e.resetAbilities id
  | .sleep id => e.sleep id
  | .wake id => e.wake id
  | .grab id => (e.nextJob id).2
  | .submit j client => (e.submit j client).2
  | .finish handle o => (e.finish handle o).2
  | .progress handle n d => (e.reportProgress handle n d).2
  | .data handle data => (e.reportData handle data).2
  | .warning handle data => (e.reportWarning handle data).2
  | .remove handle => (e.remove handle).2
  | .setMaxQueue f size => e.setMaxQueue f size
  | .hear event => e.hear event
  | .setClock now => { e with now }
  | .elapse seconds => { e with uptime := e.uptime + seconds }
  | .alterStore change => { e with store := change e.store }

/-- An action of a session is made while the session is connected. -/
def Legal (e : Engine σ) : Action σ → Prop
  | .connect id => (e.session? id).isSome
  | .setClientId id _ | .wantExceptions id _ | .canDo id _ _ | .cantDo id _ | .resetAbilities id
  | .sleep id | .grab id | .submit _ (some id) => id ∈ e.connected
  | _ => True

instance (e : Engine σ) (a : Action σ) : Decidable (e.Legal a) := by
  unfold Legal
  split <;> infer_instance

/-- The moves of the ledger that an action makes. -/
def Makes (e : Engine σ) (ms : List Move) : Action σ → Prop
  | .disconnect id =>
    ∃ rest, ms = .leave id :: rest ∧ ∀ m ∈ rest, GivenUp e.settings.disconnectPolicy id m
  | .wantExceptions id wants => ms = [.ask id wants]
  | .grab id => Handed id (e.nextJob id).1 ms
  | .submit j client => Submitted e.ledger j.background client (e.submit j client).1 ms
  | .finish handle o =>
    ms = [] ∨ ∃ live : LiveJob, live.worker.isSome ∧ live.job.handle = handle ∧
      ms = [.close live (o.reply handle)]
  | .progress _ n d => ms = [] ∨ ∃ j id, ms = [.advance j id n d]
  | .remove handle =>
    ms = [] ∨ ∃ live : LiveJob, live.worker = none ∧ live.job.handle = handle ∧
      ms = [.close live fun _ => .workFail handle]
  | .hear event =>
    ms = [] ∨ ∃ live : LiveJob, event.kind = .workComplete ∧ live.worker = none ∧
      live.job.key = ⟨event.functionName, event.uniqueId⟩ ∧
      ms = [.close live fun _ => .workComplete live.job.handle event.data]
  | _ => ms = []

/-- The ways in which a live job ends, with what each waiter is told, by what it wants to know. -/
inductive Ends (e : Engine σ) (live : LiveJob) : Action σ → (Bool → Body) → Prop
  | finished (o : Outcome) : live.worker.isSome →
    Ends e live (.finish live.job.handle o) (o.reply live.job.handle)
  | removed : live.worker = none →
    Ends e live (.remove live.job.handle) fun _ => .workFail live.job.handle
  | settled (event : PeerEvent) : event.kind = .workComplete → live.worker = none →
    live.job.key = ⟨event.functionName, event.uniqueId⟩ →
    Ends e live (.hear event) fun _ => .workComplete live.job.handle event.data
  | lost (id : SessionId) : live.worker = none →
    Ends e live (.grab id) fun _ => .workFail live.job.handle
  | abandoned {id : SessionId} : e.settings.disconnectPolicy = .fail → live.worker = some id →
    Ends e live (.disconnect id) fun _ => .workFail live.job.handle

/-- Which action a move is made by. -/
inductive Cause (e : Engine σ) : Action σ → Move → Prop
  | leave (id : SessionId) : Cause e (.disconnect id) (.leave id)
  | requeue (j : Job) (id : SessionId) : e.settings.disconnectPolicy = .requeue →
    Cause e (.disconnect id) (.requeue j id)
  | ask (id : SessionId) (wants : Bool) : Cause e (.wantExceptions id wants) (.ask id wants)
  | waste (j : Job) (client : Option SessionId) : Cause e (.submit j client) .waste
  | letIn (j j' : Job) (client : Option SessionId) : Cause e (.submit j client) (.letIn j')
  | join (j : Job) (client : Option SessionId) (k : JobKey) (id : SessionId) :
    Cause e (.submit j client) (.join k id)
  | hand {j : Job} {id : SessionId} : (e.nextJob id).1 = some { j with state := .working } →
    Cause e (.grab id) (.hand j id)
  | advance (handle : String) (j : Job) (id : SessionId) (n d : UInt32) :
    Cause e (.progress handle n d) (.advance j id n d)
  | close {act : Action σ} {live : LiveJob} {reply : Bool → Body} : Ends e live act reply →
    Cause e act (.close live reply)

theorem Makes.cause {ms : List Move} {m : Move} (h : e.Makes ms a) (hm : m ∈ ms) : e.Cause a m := by
  cases a with
  | disconnect id =>
    obtain ⟨rest, rfl, hrest⟩ := h
    rcases List.mem_cons.mp hm with rfl | hm
    · exact .leave id
    · rcases hrest m hm with ⟨hpolicy, j, rfl⟩ | ⟨hpolicy, live, hw, rfl⟩
      · exact .requeue j id hpolicy
      · exact .close (.abandoned hpolicy hw)
  | wantExceptions id wants =>
    obtain rfl := h
    exact List.mem_singleton.mp hm ▸ .ask id wants
  | grab id =>
    rcases Handed.cause h m hm with ⟨live, hw, rfl⟩ | ⟨j, rfl, hj⟩
    · exact .close (.lost id hw)
    · exact .hand hj
  | submit j client =>
    rcases Submitted.mem h hm with rfl | ⟨j', rfl⟩ | ⟨k, id, rfl⟩
    · exact .waste j client
    · exact .letIn j j' client
    · exact .join j client k id
  | finish handle o =>
    rcases h with rfl | ⟨live, hw, rfl, rfl⟩
    · exact absurd hm (by simp)
    · exact List.mem_singleton.mp hm ▸ .close (.finished o hw)
  | progress handle n d =>
    rcases h with rfl | ⟨j, id, rfl⟩
    · exact absurd hm (by simp)
    · exact List.mem_singleton.mp hm ▸ .advance handle j id n d
  | remove handle =>
    rcases h with rfl | ⟨live, hw, rfl, rfl⟩
    · exact absurd hm (by simp)
    · exact List.mem_singleton.mp hm ▸ .close (.removed hw)
  | hear event =>
    rcases h with rfl | ⟨live, hkind, hw, hkey, rfl⟩
    · exact absurd hm (by simp)
    · exact List.mem_singleton.mp hm ▸ .close (.settled event hkind hw hkey)
  | _ =>
    obtain rfl := h
    exact absurd hm (by simp)

/-- An action uses up at most one handle. -/
theorem Makes.issues_le {ms : List Move} (h : e.Makes ms a) : ms.countP Move.issues ≤ 1 := by
  by_cases hs : ∃ j client, a = .submit j client
  · obtain ⟨j, client, rfl⟩ := hs
    have hjoins : ∀ k, (joins k j.background client).countP Move.issues = 0 := fun k =>
      List.countP_eq_zero.mpr fun m hm => by
        obtain ⟨id, -, -, rfl⟩ := mem_joins hm
        exact Bool.false_ne_true
    have h : Submitted e.ledger j.background client (e.submit j client).1 ms := h
    generalize (e.submit j client).1 = answer at h
    cases h with
    | joined _ => exact (hjoins _).symm ▸ Nat.zero_le 1
    | letIn j' => simp [hjoins, Move.issues, List.countP_cons]
    | refused err => simp [Move.issues]
  · rw [List.countP_eq_zero.mpr fun m hm => ?_]
    · exact Nat.zero_le 1
    · cases h.cause hm with
      | waste j client | letIn j _ client => exact absurd ⟨j, client, rfl⟩ hs
      | _ => exact Bool.false_ne_true

/-! ### Engines in order -/

/-- The ledger an engine shows is one that it keeps, and is consistent. -/
structure InOrder (e : Engine σ) : Prop where
  keeps : e.Keeps e.ledger
  consistent : e.ledger.Consistent

omit [JobStore σ] in
theorem InOrder.of_path (he : e.InOrder) {ms : List Move} {l' : Ledger} (hp : e.ledger.Path ms l')
    (hk : e'.Keeps l') (hidle : ∀ id, id ∉ e'.connected → l'.assigned id = []) :
    e.ledger.Path ms e'.ledger ∧ e'.InOrder := by
  obtain rfl := hk.ledger_eq hidle
  exact ⟨hp, hk, hp.consistent he.consistent⟩

omit [JobStore σ] in
/-- While the same sessions are connected, only they are handed jobs. -/
theorem InOrder.of_steady (he : e.InOrder) {ms : List Move} {l' : Ledger}
    (hp : e.ledger.Path ms l') (hk : e'.Keeps l') (hs : Steady e e')
    (hhand : ∀ j id, .hand j id ∈ ms → id ∈ e.connected) :
    e.ledger.Path ms e'.ledger ∧ e'.InOrder := by
  refine he.of_path hp hk fun id hid => List.eq_nil_iff_forall_not_mem.mpr fun h hm => ?_
  rw [hs.connected] at hid
  rcases hp.mem_assigned hm with hm | ⟨j, hj⟩
  · rw [show e.ledger.assigned id = [] from he.keeps.idle id hid] at hm
    exact absurd hm (by simp)
  · exact hid (hhand j id hj)

omit [JobStore σ] in
theorem InOrder.of_undisturbed (he : e.InOrder) (h : Undisturbed e e') :
    e.ledger.Path [] e'.ledger ∧ e'.InOrder :=
  he.of_steady (.nil _) (he.keeps.quiet h) h.steady (by simp)

/-- An event of another broker ends a queued job, or changes nothing. -/
theorem hear_cases (he : e.InOrder) (event : PeerEvent) :
    Undisturbed e (e.hear event) ∨ ∃ live : LiveJob, event.kind = .workComplete ∧
      e.ledger.jobs live.job.key = some live ∧ live.worker = none ∧
      live.job.key = ⟨event.functionName, event.uniqueId⟩ ∧
      (e.hear event).Keeps
        (e.ledger.after (.close live fun _ => .workComplete live.job.handle event.data)) ∧
      Steady e (e.hear event) := by
  unfold hear
  dsimp only
  split
  · exact .inl (.refl e)
  · exact .inl (.wakeCrew e _)
  · exact .inl (.refl e)
  · exact .inl (.notify e _ rfl)
  · next w live hf hkind hlive =>
    split
    · exact .inl (.refl e)
    · next hstate =>
      have hlive : e.ledger.jobs ⟨event.functionName, event.uniqueId⟩ = some live := hlive
      have hkey := he.consistent.key_eq hlive
      have hw : live.worker = none := by
        by_contra hw
        obtain ⟨id, hw⟩ := Option.ne_none_iff_exists'.mp hw
        exact hstate ((he.consistent.working_iff hlive).mpr ⟨id, hw⟩)
      have hf : (e.workshop? live.job.functionName).isSome := by
        rw [show live.job.functionName = event.functionName from congrArg JobKey.functionName hkey,
          hf]
        rfl
      exact .inr ⟨live, hkind, hkey ▸ hlive, hw, hkey,
        he.keeps.settle he.consistent (hkey ▸ hlive) hw hf event.data, steady_settle e live _⟩

theorem fixed_hear (e : Engine σ) (event : PeerEvent) :
    (e.hear event).fixed = e.fixed := by
  unfold hear
  dsimp only
  split
  · rfl
  · exact (Undisturbed.wakeCrew e _).fixed
  · rfl
  · rfl
  · split
    · rfl
    · exact (steady_settle e _ _).fixed

/-- A legal action takes an engine in order to an engine in order. -/
theorem InOrder.act (he : e.InOrder) (ha : e.Legal a)
    (hroom : e.handles.last < e.handles.last + 1) :
    ∃ ms, e.Makes ms a ∧ e.ledger.Path ms (e.act a).ledger ∧ (e.act a).InOrder := by
  have hquiet : ∀ {e'}, Undisturbed e e' → e.ledger.Path [] e'.ledger ∧ e'.InOrder :=
    fun h => he.of_undisturbed h
  cases a with
  | arrive peer =>
    exact ⟨[], rfl, he.of_steady (.nil _) (he.keeps.newSession peer) ⟨rfl, rfl⟩ (by simp)⟩
  | connect id =>
    refine ⟨[], rfl, he.of_path (.nil _) (he.keeps.connect ha (he.keeps.idle id))
      fun id' hid' => ?_⟩
    refine he.keeps.idle id' fun hc => hid' ?_
    show id' ∈ (e.connect id).connected
    unfold connect
    split
    · exact hc
    · exact List.mem_append_left _ hc
  | disconnect id =>
    obtain ⟨ms, l', hp, hk, hms, hnil⟩ := he.keeps.disconnect he.consistent id rfl
    refine ⟨_, ⟨ms, rfl, hms⟩, he.of_path hp hk fun id' hid' => ?_⟩
    rw [show (e.act (.disconnect id)).connected = _ from connected_disconnect e id] at hid'
    by_cases hi : id' = id
    · exact hi ▸ hnil
    · have hnot : id' ∉ e.connected := fun hc => hid' (List.mem_filter.mpr ⟨hc, by simpa using hi⟩)
      refine List.eq_nil_iff_forall_not_mem.mpr fun h hm => ?_
      rcases hp.mem_assigned hm with hm | ⟨j, hj⟩
      · rw [show e.ledger.assigned id' = [] from he.keeps.idle id' hnot] at hm
        exact absurd hm (by simp)
      · rcases List.mem_cons.mp hj with h | hj
        · exact Move.noConfusion h
        · exact not_givenUp_hand _ _ _ j (hms _ hj)
  | setClientId id clientId => exact ⟨[], rfl, hquiet (.modifySession e id _ fun _ => rfl)⟩
  | wantExceptions id wants =>
    exact ⟨_, rfl, he.of_steady (.single (m := .ask id wants) trivial) (he.keeps.ask ha wants)
      ⟨rfl, rfl⟩ (by simp)⟩
  | canDo id f timeout => exact ⟨[], rfl, hquiet (undisturbed_addAbility e id f timeout)⟩
  | cantDo id f => exact ⟨[], rfl, hquiet (undisturbed_removeAbility e id f)⟩
  | resetAbilities id => exact ⟨[], rfl, hquiet (undisturbed_resetAbilities e id)⟩
  | sleep id => exact ⟨[], rfl, hquiet (undisturbed_sleep e id)⟩
  | wake id => exact ⟨[], rfl, hquiet (undisturbed_wake e id)⟩
  | grab id =>
    obtain ⟨ms, l', hp, hk, hms, -⟩ := he.keeps.takeFrom (e.abilities id) he.consistent ha
    refine ⟨ms, hms, he.of_steady hp hk (steady_takeFrom e id _) fun j id' hj => ?_⟩
    rcases hms.cause _ hj with ⟨live, -, h⟩ | ⟨j', h, -⟩
    · exact Move.noConfusion h
    · obtain ⟨-, rfl⟩ := Move.hand.inj h
      exact ha
  | submit j client =>
    have hclient : ∀ id, client = some id → id ∈ e.connected := by
      rintro id rfl
      exact ha
    obtain ⟨ms, l', hp, hk, hms⟩ := he.keeps.submit he.consistent hroom j hclient
    refine ⟨ms, hms, he.of_steady hp hk (steady_submit e j client) fun j' id hj => ?_⟩
    rcases hms.mem hj with h | ⟨_, h⟩ | ⟨_, _, h⟩ <;> exact Move.noConfusion h
  | finish handle o =>
    cases hj : e.jobInState handle .working with
    | error err =>
      refine ⟨[], .inl rfl, hquiet (undisturbed_finish (fun live h => ?_) o)⟩
      exact absurd (hj.symm.trans h) (by simp)
    | ok live =>
      obtain ⟨hlive, rfl, hstate⟩ := (he.keeps.jobInState_eq_ok_iff he.consistent).mp hj
      have hw := Option.isSome_iff_exists.mpr ((he.consistent.working_iff hlive).mp hstate)
      have hfits : (Move.close live (o.reply live.job.handle)).Fits e.ledger :=
        ⟨hlive, o.ends?_reply _⟩
      exact ⟨_, .inr ⟨live, hw, rfl, rfl⟩, he.of_steady (.single hfits)
        (he.keeps.finish he.consistent hj o).2 (steady_finish e _ o) (by simp)⟩
  | progress handle n d =>
    cases hj : e.jobInState handle .working with
    | error err =>
      have hsame : (e.reportProgress handle n d).2 = e := by simp [reportProgress, hj]
      exact ⟨[], .inl rfl, hquiet (by rw [Engine.act, hsame]; exact .refl e)⟩
    | ok live =>
      obtain ⟨hlive, rfl, hstate⟩ := (he.keeps.jobInState_eq_ok_iff he.consistent).mp hj
      obtain ⟨id, hw⟩ := (he.consistent.working_iff hlive).mp hstate
      have hfits : (Move.advance live.job id n d).Fits e.ledger := by
        rw [Move.Fits, hlive, ← hw]
      exact ⟨_, .inr ⟨_, _, rfl⟩, he.of_steady (.single hfits)
        (he.keeps.reportProgress he.consistent hj hw n d) (steady_reportProgress e _ n d) (by simp)⟩
  | data handle data => exact ⟨[], rfl, hquiet (undisturbed_reportData e handle data)⟩
  | warning handle data => exact ⟨[], rfl, hquiet (undisturbed_reportWarning e handle data)⟩
  | remove handle =>
    cases hj : e.jobInState handle .queued with
    | error err =>
      have hsame : (e.remove handle).2 = e := by simp [remove, hj]
      exact ⟨[], .inl rfl, hquiet (by rw [Engine.act, hsame]; exact .refl e)⟩
    | ok live =>
      obtain ⟨hlive, rfl, hstate⟩ := (he.keeps.jobInState_eq_ok_iff he.consistent).mp hj
      have hfits : (Move.close live fun _ => .workFail live.job.handle).Fits e.ledger :=
        ⟨hlive, fun _ => rfl⟩
      exact ⟨_, .inr ⟨live, (he.consistent.queued_iff hlive).mp hstate, rfl, rfl⟩,
        he.of_steady (.single hfits) (he.keeps.remove he.consistent hj).2 (steady_remove e _)
          (by simp)⟩
  | setMaxQueue f size => exact ⟨[], rfl, hquiet (undisturbed_setMaxQueue e f size)⟩
  | hear event =>
    rcases hear_cases he event with h | ⟨live, hkind, hlive, hw, hkey, hk, hs⟩
    · exact ⟨[], .inl rfl, hquiet h⟩
    · have hfits : (Move.close live fun _ => .workComplete live.job.handle event.data).Fits
          e.ledger := ⟨hlive, fun _ => rfl⟩
      exact ⟨_, .inr ⟨live, hkind, hw, hkey, rfl⟩, he.of_steady (.single hfits) hk hs (by simp)⟩
  | setClock now => exact ⟨[], rfl, hquiet { Undisturbed.refl e with }⟩
  | elapse seconds => exact ⟨[], rfl, hquiet { Undisturbed.refl e with }⟩
  | alterStore change => exact ⟨[], rfl, hquiet { Undisturbed.refl e with }⟩

theorem fixed_act (e : Engine σ) (a : Action σ) : (e.act a).fixed = e.fixed := by
  cases a with
  | connect id =>
    show (e.connect id).fixed = _
    unfold connect
    split <;> rfl
  | disconnect id => exact (steady_abandonAll _ _).fixed
  | canDo id f timeout => exact (undisturbed_addAbility e id f timeout).fixed
  | cantDo id f => exact (undisturbed_removeAbility e id f).fixed
  | resetAbilities id => exact (undisturbed_resetAbilities e id).fixed
  | sleep id => exact (undisturbed_sleep e id).fixed
  | wake id => exact (undisturbed_wake e id).fixed
  | grab id => exact (steady_takeFrom e id _).fixed
  | submit j client => exact (steady_submit e j client).fixed
  | finish handle o => exact (steady_finish e handle o).fixed
  | progress handle n d => exact (steady_reportProgress e handle n d).fixed
  | data handle data => exact (undisturbed_reportData e handle data).fixed
  | warning handle data => exact (undisturbed_reportWarning e handle data).fixed
  | remove handle => exact (steady_remove e handle).fixed
  | setMaxQueue f size => exact (undisturbed_setMaxQueue e f size).fixed
  | hear event => exact fixed_hear e event
  | _ => rfl

theorem settings_act (e : Engine σ) (a : Action σ) : (e.act a).settings = e.settings :=
  congrArg Prod.fst (fixed_act e a)

theorem newId_act (e : Engine σ) (a : Action σ) : (e.act a).newId = e.newId :=
  congrArg Prod.snd (fixed_act e a)

end Engine

end JobBroker
