import JobBroker.Proofs.Engine.Mail
import JobBroker.Proofs.Engine.Turns

/-!
# Calls to work

A worker that sleeps is called when a job may have come in for it. Most of what is done to jobs
calls nobody and changes no crew, and what brings a job to a function rings for the crew of that
function, once, and calls nobody else.

* `Calm` : nobody is called, and nobody begins to sleep, learns, forgets, comes or goes.
* `Stir`, `stir_act` : all that is done to jobs is calm, or rings for the function it brings a job
  to (`supplied?`).
* `rest?_wakeCrew`, `rest?_wake`, `rest?_sleep` : whom a ring, the end of the long poll and the
  beginning of sleep call.
-/

namespace JobBroker

/-- A session comes or goes, learns or forgets something. -/
def Action.staffs {σ : Type} : Action σ → Bool
  | arrive _ | connect _ | disconnect _ | canDo _ _ _ | cantDo _ _ | resetAbilities _ => true
  | _ => false

/-- A session begins to sleep, or is woken by itself. -/
def Action.rests {σ : Type} : Action σ → Bool
  | sleep _ | wake _ => true
  | _ => false

theorem Outcome.packet_ne_noop (o : Outcome) (handle : String) (s : Session) :
    o.packet handle s ≠ .response .noop := by
  cases o with
  | exception data =>
    simp only [packet]
    split <;> simp [Packet.response]
  | _ => simp [packet, Packet.response]

namespace Session

/-- The sleep of a session, and the calls to work that it has been sent. -/
structure Rest where
  wakeAt : Option Nat
  calls : Nat
  hungUp : Bool

def rest (s : Session) : Rest := ⟨s.wakeAt, s.outbox.count (.response .noop), s.hungUp⟩

namespace Rest

def isAsleep (r : Rest) : Bool := r.wakeAt.isSome

/-- A sleeper is called, if it still takes packets, and sleeps no more. -/
def wake (r : Rest) : Rest :=
  if r.isAsleep then { r with wakeAt := none, calls := if r.hungUp then r.calls else r.calls + 1 }
  else r

theorem wake_of_awake {r : Rest} (h : r.isAsleep = false) : r.wake = r := by
  rw [wake, h, if_neg Bool.false_ne_true]

theorem hungUp_wake (r : Rest) : r.wake.hungUp = r.hungUp := by
  unfold wake
  split <;> rfl

theorem isAsleep_wake (r : Rest) : r.wake.isAsleep = false := by
  unfold wake
  split
  · rfl
  · next h => exact Bool.not_eq_true _ ▸ h

end Rest

theorem rest_send {p : Packet} (hp : p ≠ .response .noop) (s : Session) :
    (s.send p).rest = s.rest := by
  unfold send
  split
  · rfl
  · simp [rest, hp]

theorem rest_wake (s : Session) : s.wake.rest = s.rest.wake := by
  by_cases h : s.isAsleep
  · have hrest : s.rest.isAsleep := h
    cases hhung : s.hungUp <;> simp [wake, h, Rest.wake, hrest, send, hhung] <;>
      simp [rest, hhung]
  · have hrest : ¬ s.rest.isAsleep := h
    simp [wake, h, Rest.wake, hrest]

theorem rest_assign (s : Session) (handle : String) : (s.assign handle).rest = s.rest := by
  unfold assign
  split <;> rfl

end Session

namespace Engine

variable {σ : Type} {e e' : Engine σ}

def rest? (e : Engine σ) (id : SessionId) : Option Session.Rest :=
  (e.session? id).map Session.rest

/-- How many calls to work a session has been sent. -/
def calls (e : Engine σ) (id : SessionId) : Nat := (e.outbox id).count (.response .noop)

/-- When the long poll of a session is over. -/
def deadline? (e : Engine σ) (id : SessionId) : Option Nat := (e.session? id).bind Session.wakeAt

theorem calls_eq (e : Engine σ) (id : SessionId) :
    e.calls id = ((e.rest? id).map Session.Rest.calls).getD 0 := by
  unfold calls outbox Sessions.outbox rest? session?
  cases e.sessions.get? id <;> rfl

theorem deadline?_eq (e : Engine σ) (id : SessionId) :
    e.deadline? id = (e.rest? id).bind Session.Rest.wakeAt := by
  unfold deadline? rest?
  cases e.session? id <;> rfl

theorem asleep_eq (e : Engine σ) (id : SessionId) :
    e.sessions.isAsleep id = (e.rest? id).any Session.Rest.isAsleep := by
  rw [isAsleep_eq, rest?]
  cases e.session? id <;> rfl

section Congr

variable {id : SessionId} (h : e'.rest? id = e.rest? id)
include h

theorem calls_congr : e'.calls id = e.calls id := by
  rw [calls_eq, h, calls_eq]

theorem deadline?_congr : e'.deadline? id = e.deadline? id := by
  rw [deadline?_eq, h, deadline?_eq]

theorem asleep_congr : e'.sessions.isAsleep id = e.sessions.isAsleep id := by
  rw [asleep_eq, h, asleep_eq]

end Congr

theorem rest?_modifySession (e : Engine σ) (id i : SessionId) {c : Session → Session}
    {d : Session.Rest → Session.Rest} (h : ∀ s, (c s).rest = d s.rest) :
    (e.modifySession id c).rest? i = if id = i then (e.rest? i).map d else e.rest? i := by
  rw [rest?, session?_modifySession]
  split
  · next hi =>
    rw [hi, rest?]
    cases e.session? i with
    | none => rfl
    | some s => exact congrArg some (h s)
  · rfl

theorem rest?_modifySession_of_eq (e : Engine σ) (id i : SessionId) {change : Session → Session}
    (h : ∀ s, (change s).rest = s.rest) : (e.modifySession id change).rest? i = e.rest? i := by
  rw [rest?_modifySession e id i (d := fun r => r) h, Option.map_id_fun', id_eq, ite_self]

theorem able_modifySession (e : Engine σ) (id : SessionId) {change : Session → Session}
    (h : ∀ s, (change s).abilities = s.abilities) (i : SessionId) :
    ((e.modifySession id change).session? i).map Session.abilities =
      (e.session? i).map Session.abilities := by
  rw [session?_modifySession]
  split
  · next hi =>
    rw [Option.map_map, hi]
    exact congrArg (Option.map · _) (funext h)
  · rfl

/-! ### What calls nobody -/

/-- The same sessions are connected, can do the same things and sleep as before, in the same crews,
and nobody is called. All functions that were known still are. -/
structure Calm (e e' : Engine σ) : Prop where
  connected : e'.connected = e.connected
  able : ∀ id, (e'.session? id).map Session.abilities = (e.session? id).map Session.abilities
  rest : ∀ id, e'.rest? id = e.rest? id
  crew : ∀ f, (e'.workshop f).crew = (e.workshop f).crew
  known : ∀ f, (e.workshop? f).isSome → (e'.workshop? f).isSome

namespace Calm

theorem refl (e : Engine σ) : Calm e e :=
  ⟨rfl, fun _ => rfl, fun _ => rfl, fun _ => rfl, fun _ => id⟩

theorem after {e'' : Engine σ} (h' : Calm e' e'') (h : Calm e e') : Calm e e'' :=
  ⟨h'.connected.trans h.connected, fun id => (h'.able id).trans (h.able id),
    fun id => (h'.rest id).trans (h.rest id), fun f => (h'.crew f).trans (h.crew f),
    fun f hf => h'.known f (h.known f hf)⟩

/-- Then something happens that the sessions and the workshops have no part in. -/
theorem same {e'' : Engine σ} (h : Calm e e')
    (heq : (e''.connected, e''.sessions, e''.workshops, e''.settings) =
      (e'.connected, e'.sessions, e'.workshops, e'.settings)) : Calm e e'' := by
  obtain ⟨hconnected, hsessions, hworkshops, hsettings⟩ : _ ∧ _ ∧ _ ∧ _ := by
    simpa only [Prod.mk.injEq] using heq
  refine after ⟨hconnected, fun id => ?_, fun id => ?_, fun f => ?_, fun f => ?_⟩ h
  · rw [session?, hsessions, session?]
  · rw [rest?, session?, hsessions, rest?, session?]
  · rw [workshop, workshop, workshop?, workshop?, hworkshops, hsettings]
  · rw [workshop?, workshop?, hworkshops]
    exact id

/-! ### Steps -/

theorem establish (e : Engine σ) (f : String) : Calm e (e.establish f) :=
  { refl e with
    crew := fun g => by rw [workshop_establish]
    known := fun g hg => isSome_establish_of_isSome hg f }

theorem modifyWorkshop (e : Engine σ) (f : String) (change : Workshop → Workshop)
    (h : ∀ w, (change w).crew = w.crew) : Calm e (e.modifyWorkshop f change) :=
  { refl e with
    crew := workshop_modifyWorkshop_of_eq Workshop.crew h e f
    known := fun g hg => by rw [isSome_modifyWorkshop]; exact hg }

theorem setQueue (e : Engine σ) (f : String) (q : Queue) : Calm e (e.setQueue f q) :=
  modifyWorkshop e f _ fun _ => rfl

theorem releaseWaiters (e : Engine σ) (k : JobKey) : Calm e (e.releaseWaiters k) :=
  modifyWorkshop e _ _ fun _ => rfl

theorem modifySession (e : Engine σ) (id : SessionId) (change : Session → Session)
    (hable : ∀ s, (change s).abilities = s.abilities) (hrest : ∀ s, (change s).rest = s.rest) :
    Calm e (e.modifySession id change) :=
  { refl e with
    able := able_modifySession e id hable
    rest := fun i => rest?_modifySession_of_eq e id i hrest }

theorem abilities_send (s : Session) (p : Packet) : (s.send p).abilities = s.abilities := by
  unfold Session.send
  split <;> rfl

theorem send (e : Engine σ) (ids : List SessionId) {packet : Session → Packet}
    (h : ∀ s, packet s ≠ .response .noop) : Calm e (e.send ids packet) := by
  induction ids generalizing e with
  | nil => exact refl e
  | cons id ids ih =>
    exact (ih _).after (modifySession e id _ (fun s => abilities_send s (packet s)) fun s =>
      Session.rest_send (h s) s)

theorem dismiss (e : Engine σ) (k : JobKey) {packet : Session → Packet}
    (h : ∀ s, packet s ≠ .response .noop) : Calm e (e.dismiss k packet) :=
  (send _ _ h).after (releaseWaiters e k)

theorem publish (e : Engine σ) (event : PeerEvent) : Calm e (e.publish event) := by
  unfold Engine.publish
  split
  · exact (refl e).same rfl
  · exact refl e

theorem await (e : Engine σ) (j : Job) (client : Option SessionId) : Calm e (e.await j client) := by
  unfold Engine.await
  split
  · exact refl e
  · split
    · exact refl e
    · exact modifyWorkshop e _ _ fun _ => rfl

theorem identify (e : Engine σ) (j : Job) : Calm e (e.identify j).2 := by
  unfold Engine.identify
  split
  · exact (refl e).same rfl
  · exact refl e

theorem setMaxQueue (e : Engine σ) (f : String) (size : Nat) : Calm e (e.setMaxQueue f size) :=
  (modifyWorkshop _ f (fun w => { w with queue := { w.queue with maxSize := size } })
    fun _ => rfl).after (establish e f)

/-! ### Reports -/

theorem reportProgress (e : Engine σ) (handle : String) (n d : UInt32) :
    Calm e (e.reportProgress handle n d).2 := by
  unfold Engine.reportProgress
  split
  · exact refl e
  · exact (send _ _ fun _ => by simp [Packet.response]).after ((refl e).same rfl)

theorem reportData (e : Engine σ) (handle : String) (data : Bytes) :
    Calm e (e.reportData handle data).2 := by
  unfold Engine.reportData
  split
  · exact refl e
  · exact (send _ _ fun _ => by simp [Packet.response]).after (publish e _)

theorem reportWarning (e : Engine σ) (handle : String) (data : Bytes) :
    Calm e (e.reportWarning handle data).2 := by
  unfold Engine.reportWarning
  split
  · exact refl e
  · exact send e _ fun _ => by simp [Packet.response]

/-! ### Jobs -/

theorem dropLost (e : Engine σ) (k : JobKey) : Calm e (e.dropLost k) := by
  unfold Engine.dropLost
  split
  · exact refl e
  · exact (dismiss _ k fun _ => by simp [Packet.response]).after ((refl e).same rfl)

theorem assign (e : Engine σ) (k : JobKey) (record : Job) (id : SessionId) :
    Calm e (e.assign k record id).2 := by
  have hable : ∀ (s : Session) handle, (s.assign handle).abilities = s.abilities := fun s h => by
    unfold Session.assign
    split <;> rfl
  exact (modifySession _ id _ (fun s => hable s _) fun s => s.rest_assign _).after
    ((refl e).same rfl)

theorem releaseWorker (e : Engine σ) (worker : Option SessionId) (handle : String) :
    Calm e (match worker with
      | some id => if id ∈ e.connected then e.modifySession id (·.release handle) else e
      | none => e) := by
  split
  · split
    · exact modifySession e _ (·.release handle) (fun _ => rfl) fun _ => rfl
    · exact refl e
  · exact refl e

variable [JobStore σ]

theorem finish (e : Engine σ) (handle : String) (o : Outcome) : Calm e (e.finish handle o).2 := by
  unfold Engine.finish
  split
  · exact refl e
  · next k _ =>
    dsimp only
    split
    · exact establish e _
    · next live _ =>
      have herased : Calm e { e.establish k.functionName with live := e.live.erase k } :=
        (establish e k.functionName).same rfl
      have hended := (dismiss _ k fun s => o.packet_ne_noop handle s).after
        ((releaseWorker _ live.worker handle).after herased)
      cases o with
      | complete data => exact (publish _ _).after (hended.same rfl)
      | _ => exact hended.same rfl

theorem remove (e : Engine σ) (handle : String) : Calm e (e.remove handle).2 := by
  unfold Engine.remove
  split
  · exact refl e
  · next live _ =>
    have hremoved := fun f q => (setQueue _ f q).after (establish e f)
    dsimp only
    split
    · exact (dismiss _ _ fun _ => by simp [Packet.response]).after ((hremoved _ _).same rfl)
    · exact (hremoved _ _).same rfl

theorem settle (e : Engine σ) (live : LiveJob) (data : Bytes) : Calm e (e.settle live data) := by
  unfold Engine.settle
  dsimp only
  refine (dismiss _ _ fun _ => by simp [Packet.response]).after ?_
  split <;> exact (setQueue e _ _).same rfl

theorem takeFrom (id : SessionId) (fs : List String) (e : Engine σ) :
    Calm e (e.takeFrom id fs).2 := by
  refine takeFrom_of_steps (P := Calm e) ?_ ?_ ?_ fs (refl e)
  · intro e' f q store h
    exact ((setQueue e' f q).after h).same rfl
  · intro e' k h
    exact (dropLost e' k).after h
  · intro e' k record h
    exact (assign e' k record id).after h

end Calm

/-! ### Whom a ring calls -/

theorem not_asleep_of_woken {id : SessionId}
    (h : e'.rest? id = (e.rest? id).map Session.Rest.wake) : e'.sessions.isAsleep id = false := by
  rw [asleep_eq, h]
  cases e.rest? id with
  | none => rfl
  | some r => exact r.isAsleep_wake

theorem calls_of_woken {id : SessionId} (h : e'.rest? id = (e.rest? id).map Session.Rest.wake)
    (hlistens : ∀ r, e.rest? id = some r → r.hungUp = false) :
    e'.calls id = e.calls id + if e.sessions.isAsleep id then 1 else 0 := by
  rw [calls_eq, calls_eq, asleep_eq, h]
  cases hr : e.rest? id with
  | none => rfl
  | some r =>
    have hhung := hlistens r hr
    cases hasleep : r.isAsleep <;> simp [Session.Rest.wake, hasleep, hhung]

theorem rest?_wakeSessions (ids : List SessionId) (e : Engine σ) (i : SessionId) :
    ({ e with sessions := e.sessions.wake ids } : Engine σ).rest? i =
      if i ∈ ids then (e.rest? i).map Session.Rest.wake else e.rest? i := by
  induction ids generalizing e with
  | nil => rfl
  | cons id ids ih =>
    refine (ih (e.modifySession id Session.wake)).trans ?_
    rw [rest?_modifySession e id i Session.rest_wake]
    by_cases hi : id = i
    · subst hi
      have htwice : ∀ r : Session.Rest, r.wake.wake = r.wake := fun r =>
        r.wake.wake_of_awake r.isAsleep_wake
      cases e.rest? id <;> simp [htwice]
    · simp [hi, Ne.symm hi]

/-- The sleepers among those that are listed are called. -/
theorem rest?_wakeCrew (e : Engine σ) (f : String) (i : SessionId) :
    (e.wakeCrew f).rest? i =
      if i ∈ (e.workshop f).crew.sleepers then (e.rest? i).map Session.Rest.wake
      else e.rest? i := by
  unfold wakeCrew
  split
  · next hw =>
    rw [workshop, hw]
    rfl
  · next w hw =>
    rw [workshop, hw]
    exact rest?_wakeSessions w.crew.sleepers (e.modifyCrew f _) i

theorem rest?_foldl {α : Type} (op : Engine σ → α → Engine σ)
    (hop : ∀ e a, (op e a).rest? = e.rest?) (as : List α) (e : Engine σ) :
    (as.foldl op e).rest? = e.rest? := by
  induction as generalizing e with
  | nil => rfl
  | cons a as ih => exact (ih _).trans (hop e a)

theorem rest?_wake (e : Engine σ) (id i : SessionId) :
    (e.wake id).rest? i = if id = i then (e.rest? i).map Session.Rest.wake else e.rest? i := by
  rw [wake, rest?_modifySession _ id i Session.rest_wake,
    rest?_foldl (fun e f => e.modifyCrew f (·.removeSleeper id)) fun _ _ => rfl]

/-- A session that begins to sleep is called at once when there is something for it to do. -/
theorem rest?_sleep (e : Engine σ) (id i : SessionId) :
    (e.sleep id).rest? i =
      if id = i then (e.rest? i).map fun r =>
        let r := { r with wakeAt := some (e.uptime + e.settings.longPollSeconds) }
        if (e.abilities id).any fun f => (e.workshop f).queue.hasReady e.now then r.wake else r
      else e.rest? i := by
  simp only [sleep]
  generalize e.uptime + e.settings.longPollSeconds = second
  have hasleep := rest?_modifySession e id i (c := (·.sleepUntil second))
    (d := fun r => { r with wakeAt := some second }) fun _ => rfl
  have hrest := rest?_foldl (fun e f => (e.establish f).modifyCrew f (·.addSleeper id))
    (fun _ _ => rfl) (e.abilities id) (e.modifySession id (·.sleepUntil second))
  have hwatch := watch_addSleeper id (e.abilities id) (e.modifySession id (·.sleepUntil second))
  rw [watch_modifySession] at hwatch
  generalize (e.abilities id).foldl (fun e f => (e.establish f).modifyCrew f (·.addSleeper id))
    (e.modifySession id (·.sleepUntil second)) = e₁ at hrest hwatch ⊢
  have hready : ∀ f, (e₁.workshop f).queue.hasReady e₁.now = (e.workshop f).queue.hasReady e.now :=
    fun f => congrArg (fun w : Watch => (w.queues f).hasReady w.now) hwatch
  simp only [hready]
  split
  · rw [rest?_wake, hrest, hasleep]
    by_cases hi : id = i
    · simp only [hi, if_true, Option.map_map]
      rfl
    · simp [hi]
  · rw [hrest, hasleep]

/-! ### Rings -/

/-- Nobody is called, or the crew of one function is. -/
inductive Stir (e e' : Engine σ) : Option String → Prop
  | calm : Calm e e' → Stir e e' none
  | ring {f : String} {e₁ : Engine σ} : Calm e e₁ → Calm (e₁.wakeCrew f) e' → Stir e e' (some f)

/-- The function to which a job comes back that is given up. -/
def requeued? (e : Engine σ) (handle : String) : Option String :=
  match e.live.keyOf? handle, e.jobInState handle .working with
  | some k, .ok _ => some k.functionName
  | _, _ => none

theorem stir_requeue (e : Engine σ) (handle : String) :
    Stir e (e.requeue handle) (e.requeued? handle) := by
  unfold requeue requeued?
  split
  · next h => exact h ▸ .calm (.refl e)
  · next k h =>
    have hestablish := Calm.establish e k.functionName
    rw [h]
    dsimp only
    split
    · next err herr =>
      rw [show e.jobInState handle .working = .error err from herr]
      exact .calm hestablish
    · next live hlive =>
      rw [show e.jobInState handle .working = .ok live from hlive]
      refine .ring ?_ (.refl _)
      exact (Calm.setQueue _ _ _).after (hestablish.same rfl)

theorem functionName_identify (e : Engine σ) (j : Job) :
    (e.identify j).1.functionName = j.functionName := by
  unfold identify
  split <;> rfl

variable [JobStore σ]

theorem stir_letIn (e : Engine σ) (j : Job) (client : Option SessionId) :
    Stir e (e.letIn j client).2
      (match (e.letIn j client).1 with
        | .ok _ => some j.functionName
        | .error _ => none) := by
  unfold letIn
  dsimp only
  split
  · exact .calm ((Calm.setQueue e _ _).same rfl)
  · exact .calm ((Calm.setQueue e _ _).same rfl)
  · refine .ring ?_ (.publish _ _)
    exact (Calm.await _ _ client).after ((Calm.setQueue e _ _).same rfl)

/-- The function to which a job is let in that is submitted. -/
def letsIn? (e : Engine σ) (j : Job) (client : Option SessionId) : Option String :=
  match e.live.find? (e.identify j).1.key, (e.submit j client).1 with
  | none, .ok _ => some j.functionName
  | _, _ => none

theorem stir_submit (e : Engine σ) (j : Job) (client : Option SessionId) :
    Stir e (e.submit j client).2 (e.letsIn? j client) := by
  have hname := functionName_identify e j
  have hprepared := (Calm.establish _ (e.identify j).1.functionName).after (Calm.identify e j)
  have hlive : ((e.identify j).2.establish (e.identify j).1.functionName).live = e.live := by
    unfold identify
    split <;> rfl
  unfold letsIn? submit
  simp only [hlive]
  cases e.live.find? (e.identify j).1.key with
  | some live => exact .calm ((Calm.await _ _ client).after hprepared)
  | none =>
    have hletIn := stir_letIn ((e.identify j).2.establish (e.identify j).1.functionName)
      (e.identify j).1 client
    dsimp only
    rw [← hname]
    generalize ((e.identify j).2.establish (e.identify j).1.functionName).letIn
      (e.identify j).1 client = answer at hletIn ⊢
    rcases answer with ⟨err | j', e'⟩
    · cases hletIn with
      | calm h => exact .calm (h.after hprepared)
    · cases hletIn with
      | ring h h' => exact .ring (h.after hprepared) h'

/-- The function of which something has come in elsewhere. -/
def heard? (e : Engine σ) (event : PeerEvent) : Option String :=
  match e.workshop? event.functionName, event.kind with
  | some _, .submitJob => some event.functionName
  | _, _ => none

theorem stir_hear (e : Engine σ) (event : PeerEvent) :
    Stir e (e.hear event) (e.heard? event) := by
  unfold hear heard?
  dsimp only
  cases e.workshop? event.functionName with
  | none => exact .calm (.refl e)
  | some w =>
    cases event.kind with
    | submitJob => exact .ring (.refl e) (.refl _)
    | workData =>
      cases e.live.find? ⟨event.functionName, event.uniqueId⟩ with
      | none => exact .calm (.refl e)
      | some live => exact .calm (.send e _ fun _ => by simp [Packet.response])
    | workComplete =>
      cases e.live.find? ⟨event.functionName, event.uniqueId⟩ with
      | none => exact .calm (.refl e)
      | some live =>
        dsimp only
        split
        · exact .calm (.refl e)
        · exact .calm (.settle e live event.data)

/-- The function to which an action brings a job. -/
def supplied? (e : Engine σ) : Action σ → Option String
  | .submit j client => e.letsIn? j client
  | .hear event => e.heard? event
  | _ => none

/-- All that is done to jobs. -/
theorem stir_act (e : Engine σ) {a : Action σ} (hstaffs : a.staffs = false)
    (hrests : a.rests = false) : Stir e (e.act a) (e.supplied? a) := by
  have hcalm : ∀ {e' : Engine σ}, Calm e e' → Stir e e' none := .calm
  cases a with
  | setClientId id clientId => exact hcalm (.modifySession e id _ (fun _ => rfl) fun _ => rfl)
  | wantExceptions id wants => exact hcalm (.modifySession e id _ (fun _ => rfl) fun _ => rfl)
  | grab id => exact hcalm (.takeFrom id _ e)
  | submit j client => exact stir_submit e j client
  | finish handle o => exact hcalm (.finish e handle o)
  | progress handle n d => exact hcalm (.reportProgress e handle n d)
  | data handle data => exact hcalm (.reportData e handle data)
  | warning handle data => exact hcalm (.reportWarning e handle data)
  | remove handle => exact hcalm (.remove e handle)
  | setMaxQueue f size => exact hcalm (.setMaxQueue e f size)
  | hear event => exact stir_hear e event
  | setClock now => exact hcalm ((Calm.refl e).same rfl)
  | elapse seconds => exact hcalm ((Calm.refl e).same rfl)
  | alterStore change => exact hcalm ((Calm.refl e).same rfl)
  | sleep id | wake id => exact absurd hrests.symm Bool.false_ne_true
  | _ => exact absurd hstaffs.symm Bool.false_ne_true

end Engine

end JobBroker
