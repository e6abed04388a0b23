import JobBroker.Engine.Departure
import JobBroker.Engine.Peers
import JobBroker.Engine.Submission
import JobBroker.Proofs.Ledger.Basic
import JobBroker.Proofs.Queue.InOrder

/-!
# What operations leave alone

What an engine shows of its jobs: the queued jobs, the wait lists, and of each session the handles
it works on and the ends it has been told of. Most of what an engine does is to the crews, to sleep
and to packets that end no job, and shows nowhere in that.

* `Undisturbed` : nothing that shows of the jobs has changed. It is proved for each of the parts
  that operations are made of.
* `takeFrom_of_steps` : what each step of a search for a job keeps, the search keeps.
-/

namespace JobBroker

namespace Session

/-- The packets in the outbox that tell the end of a job. -/
def notices (s : Session) : List Packet := s.outbox.filter (·.ends?.isSome)

/-- What a session shows of jobs. -/
structure Book where
  assigned : List String
  wantsExceptions : Bool
  notices : List Packet
  hungUp : Bool

def book (s : Session) : Book := ⟨s.assigned, s.wantsExceptions, s.notices, s.hungUp⟩

theorem book_send {p : Packet} (hp : p.ends? = none) (s : Session) : (s.send p).book = s.book := by
  unfold send
  split
  · rfl
  · simp [book, notices, hp]

theorem book_send_of_ends {p : Packet} (hp : p.ends?.isSome) {s : Session} (hs : s.hungUp = false) :
    (s.send p).book = { s.book with notices := s.notices ++ [p] } := by
  simp [send, hs, book, notices, hp]

theorem book_wake (s : Session) : s.wake.book = s.book := by
  unfold wake
  split
  · rw [book_send rfl]
    rfl
  · rfl

end Session

namespace Engine

variable {σ : Type} {e e' : Engine σ}

/-! ### What an engine shows -/

/-- The handles of the jobs a session works on. -/
def assigned (e : Engine σ) (id : SessionId) : List String :=
  ((e.session? id).map Session.assigned).getD []

/-- Whether a session wants to be told of exceptions. -/
def wants (e : Engine σ) (id : SessionId) : Bool :=
  ((e.session? id).map Session.wantsExceptions).getD false

/-- The packets that have told a session the end of a job. -/
def notices (e : Engine σ) (id : SessionId) : List Packet :=
  ((e.session? id).map Session.notices).getD []

def queued (e : Engine σ) (k : JobKey) : Option QueuedJob :=
  (e.workshop k.functionName).queue.find? k.uniqueId

def book? (e : Engine σ) (id : SessionId) : Option Session.Book := (e.session? id).map Session.book

theorem assigned_of_book (e : Engine σ) (id : SessionId) :
    e.assigned id = ((e.book? id).map Session.Book.assigned).getD [] := by
  rw [assigned, book?, Option.map_map]
  rfl

theorem wants_of_book (e : Engine σ) (id : SessionId) :
    e.wants id = ((e.book? id).map Session.Book.wantsExceptions).getD false := by
  rw [wants, book?, Option.map_map]
  rfl

theorem notices_of_book (e : Engine σ) (id : SessionId) :
    e.notices id = ((e.book? id).map Session.Book.notices).getD [] := by
  rw [notices, book?, Option.map_map]
  rfl

@[simp] theorem isSome_book? (e : Engine σ) (id : SessionId) :
    (e.book? id).isSome = (e.session? id).isSome := Option.isSome_map ..

/-! ### Workshops -/

@[simp] theorem jobInState_establish (e : Engine σ) (f handle : String) (state : JobState) :
    (e.establish f).jobInState handle state = e.jobInState handle state := rfl

@[simp] theorem workshop_establish (e : Engine σ) (f f' : String) :
    (e.establish f).workshop f' = e.workshop f' := by
  show ((e.workshops.insert f (e.workshop f)).get? f').getD _ = _
  rw [Table.get?_insert]
  split
  · next h => exact h ▸ rfl
  · rfl

theorem isSome_establish (e : Engine σ) (f : String) : ((e.establish f).workshop? f).isSome := by
  show ((e.workshops.insert f (e.workshop f)).get? f).isSome
  simp

theorem isSome_establish_of_isSome {f : String} (hf : (e.workshop? f).isSome) (f' : String) :
    ((e.establish f').workshop? f).isSome := by
  show ((e.workshops.insert f' (e.workshop f')).get? f).isSome
  rw [Table.get?_insert]
  split
  · rfl
  · exact hf

theorem workshop?_modifyWorkshop (e : Engine σ) (f f' : String) (change : Workshop → Workshop) :
    (e.modifyWorkshop f change).workshop? f' =
      if f = f' then (e.workshop? f').map change else e.workshop? f' :=
  Table.get?_modify _ _ _ _

@[simp] theorem isSome_modifyWorkshop (e : Engine σ) (f f' : String)
    (change : Workshop → Workshop) :
    ((e.modifyWorkshop f change).workshop? f').isSome = (e.workshop? f').isSome := by
  rw [workshop?_modifyWorkshop]
  split
  · exact Option.isSome_map ..
  · rfl

/-- A workshop that is known is changed, and no other. -/
theorem workshop_modifyWorkshop {f : String} (hf : (e.workshop? f).isSome) (f' : String)
    (change : Workshop → Workshop) : (e.modifyWorkshop f change).workshop f' =
      if f = f' then change (e.workshop f') else e.workshop f' := by
  show (Option.getD ((e.modifyWorkshop f change).workshop? f') _) = _
  rw [workshop?_modifyWorkshop]
  split
  · next h =>
    obtain ⟨w, hw⟩ := Option.isSome_iff_exists.mp (h ▸ hf)
    simp [workshop, hw]
  · rfl

/-- What no change of a workshop touches stays, whether the workshop is known or not. -/
theorem workshop_modifyWorkshop_of_eq {α : Type} (view : Workshop → α)
    {change : Workshop → Workshop} (h : ∀ w, view (change w) = view w) (e : Engine σ)
    (f f' : String) : view ((e.modifyWorkshop f change).workshop f') = view (e.workshop f') := by
  show view (Option.getD ((e.modifyWorkshop f change).workshop? f') _) = view (Option.getD _ _)
  rw [workshop?_modifyWorkshop]
  split
  · cases e.workshop? f' with
    | none => rfl
    | some w => exact h w
  · rfl

theorem workshop_setQueue_self (e : Engine σ) (f f' : String) :
    (e.setQueue f (e.workshop f).queue).workshop f' = e.workshop f' := by
  show ((e.modifyWorkshop f _).workshop? f').getD (.new f' e.settings.maxQueueSize) = _
  rw [workshop?_modifyWorkshop]
  split
  · next h =>
    subst h
    cases h : e.workshop? f <;> simp [workshop, h]
  · rfl

/-- A queue that is put where it is already changes nothing. -/
theorem setQueue_self (e : Engine σ) (f : String) : e.setQueue f (e.workshop f).queue = e := by
  have hsame : e.workshops.modify f (fun w => { w with queue := (e.workshop f).queue }) =
      e.workshops := by
    refine Table.modify_eq_self fun w hw => ?_
    have hworkshop : e.workshop f = w := by rw [workshop, workshop?, hw, Option.getD_some]
    rw [hworkshop]
  rw [setQueue, modifyWorkshop, hsame]

/-! ### Nothing that shows of the jobs has changed -/

/-- What an engine starts with and keeps. -/
def fixed (e : Engine σ) : EngineSettings × (Nat → String) := (e.settings, e.newId)

structure Undisturbed (e e' : Engine σ) : Prop where
  fixed : e'.fixed = e.fixed
  handles : e'.handles = e.handles
  live : e'.live = e.live
  connected : e'.connected = e.connected
  known : ∀ f, (e.workshop? f).isSome → (e'.workshop? f).isSome
  jobs : ∀ f, (e'.workshop f).queue.jobs = (e.workshop f).queue.jobs
  lanes : ∀ f, (e'.workshop f).queue.lanes = (e.workshop f).queue.lanes
  waitLists : ∀ f, (e'.workshop f).waitLists = (e.workshop f).waitLists
  book?_eq : ∀ id, e'.book? id = e.book? id
  size : e'.sessions.size = e.sessions.size

namespace Undisturbed

theorem refl (e : Engine σ) : Undisturbed e e :=
  ⟨rfl, rfl, rfl, rfl, fun _ => id, fun _ => rfl, fun _ => rfl, fun _ => rfl, fun _ => rfl, rfl⟩

theorem trans {e'' : Engine σ} (h : Undisturbed e e') (h' : Undisturbed e' e'') :
    Undisturbed e e'' :=
  ⟨h'.fixed.trans h.fixed, h'.handles.trans h.handles, h'.live.trans h.live,
    h'.connected.trans h.connected, fun f hf => h'.known f (h.known f hf),
    fun f => (h'.jobs f).trans (h.jobs f), fun f => (h'.lanes f).trans (h.lanes f),
    fun f => (h'.waitLists f).trans (h.waitLists f),
    fun id => (h'.book?_eq id).trans (h.book?_eq id), h'.size.trans h.size⟩

theorem establish (e : Engine σ) (f : String) : Undisturbed e (e.establish f) :=
  { refl e with
    known := fun f' hf' => isSome_establish_of_isSome hf' f
    jobs := fun f' => by rw [workshop_establish]
    lanes := fun f' => by rw [workshop_establish]
    waitLists := fun f' => by rw [workshop_establish] }

/-- A change of a workshop that keeps the queued jobs and the wait lists. -/
theorem modifyWorkshop (e : Engine σ) (f : String) {change : Workshop → Workshop}
    (hjobs : ∀ w, (change w).queue.jobs = w.queue.jobs)
    (hlanes : ∀ w, (change w).queue.lanes = w.queue.lanes)
    (hwait : ∀ w, (change w).waitLists = w.waitLists) :
    Undisturbed e (e.modifyWorkshop f change) :=
  { refl e with
    known := fun f' hf' => by rw [isSome_modifyWorkshop]; exact hf'
    jobs := workshop_modifyWorkshop_of_eq (·.queue.jobs) hjobs e f
    lanes := workshop_modifyWorkshop_of_eq (·.queue.lanes) hlanes e f
    waitLists := workshop_modifyWorkshop_of_eq (·.waitLists) hwait e f }

theorem modifyCrew (e : Engine σ) (f : String) (change : Crew → Crew) :
    Undisturbed e (e.modifyCrew f change) :=
  modifyWorkshop e f (fun _ => rfl) (fun _ => rfl) (fun _ => rfl)

/-- A queue that is put back as it was. -/
theorem setQueue_self (e : Engine σ) (f : String) :
    Undisturbed e (e.setQueue f (e.workshop f).queue) :=
  { refl e with
    known := fun f' hf' => (isSome_modifyWorkshop e f f' _).trans hf'
    jobs := fun f' => by rw [workshop_setQueue_self]
    lanes := fun f' => by rw [workshop_setQueue_self]
    waitLists := fun f' => by rw [workshop_setQueue_self] }

/-- What is done to several crews, or to several sessions, one after the other. -/
theorem foldl {α : Type} {op : Engine σ → α → Engine σ} (hop : ∀ e a, Undisturbed e (op e a))
    (as : List α) (e : Engine σ) : Undisturbed e (as.foldl op e) := by
  induction as generalizing e with
  | nil => exact refl e
  | cons a as ih => exact (hop e a).trans (ih _)

theorem modifySession (e : Engine σ) (id : SessionId) (change : Session → Session)
    (h : ∀ s, (change s).book = s.book) : Undisturbed e (e.modifySession id change) :=
  { refl e with
    book?_eq := by
      intro id'
      show ((e.sessions.modify id change).get? id').map Session.book = _
      rw [Table.get?_modify]
      split
      · rw [Option.map_map]
        exact congrArg (Option.map · _) (funext h)
      · rfl
    size := Table.size_modify _ _ _ }

theorem send (e : Engine σ) (ids : List SessionId) {packet : Session → Packet}
    (h : ∀ s, (packet s).ends? = none) : Undisturbed e (e.send ids packet) := by
  have hfold := foldl (fun e id => modifySession e id _ fun s => Session.book_send (h s) s) ids e
  have hsend : ∀ (ids : List SessionId) (e : Engine σ), e.send ids packet =
      ids.foldl (fun e id => e.modifySession id fun s => s.send (packet s)) e := by
    intro ids
    induction ids with
    | nil => exact fun _ => rfl
    | cons id ids ih => exact fun e => ih (e.modifySession id fun s => s.send (packet s))
  exact hsend ids e ▸ hfold

theorem notify (e : Engine σ) (k : JobKey) {body : Body} (h : body.ends? = none) :
    Undisturbed e (e.notify k body) :=
  send e _ fun _ => h

theorem wakeSessions (e : Engine σ) (ids : List SessionId) :
    Undisturbed e { e with sessions := e.sessions.wake ids } := by
  induction ids generalizing e with
  | nil => exact refl e
  | cons id ids ih => exact (modifySession e id _ Session.book_wake).trans (ih _)

theorem wakeCrew (e : Engine σ) (f : String) : Undisturbed e (e.wakeCrew f) := by
  unfold Engine.wakeCrew
  split
  · exact refl e
  · next w _ =>
    exact (modifyCrew e f _).trans (wakeSessions (e.modifyCrew f _) w.crew.sleepers)

theorem publish (e : Engine σ) (event : PeerEvent) : Undisturbed e (e.publish event) := by
  unfold Engine.publish
  split
  · exact { refl e with }
  · exact refl e

end Undisturbed

/-! ### Abilities and sleep -/

theorem undisturbed_addAbility (e : Engine σ) (id : SessionId) (f : String)
    (timeout : Option UInt32) : Undisturbed e (e.addAbility id f timeout) :=
  ((Undisturbed.modifySession e id (·.addAbility f timeout) fun _ => rfl).trans
    (.establish _ f)).trans (.modifyCrew _ f _)

theorem undisturbed_removeAbility (e : Engine σ) (id : SessionId) (f : String) :
    Undisturbed e (e.removeAbility id f) :=
  (Undisturbed.modifySession e id (·.removeAbility f) fun _ => rfl).trans (.modifyCrew _ f _)

theorem undisturbed_resetAbilities (e : Engine σ) (id : SessionId) :
    Undisturbed e (e.resetAbilities id) :=
  (Undisturbed.modifySession e id Session.clearAbilities fun _ => rfl).trans
    (.foldl (fun e f => .modifyCrew e f (·.remove id)) (e.abilities id) _)

theorem undisturbed_wake (e : Engine σ) (id : SessionId) : Undisturbed e (e.wake id) :=
  (Undisturbed.foldl (fun e f => .modifyCrew e f (·.removeSleeper id)) (e.abilities id) e).trans
    (.modifySession _ id _ Session.book_wake)

theorem undisturbed_sleep (e : Engine σ) (id : SessionId) : Undisturbed e (e.sleep id) := by
  have hasleep := (Undisturbed.modifySession e id
    (·.sleepUntil (e.uptime + e.settings.longPollSeconds)) fun _ => rfl).trans
    (.foldl (fun e f => (Undisturbed.establish e f).trans (.modifyCrew _ f (·.addSleeper id)))
      (e.abilities id) _)
  simp only [Engine.sleep]
  split
  · exact hasleep.trans (undisturbed_wake _ id)
  · exact hasleep

theorem undisturbed_setMaxQueue (e : Engine σ) (f : String) (size : Nat) :
    Undisturbed e (e.setMaxQueue f size) :=
  (Undisturbed.establish e f).trans
    (.modifyWorkshop _ f (fun _ => rfl) (fun _ => rfl) (fun _ => rfl))

/-! ### Who is connected -/

/-- The same sessions are connected, under the same settings. -/
structure Steady (e e' : Engine σ) : Prop where
  connected : e'.connected = e.connected
  fixed : e'.fixed = e.fixed

namespace Steady

theorem refl (e : Engine σ) : Steady e e := ⟨rfl, rfl⟩

theorem after {e'' : Engine σ} (h' : Steady e' e'') (h : Steady e e') : Steady e e'' :=
  ⟨h'.connected.trans h.connected, h'.fixed.trans h.fixed⟩

end Steady

theorem Undisturbed.steady (h : Undisturbed e e') : Steady e e' := ⟨h.connected, h.fixed⟩

theorem Steady.settings (h : Steady e e') : e'.settings = e.settings := congrArg Prod.fst h.fixed

theorem steady_dropLost (e : Engine σ) (k : JobKey) : Steady e (e.dropLost k) := by
  unfold dropLost
  split
  · exact .refl e
  · exact ⟨rfl, rfl⟩

theorem steady_finish [JobStore σ] (e : Engine σ) (handle : String) (o : Outcome) :
    Steady e (e.finish handle o).2 := by
  unfold Engine.finish
  split
  · exact .refl e
  · next k _ =>
    dsimp only
    split
    · exact ⟨rfl, rfl⟩
    · cases o with
      | complete data =>
        refine (Undisturbed.publish _ _).steady.after ?_
        split
        · split <;> exact ⟨rfl, rfl⟩
        · exact ⟨rfl, rfl⟩
      | fail | exception =>
        dsimp only
        split
        · split <;> exact ⟨rfl, rfl⟩
        · exact ⟨rfl, rfl⟩

theorem steady_requeue (e : Engine σ) (handle : String) : Steady e (e.requeue handle) := by
  unfold requeue
  split
  · exact .refl e
  · dsimp only
    split
    · exact ⟨rfl, rfl⟩
    · exact (Undisturbed.wakeCrew _ _).steady.after ⟨rfl, rfl⟩

theorem steady_abandon [JobStore σ] (e : Engine σ) (handle : String) :
    Steady e (e.abandon handle) := by
  unfold abandon
  split
  · exact steady_requeue e handle
  · exact steady_finish e handle .fail

theorem steady_abandonAll [JobStore σ] (handles : List String) (e : Engine σ) :
    Steady e (handles.foldl abandon e) := by
  induction handles generalizing e with
  | nil => exact .refl e
  | cons h hs ih => exact (ih _).after (steady_abandon e h)

/-- A session is no longer connected and no longer in any crew or wait list. The jobs it works on
are not given up yet. -/
def depart (e : Engine σ) (id : SessionId) : Engine σ :=
  ({ e with
    connected := e.connected.filter (· ≠ id)
    workshops := e.workshops.filterMap fun w : Workshop => some (w.leave id) } :
      Engine σ).modifySession id fun s => { s.clearAbilities with assigned := [] }

theorem disconnect_eq [JobStore σ] (e : Engine σ) (id : SessionId) :
    e.disconnect id = (e.assigned id).foldl abandon (e.depart id) := rfl

theorem workshop?_depart (e : Engine σ) (id : SessionId) (f : String) :
    (e.depart id).workshop? f = (e.workshop? f).map (·.leave id) :=
  (Table.get?_filterMap _ _ _).trans (Option.map_eq_bind ..).symm

theorem connected_disconnect [JobStore σ] (e : Engine σ) (id : SessionId) :
    (e.disconnect id).connected = e.connected.filter (· ≠ id) :=
  (steady_abandonAll _ _).connected

theorem steady_remove [JobStore σ] (e : Engine σ) (handle : String) :
    Steady e (e.remove handle).2 := by
  unfold Engine.remove
  split
  · exact .refl e
  · dsimp only
    split <;> exact ⟨rfl, rfl⟩

theorem steady_settle [JobStore σ] (e : Engine σ) (live : LiveJob) (data : Bytes) :
    Steady e (e.settle live data) := by
  unfold settle
  dsimp only
  split <;> exact ⟨rfl, rfl⟩

theorem steady_reportProgress (e : Engine σ) (handle : String) (n d : UInt32) :
    Steady e (e.reportProgress handle n d).2 := by
  unfold Engine.reportProgress
  split <;> exact ⟨rfl, rfl⟩

/-- What is kept when a queue and the store change, when a job is dropped and when one is handed
out, is kept when a worker looks for a job. -/
theorem takeFrom_of_steps [JobStore σ] {P : Engine σ → Prop} {id : SessionId}
    (hqueue : ∀ e f q store, P e → P { e.setQueue f q with store })
    (hdrop : ∀ e k, P e → P (e.dropLost k))
    (hassign : ∀ e k record, P e → P (e.assign k record id).2) (fs : List String) (he : P e) :
    P (e.takeFrom id fs).2 := by
  induction fs generalizing e with
  | nil => exact he
  | cons f fs ih =>
    unfold takeFrom
    split
    · exact ih he
    · split
      · exact ih (hqueue e f _ e.store he)
      · split
        · exact ih (hdrop _ _ (hqueue e f _ _ he))
        · exact hassign _ _ _ (hqueue e f _ _ he)

theorem steady_takeFrom [JobStore σ] (e : Engine σ) (id : SessionId) (fs : List String) :
    Steady e (e.takeFrom id fs).2 := by
  refine takeFrom_of_steps (P := Steady e) ?_ ?_ ?_ fs (.refl e)
  · intro e' f q store h
    exact ⟨h.connected, h.fixed⟩
  · intro e' k h
    exact (steady_dropLost e' k).after h
  · intro e' k record h
    exact ⟨h.connected, h.fixed⟩

theorem steady_await (e : Engine σ) (j : Job) (client : Option SessionId) :
    Steady e (e.await j client) := by
  unfold await
  split
  · exact .refl e
  · split <;> exact ⟨rfl, rfl⟩

theorem steady_letIn [JobStore σ] (e : Engine σ) (j : Job) (client : Option SessionId) :
    Steady e (e.letIn j client).2 := by
  unfold Engine.letIn
  dsimp only
  split
  · exact ⟨rfl, rfl⟩
  · exact ⟨rfl, rfl⟩
  · exact (Undisturbed.publish _ _).steady.after ((Undisturbed.wakeCrew _ _).steady.after
      ((steady_await _ _ client).after ⟨rfl, rfl⟩))

theorem steady_submit [JobStore σ] (e : Engine σ) (j : Job) (client : Option SessionId) :
    Steady e (e.submit j client).2 := by
  have hidentify : Steady e (e.identify j).2 := by
    unfold identify
    split <;> exact ⟨rfl, rfl⟩
  unfold Engine.submit
  dsimp only
  split
  · exact (steady_await _ _ client).after ⟨hidentify.connected, hidentify.fixed⟩
  · exact (steady_letIn _ _ client).after ⟨hidentify.connected, hidentify.fixed⟩

/-! ### Reports that end no job -/

theorem undisturbed_reportData (e : Engine σ) (handle : String) (data : Bytes) :
    Undisturbed e (e.reportData handle data).2 := by
  unfold Engine.reportData
  split
  · exact .refl e
  · exact (Undisturbed.publish e _).trans (.notify _ _ rfl)

theorem undisturbed_reportWarning (e : Engine σ) (handle : String) (data : Bytes) :
    Undisturbed e (e.reportWarning handle data).2 := by
  unfold Engine.reportWarning
  split
  · exact .refl e
  · exact .notify e _ rfl

end Engine

end JobBroker
