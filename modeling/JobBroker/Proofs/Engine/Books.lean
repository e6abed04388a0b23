import JobBroker.Proofs.Engine.Frame
import JobBroker.Proofs.Ledger.Path

/-!
# The ledger an engine keeps

`Keeps` relates an engine to a ledger. Each part of the ledger is read off another part of the
engine: the jobs off the table of live jobs, the queued ones off the queues, who works on them off
the sessions, the notices off their outboxes. The lemmas say what the parts of an operation do to
the ledger; put together they give its moves.

* `Keeps.quiet` : what leaves the jobs undisturbed leaves the ledger.
* `Keeps.ledger_eq` : an engine keeps the ledger that it shows.
-/

namespace JobBroker

open Function (update update_apply)

namespace LiveJobs

theorem keyOf?_insert_eq (l : LiveJobs) (j : Job) (w : Option SessionId) :
    (l.insert j w).keyOf? = update l.keyOf? j.handle (some j.key) := by
  funext h
  rw [update_apply]
  exact (Table.get?_insert _ _ _ _).trans (if_congr eq_comm rfl rfl)

theorem find?_insert_eq (l : LiveJobs) (j : Job) (w : Option SessionId) :
    (l.insert j w).find? = update l.find? j.key (some ⟨j, w⟩) := by
  funext k
  rw [update_apply, find?_insert]
  exact if_congr eq_comm rfl rfl

theorem find?_modify_eq {l : LiveJobs} {k : JobKey} {live : LiveJob} (h : l.find? k = some live)
    (f : LiveJob → LiveJob) : (l.modify k f).find? = update l.find? k (some (f live)) := by
  funext k'
  rw [update_apply, find?_modify]
  by_cases hk : k = k'
  · subst hk
    simp [h]
  · simp [hk, Ne.symm hk]

theorem find?_erase_eq (l : LiveJobs) (k : JobKey) :
    (l.erase k).find? = update l.find? k none := by
  funext k'
  rw [update_apply, find?_erase]
  exact if_congr eq_comm rfl rfl

theorem keyOf?_erase_eq {l : LiveJobs} {k : JobKey} {live : LiveJob} (h : l.find? k = some live) :
    (l.erase k).keyOf? = update l.keyOf? live.job.handle none := by
  funext h'
  simp only [erase, h, update_apply]
  exact (Table.get?_erase _ _ _).trans (if_congr eq_comm rfl rfl)

end LiveJobs

namespace Engine

variable {σ : Type} {e e' : Engine σ} {l : Ledger}

/-- What an engine says about its live jobs. -/
def ledger (e : Engine σ) : Ledger where
  host := e.handles.host
  last := e.handles.last
  jobs := e.live.find?
  keys := e.live.keyOf?
  queued := e.queued
  waiters := e.waiters
  assigned := e.assigned
  wants := e.wants
  notices := e.notices

/-- The engine keeps the ledger, and its queues and sessions are in order. A session that is not
connected may still work on jobs by the ledger, while the engine is giving them up. -/
structure Keeps (e : Engine σ) (l : Ledger) : Prop where
  host_eq : l.host = e.handles.host
  last_eq : l.last = e.handles.last
  jobs_eq : l.jobs = e.live.find?
  keys_eq : l.keys = e.live.keyOf?
  queued_eq : l.queued = e.queued
  waiters_eq : l.waiters = e.waiters
  assigned_eq : ∀ id ∈ e.connected, l.assigned id = e.assigned id
  wants_eq : l.wants = e.wants
  notices_eq : l.notices = e.notices
  inOrder : ∀ f, (e.workshop f).queue.InOrder
  known : ∀ {k live}, e.live.find? k = some live → (e.workshop? k.functionName).isSome
  idle : ∀ id, id ∉ e.connected → e.assigned id = []
  lt_size : ∀ {id}, (e.session? id).isSome → id < e.sessions.size
  listens : ∀ {id b}, e.book? id = some b → b.hungUp = false
  isSome_of_connected : ∀ {id}, id ∈ e.connected → (e.session? id).isSome
  connected_of_waiter : ∀ {k id}, id ∈ e.waiters k → id ∈ e.connected

/-- An engine that keeps a ledger in which only connected sessions work keeps the one it shows. -/
theorem Keeps.ledger_eq (hk : e.Keeps l) (h : ∀ id, id ∉ e.connected → l.assigned id = []) :
    l = e.ledger := by
  have hassigned : l.assigned = e.assigned := by
    funext id
    by_cases hid : id ∈ e.connected
    · exact hk.assigned_eq id hid
    · rw [h id hid, hk.idle id hid]
  cases l
  simp only [ledger, Ledger.mk.injEq]
  exact ⟨hk.host_eq, hk.last_eq, hk.jobs_eq, hk.keys_eq, hk.queued_eq, hk.waiters_eq, hassigned,
    hk.wants_eq, hk.notices_eq⟩

theorem Keeps.quiet (hk : e.Keeps l) (h : Undisturbed e e') : e'.Keeps l := by
  have hwaiters : e'.waiters = e.waiters := funext fun k => by rw [waiters, h.waitLists, waiters]
  have hassigned : e'.assigned = e.assigned := by
    funext id
    rw [assigned_of_book, h.book?_eq, assigned_of_book]
  have hsession : ∀ id, (e'.session? id).isSome = (e.session? id).isSome := by
    intro id
    rw [← isSome_book?, h.book?_eq, isSome_book?]
  exact {
    host_eq := h.handles ▸ hk.host_eq
    last_eq := h.handles ▸ hk.last_eq
    jobs_eq := h.live ▸ hk.jobs_eq
    keys_eq := h.live ▸ hk.keys_eq
    queued_eq := hk.queued_eq.trans <| funext fun k => by
      rw [queued, queued, Queue.find?, Queue.find?, h.jobs]
    waiters_eq := hwaiters ▸ hk.waiters_eq
    assigned_eq := fun id hid => hassigned ▸ hk.assigned_eq id (h.connected ▸ hid)
    wants_eq := hk.wants_eq.trans <| funext fun id => by
      rw [wants_of_book, wants_of_book, h.book?_eq]
    notices_eq := hk.notices_eq.trans <| funext fun id => by
      rw [notices_of_book, notices_of_book, h.book?_eq]
    inOrder := fun f => (hk.inOrder f).congr (h.jobs f) (h.lanes f)
    known := fun hlive => h.known _ (hk.known (h.live ▸ hlive))
    idle := fun id hid => hassigned ▸ hk.idle id (h.connected ▸ hid)
    lt_size := fun hid => h.size ▸ hk.lt_size (hsession _ ▸ hid)
    listens := fun hb => hk.listens ((h.book?_eq _).symm.trans hb)
    isSome_of_connected := fun hid => hsession _ ▸ hk.isSome_of_connected (h.connected ▸ hid)
    connected_of_waiter := fun hid => h.connected ▸ hk.connected_of_waiter (hwaiters ▸ hid) }

theorem Keeps.withStore (hk : e.Keeps l) (store : σ) : Keeps { e with store } l := { hk with }

/-! ### Live jobs and queues -/

theorem Keeps.insertLive (hk : e.Keeps l) {j : Job} (hf : (e.workshop? j.functionName).isSome)
    (w : Option SessionId) :
    Keeps { e with live := e.live.insert j w }
      { l with
        jobs := update l.jobs j.key (some ⟨j, w⟩)
        keys := update l.keys j.handle (some j.key) } :=
  { hk with
    jobs_eq := by rw [LiveJobs.find?_insert_eq, hk.jobs_eq]
    keys_eq := by rw [LiveJobs.keyOf?_insert_eq, hk.keys_eq]
    known := by
      intro k live hlive
      rw [LiveJobs.find?_insert] at hlive
      split at hlive
      · next h => exact h ▸ hf
      · exact hk.known hlive }

theorem Keeps.modifyLive (hk : e.Keeps l) {k : JobKey} {live : LiveJob}
    (h : l.jobs k = some live) (f : LiveJob → LiveJob) :
    Keeps { e with live := e.live.modify k f } { l with jobs := update l.jobs k (some (f live)) } :=
  { hk with
    jobs_eq := by rw [LiveJobs.find?_modify_eq (hk.jobs_eq ▸ h), hk.jobs_eq]
    keys_eq := hk.keys_eq
    known := by
      intro k' live' hlive
      rw [LiveJobs.find?_modify] at hlive
      split at hlive
      · obtain ⟨live₀, hlive₀, -⟩ := Option.map_eq_some_iff.mp hlive
        exact hk.known hlive₀
      · exact hk.known hlive }

theorem Keeps.eraseLive (hk : e.Keeps l) {k : JobKey} {live : LiveJob} (h : l.jobs k = some live) :
    Keeps { e with live := e.live.erase k }
      { l with jobs := update l.jobs k none, keys := update l.keys live.job.handle none } :=
  { hk with
    jobs_eq := by rw [LiveJobs.find?_erase_eq, hk.jobs_eq]
    keys_eq := by rw [LiveJobs.keyOf?_erase_eq (hk.jobs_eq ▸ h), hk.keys_eq]
    known := by
      intro k' live' hlive
      rw [LiveJobs.find?_erase] at hlive
      split at hlive
      · exact absurd hlive (by simp)
      · exact hk.known hlive }

/-- A change of the workshops, with what they show of queued jobs and of waiters after it. -/
theorem Keeps.withWorkshops (hk : e.Keeps l) (workshops : Table String Workshop)
    {queued : JobKey → Option QueuedJob} {waiters : JobKey → List SessionId}
    (hqueued : queued = Engine.queued { e with workshops })
    (hwaiters : waiters = Engine.waiters { e with workshops })
    (hknown : ∀ f, (e.workshop? f).isSome → (workshop? { e with workshops } f).isSome)
    (hinOrder : ∀ f, (workshop { e with workshops } f).queue.InOrder)
    (hconnected : ∀ k, ∀ id ∈ waiters k, id ∈ e.connected) :
    Keeps { e with workshops } { l with queued, waiters } :=
  { hk with
    queued_eq := hqueued
    waiters_eq := hwaiters
    inOrder := hinOrder
    known := fun hlive => hknown _ (hk.known hlive)
    connected_of_waiter := fun {k id} hid => hconnected k id (hwaiters ▸ hid) }

/-- A queue that differs from what it was at one unique id only. -/
theorem Keeps.setQueue (hk : e.Keeps l) {f : String} (hf : (e.workshop? f).isSome) {q : Queue}
    (hq : q.InOrder) {u : String} {x : Option QueuedJob}
    (hfind : ∀ v, q.find? v = if u = v then x else (e.workshop f).queue.find? v) :
    Keeps (e.setQueue f q) { l with queued := update l.queued ⟨f, u⟩ x } := by
  have hqueue : ∀ f', ((e.setQueue f q).workshop f').queue =
      if f = f' then q else (e.workshop f').queue := by
    intro f'
    rw [Engine.setQueue, workshop_modifyWorkshop hf]
    split <;> rfl
  have hwaiters : (e.setQueue f q).waiters = e.waiters := funext fun k =>
    congrArg (·.waiters k.uniqueId) <|
      workshop_modifyWorkshop_of_eq (·.waitLists)
        (show ∀ w : Workshop, { w with queue := q }.waitLists = w.waitLists from fun _ => rfl) e f _
  have hqueued : (e.setQueue f q).queued = update e.queued ⟨f, u⟩ x := by
    funext k
    obtain ⟨f', v⟩ := k
    rw [update_apply, queued, hqueue]
    by_cases hff : f = f'
    · subst hff
      rw [if_pos rfl, hfind]
      by_cases huv : u = v
      · simp [huv]
      · simp [huv, Ne.symm huv, queued]
    · simp [hff, Ne.symm hff, queued]
  refine hk.withWorkshops (e.setQueue f q).workshops (hk.queued_eq ▸ hqueued.symm)
    (hk.waiters_eq.trans hwaiters.symm)
    (fun f' hf' => (isSome_modifyWorkshop e f f' _).trans hf') (fun f' => ?_)
    (fun k id hid => hk.connected_of_waiter (hk.waiters_eq ▸ hid))
  show ((e.setQueue f q).workshop f').queue.InOrder
  rw [hqueue]
  split
  · exact hq
  · exact hk.inOrder f'

/-! ### Sessions -/

/-- A change of what sessions work on or have been told: `g` is what becomes of their books. -/
theorem Keeps.withSessions (hk : e.Keeps l) (sessions : Sessions)
    (hsize : sessions.size = e.sessions.size) {g : SessionId → Session.Book → Session.Book}
    (hbook : ∀ id, book? { e with sessions } id = (e.book? id).map (g id))
    (hkept : ∀ id b, (g id b).hungUp = b.hungUp)
    {assigned : SessionId → List String} {wants : SessionId → Bool}
    {notices : SessionId → List Packet}
    (hassigned : ∀ id ∈ e.connected, ∀ b, e.book? id = some b → b.assigned = l.assigned id →
      (g id b).assigned = assigned id)
    (hidle : ∀ id, id ∉ e.connected → ∀ b, (g id b).assigned = b.assigned)
    (hwants : ∀ id b, e.book? id = some b → b.wantsExceptions = l.wants id →
      (g id b).wantsExceptions = wants id)
    (hnotices : ∀ id b, e.book? id = some b → b.notices = l.notices id →
      (g id b).notices = notices id)
    (hnone : ∀ id, e.book? id = none → wants id = l.wants id ∧ notices id = l.notices id) :
    Keeps { e with sessions } { l with assigned, wants, notices } := by
  have hsome : ∀ id, (session? { e with sessions } id).isSome = (e.session? id).isSome :=
    fun id => by rw [← isSome_book?, hbook, Option.isSome_map, isSome_book?]
  exact { hk with
    assigned_eq := by
      intro id hid
      obtain ⟨b, hb⟩ := Option.isSome_iff_exists.mp
        ((isSome_book? e id).trans (hk.isSome_of_connected hid))
      have hlb : b.assigned = l.assigned id := by
        rw [hk.assigned_eq id hid, assigned_of_book, hb]
        rfl
      rw [assigned_of_book, hbook, hb]
      exact (hassigned id hid b hb hlb).symm
    wants_eq := by
      funext id
      have hl : l.wants id = e.wants id := congrFun hk.wants_eq id
      rw [wants_of_book] at hl ⊢
      rw [hbook]
      cases hb : e.book? id with
      | none => exact (hnone id hb).1.trans (by rw [hl, hb]; rfl)
      | some b => exact (hwants id b hb (by rw [hl, hb]; rfl)).symm
    notices_eq := by
      funext id
      have hl : l.notices id = e.notices id := congrFun hk.notices_eq id
      rw [notices_of_book] at hl ⊢
      rw [hbook]
      cases hb : e.book? id with
      | none => exact (hnone id hb).2.trans (by rw [hl, hb]; rfl)
      | some b => exact (hnotices id b hb (by rw [hl, hb]; rfl)).symm
    idle := by
      intro id hid
      refine Eq.trans ?_ (hk.idle id hid)
      rw [assigned_of_book, assigned_of_book, hbook, Option.map_map]
      exact congrArg (fun f => ((e.book? id).map f).getD []) (funext (hidle id hid))
    lt_size := fun hid => hsize ▸ hk.lt_size (hsome _ ▸ hid)
    listens := by
      intro id b hb
      rw [hbook] at hb
      obtain ⟨b₀, hb₀, rfl⟩ := Option.map_eq_some_iff.mp hb
      exact (hkept id b₀).trans (hk.listens hb₀)
    isSome_of_connected := fun hid => (hsome _).trans (hk.isSome_of_connected hid) }

theorem book?_modifySession (e : Engine σ) (id : SessionId) {change : Session → Session}
    (g : Session.Book → Session.Book) (h : ∀ s, (change s).book = g s.book) (id' : SessionId) :
    (e.modifySession id change).book? id' =
      (e.book? id').map fun b => if id = id' then g b else b := by
  show ((e.sessions.modify id change).get? id').map Session.book =
    ((e.sessions.get? id').map Session.book).map _
  rw [Table.get?_modify]
  split
  · rw [Option.map_map, Option.map_map]
    exact congrArg (Option.map · _) (funext h)
  · exact Option.map_id'.symm

/-- One session's handles change. -/
theorem Keeps.modifyAssigned (hk : e.Keeps l) {id : SessionId} (hid : id ∈ e.connected)
    {change : Session → Session} (g : List String → List String)
    (h : ∀ s, (change s).book = { s.book with assigned := g s.assigned }) :
    Keeps (e.modifySession id change)
      { l with assigned := update l.assigned id (g (l.assigned id)) } := by
  refine hk.withSessions (e.modifySession id change).sessions (Table.size_modify _ _ _)
    (book?_modifySession e id (fun b => { b with assigned := g b.assigned }) h)
    (fun id' b => ?_) (fun id' _ b _ hlb => ?_) (fun id' hid' b => ?_)
    (fun id' b _ hlb => ?_) (fun id' b _ hlb => ?_) (fun _ _ => ⟨rfl, rfl⟩)
  · split <;> rfl
  · rw [update_apply, ← hlb]
    by_cases hii : id = id'
    · subst hii
      simp [hlb]
    · simp [hii, Ne.symm hii]
  · rw [if_neg (by rintro rfl; exact hid' hid)]
  · rw [← hlb]
    split <;> rfl
  · rw [← hlb]
    split <;> rfl

/-- A session says whether it wants to be told of exceptions. -/
theorem Keeps.ask (hk : e.Keeps l) {id : SessionId} (hid : id ∈ e.connected) (on : Bool) :
    Keeps (e.modifySession id fun s => { s with wantsExceptions := on })
      (l.after (.ask id on)) := by
  show Keeps _ { l with wants := update l.wants id on }
  refine hk.withSessions (e.modifySession id fun s => { s with wantsExceptions := on }).sessions
    (Table.size_modify _ _ _)
    (book?_modifySession e id (fun b => { b with wantsExceptions := on }) fun _ => rfl)
    (fun id' b => ?_) (fun id' _ b _ hlb => ?_) (fun id' _ b => ?_)
    (fun id' b _ hlb => ?_) (fun id' b _ hlb => ?_) (fun id' hb => ⟨?_, rfl⟩)
  · split <;> rfl
  · rw [← hlb]
    split <;> rfl
  · split <;> rfl
  · rw [update_apply, ← hlb]
    by_cases hii : id = id'
    · simp [hii]
    · simp [hii, Ne.symm hii]
  · rw [← hlb]
    split <;> rfl
  · have hne : id' ≠ id := by
      rintro rfl
      have := hk.isSome_of_connected hid
      rw [← isSome_book?, hb] at this
      exact absurd this (by simp)
    exact Function.update_of_ne hne _ _

theorem Keeps.assign (hk : e.Keeps l) {id : SessionId} (hid : id ∈ e.connected) (handle : String) :
    Keeps (e.modifySession id (·.assign handle))
      { l with assigned := update l.assigned id (Ledger.adjoin handle (l.assigned id)) } :=
  hk.modifyAssigned hid (Ledger.adjoin handle) fun s => by
    unfold Session.assign Ledger.adjoin
    split <;> rfl

/-- A handle that no connected session works on may be struck out. -/
theorem Keeps.unassign (hk : e.Keeps l) {handle : String}
    (h : ∀ id ∈ e.connected, handle ∉ l.assigned id) :
    e.Keeps { l with assigned := l.unassign handle } :=
  { hk with
    assigned_eq := fun id hid =>
      (Ledger.unassign_eq_self (h id hid)).trans (hk.assigned_eq id hid) }

theorem Keeps.release (hk : e.Keeps l) {id : SessionId} (hid : id ∈ e.connected) {handle : String}
    (h : ∀ id' ∈ e.connected, handle ∈ l.assigned id' → id' = id) :
    Keeps (e.modifySession id (·.release handle)) { l with assigned := l.unassign handle } := by
  have hreleased : Keeps (e.modifySession id (·.release handle)) _ :=
    hk.modifyAssigned hid (List.filter (· ≠ handle)) fun _ => rfl
  refine { hreleased with assigned_eq := fun id' hid' => ?_ }
  rw [← hreleased.assigned_eq id' hid']
  by_cases he : id' = id
  · subst he
    exact (Function.update_self id' _ l.assigned).symm
  · exact (Ledger.unassign_eq_self fun hh => he (h id' hid' hh)).trans
      (Function.update_of_ne he _ l.assigned).symm

end Engine

end JobBroker
