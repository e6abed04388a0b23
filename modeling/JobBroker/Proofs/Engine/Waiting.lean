import JobBroker.Proofs.Engine.Books

/-!
# Waiting clients

Who waits for a job stands in the workshop of its function, and what they are told stands in their
outboxes.

* `Keeps.dismiss` : the waiters of a job hear of its end once, and nobody else does.
* `Keeps.await` : a client in the foreground joins those that wait for a job.
-/

namespace JobBroker

open Function (update update_apply)

namespace Engine

variable {σ : Type} {e e' : Engine σ} {l : Ledger}

theorem Keeps.releaseWaiters (hk : e.Keeps l) {k : JobKey}
    (hf : (e.workshop? k.functionName).isSome) :
    Keeps (e.releaseWaiters k) { l with waiters := update l.waiters k [] } := by
  have hwaiters : (e.releaseWaiters k).waiters = update e.waiters k [] := by
    funext k'
    rw [update_apply, waiters, Engine.releaseWaiters, workshop_modifyWorkshop hf]
    obtain ⟨f, u⟩ := k
    obtain ⟨f', u'⟩ := k'
    by_cases hff : f = f'
    · subst hff
      rw [if_pos rfl, WaitLists.waiters_release]
      by_cases huu : u = u' <;> simp [huu, Ne.symm, eq_comm, waiters]
    · simp [hff, Ne.symm hff, waiters]
  have hqueue : ∀ f, ((e.releaseWaiters k).workshop f).queue = (e.workshop f).queue :=
    workshop_modifyWorkshop_of_eq Workshop.queue (show ∀ w : Workshop,
      { w with waitLists := w.waitLists.release k.uniqueId }.queue = w.queue from fun _ => rfl) e _
  refine hk.withWorkshops (e.releaseWaiters k).workshops
    (hk.queued_eq.trans (funext fun k' => ?_)) (hk.waiters_eq ▸ hwaiters.symm)
    (fun f hf => (isSome_modifyWorkshop e k.functionName f _).trans hf) (fun f => ?_)
    (fun k' id hid => ?_)
  · show _ = (e.releaseWaiters k).queued k'
    rw [queued, queued, hqueue]
  · show ((e.releaseWaiters k).workshop f).queue.InOrder
    exact hqueue f ▸ hk.inOrder f
  · rw [update_apply] at hid
    split at hid
    · exact absurd hid (by simp)
    · exact hk.connected_of_waiter (hk.waiters_eq ▸ hid)

/-- What each of some sessions is told of an end. -/
theorem Keeps.tell (hk : e.Keeps l) {ids : List SessionId} (hids : ids.Nodup)
    (hconnected : ∀ id ∈ ids, id ∈ e.connected) {reply : Bool → Body}
    (hreply : ∀ wants, (reply wants).ends?.isSome) {packet : Session → Packet}
    (hpacket : ∀ s, packet s = .response (reply s.wantsExceptions)) :
    Keeps (e.send ids packet)
      { l with
        notices := fun id => l.notices id ++
          if id ∈ ids then [.response (reply (l.wants id))] else [] } := by
  have hsession : ∀ id, (e.send ids packet).session? id =
      if id ∈ ids then (e.session? id).map fun s => s.send (packet s) else e.session? id :=
    Table.get?_foldl_modify _ hids e.sessions
  refine hk.withSessions (e.send ids packet).sessions (Table.size_foldl_modify _ ids e.sessions)
    (g := fun id b => { b with notices := b.notices ++
      if id ∈ ids then [.response (reply b.wantsExceptions)] else [] })
    (fun id => ?_) (fun _ _ => rfl) (fun id _ b _ hlb => hlb) (fun _ _ _ => rfl)
    (fun id b _ hlb => hlb) (fun id b hb hlb => ?_) (fun id hb => ⟨rfl, ?_⟩)
  · show ((e.send ids packet).session? id).map Session.book =
      ((e.session? id).map Session.book).map _
    rw [hsession]
    cases hs : e.session? id with
    | none => simp
    | some s =>
      have hb : e.book? id = some s.book := by rw [book?, hs, Option.map_some]
      have hlistens : s.hungUp = false := hk.listens hb
      by_cases hid : id ∈ ids
      · have hends : (packet s).ends?.isSome := by rw [hpacket]; exact hreply _
        rw [if_pos hid, Option.map_some, Option.map_some, Session.book_send_of_ends hends hlistens,
          hpacket]
        simp [hid, Session.book]
      · simp [hid]
  · rw [← hlb, hk.wants_eq, wants_of_book, hb]
    rfl
  · have hid : id ∉ ids := by
      intro hid
      have := hk.isSome_of_connected (hconnected id hid)
      rw [← isSome_book?, hb] at this
      exact absurd this (by simp)
    rw [if_neg hid, List.append_nil]

/-- The waiters of a job hear of its end, and wait no more. -/
theorem Keeps.dismiss (hk : e.Keeps l) {k : JobKey} (hf : (e.workshop? k.functionName).isSome)
    (hnodup : (l.waiters k).Nodup) {reply : Bool → Body}
    (hreply : ∀ wants, (reply wants).ends?.isSome) {packet : Session → Packet}
    (hpacket : ∀ s, packet s = .response (reply s.wantsExceptions)) :
    Keeps (e.dismiss k packet)
      { l with
        waiters := update l.waiters k []
        notices := fun id => l.notices id ++
          if id ∈ l.waiters k then [.response (reply (l.wants id))] else [] } := by
  rw [hk.waiters_eq] at hnodup ⊢
  have hreleased : Keeps (e.releaseWaiters k) { l with waiters := update e.waiters k [] } := by
    rw [← hk.waiters_eq]
    exact hk.releaseWaiters hf
  exact hreleased.tell hnodup (fun id hid => hk.connected_of_waiter hid) hreply hpacket

theorem await_eq {j : Job} (hj : j.background = false) (e : Engine σ) (id : SessionId) :
    e.await j (some id) = e.modifyWorkshop j.functionName fun w =>
      { w with waitLists := (w.waitLists.register j.uniqueId id).2 } := by
  simp [Engine.await, hj]

/-- A client of a job in the foreground joins those that wait for it. -/
theorem waiters_await {j : Job} (hf : (e.workshop? j.functionName).isSome)
    (hj : j.background = false) (id : SessionId) :
    (e.await j (some id)).waiters =
      update e.waiters j.key (Ledger.adjoin id (e.waiters j.key)) := by
  funext ⟨f, u⟩
  rw [await_eq hj, update_apply, waiters, workshop_modifyWorkshop hf]
  by_cases hff : j.functionName = f
  · subst hff
    rw [if_pos rfl, WaitLists.waiters_register]
    by_cases huu : j.uniqueId = u
    · subst huu
      by_cases hw : id ∈ (e.workshop j.functionName).waitLists.waiters j.uniqueId <;>
        simp [Job.key, waiters, Ledger.adjoin, hw]
    · simp [Job.key, waiters, huu, Ne.symm huu]
  · simp [Job.key, waiters, hff, Ne.symm hff]

/-- Nothing of a workshop but its wait lists changes when a client waits. -/
theorem workshop_await {α : Type} (view : Workshop → α)
    (hview : ∀ w waitLists, view { w with waitLists } = view w) (e : Engine σ) (j : Job)
    (client : Option SessionId) (f : String) :
    view ((e.await j client).workshop f) = view (e.workshop f) := by
  unfold Engine.await
  split
  · rfl
  · split
    · rfl
    · exact workshop_modifyWorkshop_of_eq view (fun w => hview w _) e _ f

theorem isSome_await (e : Engine σ) (j : Job) (client : Option SessionId) (f : String) :
    ((e.await j client).workshop? f).isSome = (e.workshop? f).isSome := by
  unfold Engine.await
  split
  · rfl
  · split
    · rfl
    · exact isSome_modifyWorkshop ..

theorem await_eq_withWorkshops (e : Engine σ) (j : Job) (client : Option SessionId) :
    e.await j client = { e with workshops := (e.await j client).workshops } := by
  unfold Engine.await
  split
  · rfl
  · split <;> rfl

theorem Keeps.await (hk : e.Keeps l) {j : Job} (hf : (e.workshop? j.functionName).isSome)
    (hj : j.background = false) {id : SessionId} (hid : id ∈ e.connected) :
    Keeps (e.await j (some id)) (l.after (.join j.key id)) := by
  have hwaiters := waiters_await hf hj id
  have hqueue := workshop_await Workshop.queue (fun _ _ => rfl) e j (some id)
  have hknown := isSome_await e j (some id)
  rw [await_eq_withWorkshops] at hwaiters hqueue hknown ⊢
  refine hk.withWorkshops _ (hk.queued_eq.trans (funext fun k => ?_))
    (hk.waiters_eq ▸ hwaiters.symm)
    (fun f hf => (hknown f).trans hf) (fun f => hqueue f ▸ hk.inOrder f) (fun k id' hid' => ?_)
  · rw [queued, queued, hqueue]
  · rw [update_apply, hk.waiters_eq] at hid'
    split at hid'
    · rcases Ledger.mem_adjoin.mp hid' with h | rfl
      · exact hk.connected_of_waiter h
      · exact hid
    · exact hk.connected_of_waiter hid'

end Engine

end JobBroker
