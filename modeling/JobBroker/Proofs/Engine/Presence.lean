import JobBroker.Proofs.Engine.Books

/-!
# Sessions come and go

What an engine keeps when a session arrives, connects, leaves the wait lists and crews, and is
forgotten.
-/

namespace JobBroker

open Function (update update_apply)

namespace Engine

variable {σ : Type} {e e' : Engine σ} {l : Ledger}

theorem Keeps.newSession (hk : e.Keeps l) (peer : String) : Keeps (e.newSession peer).2 l := by
  have hnone : e.session? e.sessions.size = none := by
    cases hs : e.session? e.sessions.size with
    | none => rfl
    | some s => exact absurd (hk.lt_size (Option.isSome_iff_exists.mpr ⟨s, hs⟩)) (Nat.lt_irrefl _)
  have hsession : ∀ id, (e.newSession peer).2.session? id =
      if e.sessions.size = id then some (.new peer) else e.session? id := fun id =>
    Table.get?_insert _ _ _ _
  have hview : ∀ {α : Type} (view : Session → α) (id : SessionId),
      ((((e.newSession peer).2.session? id).map view).getD (view (.new peer))) =
        ((e.session? id).map view).getD (view (.new peer)) := by
    intro _ view id
    rw [hsession]
    split
    · next h =>
      subst h
      rw [hnone]
      rfl
    · rfl
  have hassigned : (e.newSession peer).2.assigned = e.assigned := funext (hview Session.assigned)
  have hsize : (e.newSession peer).2.sessions.size = e.sessions.size + 1 :=
    Table.size_insert_of_get?_eq_none hnone _
  have hcases : ∀ {id s}, (e.newSession peer).2.session? id = some s →
      id = e.sessions.size ∧ s = .new peer ∨ e.session? id = some s := by
    intro id s h
    rw [hsession] at h
    split at h
    · next he => exact .inl ⟨he.symm, (Option.some.inj h).symm⟩
    · exact .inr h
  exact { hk with
    assigned_eq := fun id hid => hassigned ▸ hk.assigned_eq id hid
    wants_eq := hk.wants_eq.trans (funext (hview Session.wantsExceptions)).symm
    notices_eq := hk.notices_eq.trans (funext (hview Session.notices)).symm
    idle := fun id hid => hassigned ▸ hk.idle id hid
    lt_size := by
      intro id hid
      obtain ⟨s, hs⟩ := Option.isSome_iff_exists.mp hid
      rw [hsize]
      rcases hcases hs with ⟨rfl, -⟩ | hs
      · exact Nat.lt_succ_self _
      · exact Nat.lt_succ_of_lt (hk.lt_size (Option.isSome_iff_exists.mpr ⟨s, hs⟩))
    listens := by
      intro id b hb
      obtain ⟨s, hs, rfl⟩ := Option.map_eq_some_iff.mp hb
      rcases hcases hs with ⟨-, rfl⟩ | hs
      · rfl
      · exact hk.listens (Option.map_eq_some_iff.mpr ⟨s, hs, rfl⟩)
    isSome_of_connected := by
      intro _ hid
      rw [hsession]
      split
      · rfl
      · exact hk.isSome_of_connected hid }

theorem Keeps.connect (hk : e.Keeps l) {id : SessionId} (hid : (e.session? id).isSome)
    (hl : id ∉ e.connected → l.assigned id = []) : Keeps (e.connect id) l := by
  unfold Engine.connect
  split
  · exact hk
  · next hnew =>
    exact { hk with
      assigned_eq := by
        intro id' hid'
        rcases List.mem_append.mp hid' with h | h
        · exact hk.assigned_eq id' h
        · obtain rfl := List.mem_singleton.mp h
          exact (hl hnew).trans (hk.idle id' hnew).symm
      idle := fun id' hid' => hk.idle id' fun h => hid' (List.mem_append_left _ h)
      isSome_of_connected := by
        intro id' hid'
        rcases List.mem_append.mp hid' with h | h
        · exact hk.isSome_of_connected h
        · exact List.mem_singleton.mp h ▸ hid
      connected_of_waiter := fun h => List.mem_append_left _ (hk.connected_of_waiter h) }

/-- Takes a session out of the crews and the wait lists of all functions. -/
theorem Keeps.leaveWorkshops (hk : e.Keeps l) (id : SessionId) :
    Keeps { e with workshops := e.workshops.filterMap fun w : Workshop => some (w.leave id) }
      (l.after (.leave id)) := by
  have hworkshop : ∀ f, workshop
      { e with workshops := e.workshops.filterMap fun w : Workshop => some (w.leave id) } f =
      ((e.workshop? f).map (·.leave id)).getD (.new f e.settings.maxQueueSize) := by
    intro f
    rw [workshop, workshop?, Table.get?_filterMap]
    exact congrArg (Option.getD · _) (Option.map_eq_bind ..).symm
  have hqueue : ∀ f, (workshop
      { e with workshops := e.workshops.filterMap fun w : Workshop => some (w.leave id) } f).queue =
      (e.workshop f).queue := by
    intro f
    rw [hworkshop, workshop]
    cases e.workshop? f <;> rfl
  refine hk.withWorkshops _ (hk.queued_eq.trans (funext fun k => ?_)) (funext fun k => ?_)
    (fun f hf => ?_) (fun f => hqueue f ▸ hk.inOrder f) (fun k id' hid' => ?_)
  · rw [queued, queued, hqueue]
  · rw [hk.waiters_eq, waiters, waiters, hworkshop, workshop]
    cases e.workshop? k.functionName with
    | none => rfl
    | some w => exact (WaitLists.waiters_removeSession _ _ _).symm
  · rw [workshop?, Table.get?_filterMap]
    obtain ⟨w, hw⟩ := Option.isSome_iff_exists.mp hf
    rw [show e.workshops.get? f = some w from hw]
    rfl
  · exact hk.connected_of_waiter (hk.waiters_eq ▸ (List.mem_filter.mp hid').1)

/-- Disconnects a session that waits for nothing. What it works on stays in the ledger. -/
theorem Keeps.disconnectIdle (hk : e.Keeps l) (id : SessionId) (hid : ∀ k, id ∉ l.waiters k) :
    Keeps (modifySession { e with connected := e.connected.filter (· ≠ id) } id
      fun s => { s.clearAbilities with assigned := [] }) l := by
  generalize he' : modifySession { e with connected := e.connected.filter (· ≠ id) } id
    (fun s => { s.clearAbilities with assigned := [] }) = e'
  have hconnected : e'.connected = e.connected.filter (· ≠ id) := he' ▸ rfl
  have hbook : ∀ id', e'.book? id' =
      (e.book? id').map fun b => if id = id' then { b with assigned := [] } else b :=
    he' ▸ book?_modifySession _ id _ fun _ => rfl
  have hsome : ∀ id', (e'.session? id').isSome = (e.session? id').isSome := by
    intro id'
    rw [← isSome_book?, hbook, Option.isSome_map, isSome_book?]
  have hview : ∀ {α : Type} (view : Session.Book → α) (x : α) (id' : SessionId),
      (∀ b : Session.Book, view { b with assigned := [] } = view b) →
      ((e'.book? id').map view).getD x = ((e.book? id').map view).getD x := by
    intro _ view x id' h
    rw [hbook, Option.map_map]
    refine congrArg (fun f => ((e.book? id').map f).getD x) (funext fun b => ?_)
    show view (if id = id' then _ else b) = view b
    split
    · exact h b
    · rfl
  have hassigned : ∀ id', e'.assigned id' = if id = id' then [] else e.assigned id' := by
    intro id'
    rw [assigned_of_book, hbook, assigned_of_book]
    split
    · cases e.book? id' <;> rfl
    · rw [Option.map_id']
  have hne : ∀ {id'}, id' ∈ e'.connected ↔ id' ∈ e.connected ∧ id' ≠ id := by
    intro id'
    rw [hconnected, List.mem_filter]
    simp
  have hlive : e'.live = e.live := he' ▸ rfl
  have hhandles : e'.handles = e.handles := he' ▸ rfl
  have hworkshop : e'.workshop = e.workshop := he' ▸ rfl
  have hknown : e'.workshop? = e.workshop? := he' ▸ rfl
  have hqueued : e'.queued = e.queued := he' ▸ rfl
  have hwaiters : e'.waiters = e.waiters := he' ▸ rfl
  have hsize : e'.sessions.size = e.sessions.size := he' ▸ Table.size_modify _ _ _
  exact {
    host_eq := hhandles ▸ hk.host_eq
    last_eq := hhandles ▸ hk.last_eq
    jobs_eq := hlive ▸ hk.jobs_eq
    keys_eq := hlive ▸ hk.keys_eq
    queued_eq := hqueued ▸ hk.queued_eq
    waiters_eq := hwaiters ▸ hk.waiters_eq
    assigned_eq := by
      intro id' hid'
      obtain ⟨hc, hi⟩ := hne.mp hid'
      rw [hassigned, if_neg (Ne.symm hi), hk.assigned_eq id' hc]
    wants_eq := hk.wants_eq.trans <| funext fun id' => by
      rw [wants_of_book, wants_of_book, hview _ _ _ fun _ => rfl]
    notices_eq := hk.notices_eq.trans <| funext fun id' => by
      rw [notices_of_book, notices_of_book, hview _ _ _ fun _ => rfl]
    inOrder := hworkshop ▸ hk.inOrder
    known := fun h => hknown ▸ hk.known (hlive ▸ h)
    idle := by
      intro id' hid'
      rw [hassigned]
      split
      · rfl
      · next hi => exact hk.idle id' fun hc => hid' (hne.mpr ⟨hc, Ne.symm hi⟩)
    lt_size := fun h => hsize ▸ hk.lt_size (hsome _ ▸ h)
    listens := by
      intro id' b hb
      rw [hbook] at hb
      obtain ⟨b₀, hb₀, rfl⟩ := Option.map_eq_some_iff.mp hb
      have := hk.listens hb₀
      split <;> exact this
    isSome_of_connected := fun h => hsome _ ▸ hk.isSome_of_connected (hne.mp h).1
    connected_of_waiter := by
      intro k id' h
      rw [hwaiters] at h
      exact hne.mpr ⟨hk.connected_of_waiter h, fun hi => hid k (hi ▸ hk.waiters_eq ▸ h)⟩ }

end Engine

end JobBroker
