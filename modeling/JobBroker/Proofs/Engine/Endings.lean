import JobBroker.Proofs.Engine.Waiting

/-!
# Ends of jobs

However a job ends, the engine goes from a ledger to the ledger after the move `close`, with a
packet of its own: `Keeps.finish`, `Keeps.remove`, `Keeps.settle`, `Keeps.dropLost`.
-/

namespace JobBroker

open Function (update update_apply)
open Ledger (Move Path)

/-- What a waiter is told of an outcome, by whether it wants to be told of exceptions. -/
def Outcome.reply (o : Outcome) (handle : String) (wants : Bool) : Body :=
  match o with
  | complete data => .workComplete handle data
  | fail => .workFail handle
  | exception data => if wants then .workException handle data else .workFail handle

theorem Outcome.packet_eq (o : Outcome) (handle : String) (s : Session) :
    o.packet handle s = .response (o.reply handle s.wantsExceptions) := by
  unfold packet reply
  cases o with
  | exception data => dsimp only; split <;> rfl
  | _ => rfl

theorem Outcome.ends?_reply (o : Outcome) (handle : String) (wants : Bool) :
    (o.reply handle wants).ends? = some handle := by
  unfold reply
  cases o with
  | exception data => dsimp only; split <;> rfl
  | _ => rfl

namespace Engine

variable {σ : Type} {e : Engine σ} {l : Ledger}

/-- Which job is found by its handle in some state. -/
theorem Keeps.jobInState_eq_ok_iff (hk : e.Keeps l) (hl : l.Consistent) {handle : String}
    {state : JobState} {live : LiveJob} :
    e.jobInState handle state = .ok live ↔
      l.jobs live.job.key = some live ∧ live.job.handle = handle ∧ live.job.state = state := by
  have hfind : e.live.ofHandle? handle = l.keys handle >>= l.jobs := by
    rw [LiveJobs.ofHandle?, hk.keys_eq, hk.jobs_eq]
  unfold jobInState
  rw [hfind]
  constructor
  · intro h
    split at h
    · exact absurd h (by simp)
    · next live' hlive =>
      obtain ⟨k, hkey, hlive⟩ := Option.bind_eq_some_iff.mp hlive
      split at h
      · next hstate =>
        obtain rfl := Except.ok.inj h
        obtain ⟨live, hlive', hh⟩ := hl.jobs_of_keys hkey
        obtain rfl := Option.some.inj (hlive.symm.trans hlive')
        obtain rfl := hl.key_eq hlive
        exact ⟨hlive, hh, hstate⟩
      · exact absurd h (by simp)
  · rintro ⟨hlive, rfl, rfl⟩
    rw [hl.keys_handle hlive, Option.bind_eq_bind, Option.bind_some, hlive]
    simp

/-- A job that has left the table of live jobs, its queue and its worker is closed when its waiters
hear of that. -/
theorem Keeps.close (hl : l.Consistent) {live : LiveJob} {reply : Bool → Body}
    (hk : e.Keeps { l with
      jobs := update l.jobs live.job.key none
      keys := update l.keys live.job.handle none
      queued := update l.queued live.job.key none
      assigned := l.unassign live.job.handle })
    (hf : (e.workshop? live.job.functionName).isSome)
    (hreply : ∀ wants, (reply wants).ends? = some live.job.handle) {packet : Session → Packet}
    (hpacket : ∀ s, packet s = .response (reply s.wantsExceptions)) :
    Keeps (e.dismiss live.job.key packet) (l.after (.close live reply)) :=
  hk.dismiss hf (hl.nodup_waiters _) (fun wants => by rw [hreply]; rfl) hpacket

/-- A queued job that has left its queue is closed when it leaves the table of live jobs and its
waiters hear of that. -/
theorem Keeps.closeQueued (hl : l.Consistent) {live : LiveJob}
    (hk : e.Keeps { l with queued := update l.queued live.job.key none })
    (hlive : l.jobs live.job.key = some live) (hw : live.worker = none)
    (hf : (e.workshop? live.job.functionName).isSome) {reply : Bool → Body}
    (hreply : ∀ wants, (reply wants).ends? = some live.job.handle) {packet : Session → Packet}
    (hpacket : ∀ s, packet s = .response (reply s.wantsExceptions)) :
    Keeps ({ e with live := e.live.erase live.job.key }.dismiss live.job.key packet)
      (l.after (.close live reply)) := by
  have hfree : ∀ id, live.job.handle ∉ l.assigned id := fun id hm =>
    absurd ((hl.mem_assigned hlive).mp hm) (by simp [hw])
  exact .close hl ((hk.eraseLive hlive).unassign fun id _ => hfree id) hf hreply hpacket

/-- What is in the queue of a function is a live job that nobody works on. -/
theorem Keeps.live_of_queued (hk : e.Keeps l) (hl : l.Consistent) {k : JobKey} {q : QueuedJob}
    (h : e.queued k = some q) :
    ∃ live, l.jobs k = some live ∧ live.worker = none ∧ live.job.summary = q ∧
      live.job.key = k := by
  rw [← hk.queued_eq, hl.queued_eq] at h
  obtain ⟨live, hlive, hq⟩ := Option.bind_eq_some_iff.mp h
  split at hq
  · exact absurd hq (by simp)
  · next hw => exact ⟨live, hlive, by simpa using hw, Option.some.inj hq, hl.key_eq hlive⟩

/-- A job that has left its queue and whose record is lost is closed. -/
theorem Keeps.dropLost (hl : l.Consistent) {live : LiveJob}
    (hk : e.Keeps { l with queued := update l.queued live.job.key none })
    (hlive : l.jobs live.job.key = some live) (hw : live.worker = none)
    (hf : (e.workshop? live.job.functionName).isSome) :
    (e.dropLost live.job.key).Keeps
      (l.after (.close live fun _ => .workFail live.job.handle)) := by
  have hfind : e.live.find? live.job.key = some live := hk.jobs_eq ▸ hlive
  simp only [Engine.dropLost, hfind]
  exact .closeQueued hl hk hlive hw hf (fun _ => rfl) fun _ => rfl

/-! ### Ends that the store is told of -/

variable [JobStore σ]

/-- Work that is not under way cannot end. The function of the job was known before. -/
theorem finish_of_error {handle : String} {err : JobError}
    (h : e.jobInState handle .working = .error err) (o : Outcome) :
    e.finish handle o = (.error err, e) ∨ ∃ k, e.live.keyOf? handle = some k ∧
      e.finish handle o = (.error err, e.establish k.functionName) := by
  cases hk : e.live.keyOf? handle with
  | none =>
    have hnone : e.jobInState handle .working = .error (.jobNotFound handle) := by
      simp [jobInState, LiveJobs.ofHandle?, hk]
    obtain rfl := Except.error.inj (h.symm.trans hnone)
    exact .inl (by simp only [finish, hk])
  | some k =>
    refine .inr ⟨k, rfl, ?_⟩
    simp only [finish, hk, jobInState_establish, h]

/-- Work that is over closes the job. -/
theorem Keeps.finish (hk : e.Keeps l) (hl : l.Consistent) {handle : String} {live : LiveJob}
    (h : e.jobInState handle .working = .ok live) (o : Outcome) :
    (e.finish handle o).1 = .ok { live.job with state := o.state } ∧
      (e.finish handle o).2.Keeps (l.after (.close live (o.reply handle))) := by
  obtain ⟨hlive, rfl, hstate⟩ := (hk.jobInState_eq_ok_iff hl).mp h
  have hkey : e.live.keyOf? live.job.handle = some live.job.key :=
    hk.keys_eq ▸ hl.keys_handle hlive
  obtain ⟨id, hw⟩ := (hl.working_iff hlive).mp hstate
  have hqueued : l.queued live.job.key = none := by simp [hl.queued_of_worker hlive, hw]
  have hk : e.Keeps { l with queued := update l.queued live.job.key none } := by
    rw [Function.update_eq_self_iff.mpr hqueued.symm]
    exact hk
  have herased := (hk.quiet (.establish e live.job.functionName)).eraseLive hlive
  have hheld : ∀ id' ∈ e.connected, live.job.handle ∈ l.assigned id' → id' = id :=
    fun id' _ hm => Option.some.inj (((hl.mem_assigned hlive).mp hm).symm.trans hw)
  have hf := isSome_establish e live.job.functionName
  obtain ⟨e₁, he₁⟩ : ∃ e₁, ({ e.establish live.job.functionName with
    live := (e.establish live.job.functionName).live.erase live.job.key } : Engine σ) = e₁ :=
    ⟨_, rfl⟩
  have hconnected : e₁.connected = e.connected := he₁ ▸ rfl
  rw [he₁] at herased
  -- the worker is released if it is connected; a session that is not holds no handle
  have hreleased : Keeps (if id ∈ e₁.connected then e₁.modifySession id (·.release live.job.handle)
      else e₁) { l with
        jobs := update l.jobs live.job.key none
        keys := update l.keys live.job.handle none
        queued := update l.queued live.job.key none
        assigned := l.unassign live.job.handle } := by
    split
    · next hid => exact herased.release hid (hconnected ▸ hheld)
    · next hid =>
      exact herased.unassign fun id' hid' hm => hid (hheld id' (hconnected ▸ hid') hm ▸ hid')
  have hf : ((if id ∈ e₁.connected then e₁.modifySession id (·.release live.job.handle)
      else e₁).workshop? live.job.functionName).isSome := by
    subst he₁
    split <;> exact hf
  have hclosed := Keeps.close hl hreleased hf (o.ends?_reply _) (o.packet_eq _)
  simp only [Engine.finish, hkey, jobInState_establish, h, hw]
  subst he₁
  cases o with
  | complete data => exact ⟨rfl, (hclosed.withStore _).quiet (.publish _ _)⟩
  | _ => exact ⟨rfl, hclosed.withStore _⟩

/-- A report about a handle that nobody works on changes nothing. -/
theorem undisturbed_finish {handle : String} (h : ∀ live, e.jobInState handle .working ≠ .ok live)
    (o : Outcome) : Undisturbed e (e.finish handle o).2 := by
  unfold Engine.finish
  split
  · exact .refl e
  · next k _ =>
    simp only [jobInState_establish]
    split
    · exact .establish e _
    · next live hlive => exact absurd hlive (h live)

/-- A queued job is found in its queue and taken out of it, whether or not the store can delete its
record. -/
theorem Keeps.removeQueued (hk : e.Keeps l) (hl : l.Consistent) {live : LiveJob}
    (hlive : l.jobs live.job.key = some live) (hw : live.worker = none)
    (hf : (e.workshop? live.job.functionName).isSome) :
    ∃ q store, (e.workshop live.job.functionName).queue.remove live.job.key e.store =
        (true, q, store) ∧
      Keeps { e.setQueue live.job.functionName q with store }
        { l with queued := update l.queued live.job.key none } := by
  have hfind : (e.workshop live.job.functionName).queue.find? live.job.uniqueId =
      some live.job.summary := by
    have : e.queued live.job.key = some live.job.summary := by
      rw [← hk.queued_eq, hl.queued_of_worker hlive, hw]
      rfl
    exact this
  refine ⟨_, _, ?_, (hk.setQueue hf (Queue.take_inOrder (hk.inOrder _) hfind)
    fun v => Queue.find?_without _ _ v _ _).withStore (JobStore.delete live.job.key e.store).2⟩
  simp [Queue.remove, Job.key, Queue.take_of_find? hfind]

/-- A job that is removed is closed, and its waiters are told that it has failed. -/
theorem Keeps.remove (hk : e.Keeps l) (hl : l.Consistent) {handle : String} {live : LiveJob}
    (h : e.jobInState handle .queued = .ok live) :
    (e.remove handle).1 = .ok true ∧
      (e.remove handle).2.Keeps (l.after (.close live fun _ => .workFail handle)) := by
  obtain ⟨hlive, rfl, hstate⟩ := (hk.jobInState_eq_ok_iff hl).mp h
  have hw := (hl.queued_iff hlive).mp hstate
  have hf := isSome_establish e live.job.functionName
  obtain ⟨q, store, hremove, hk⟩ :=
    (hk.quiet (.establish e live.job.functionName)).removeQueued hl hlive hw hf
  have hremoved : ((e.establish live.job.key.functionName).workshop
      live.job.key.functionName).queue.remove live.job.key
        (e.establish live.job.key.functionName).store = (true, q, store) := hremove
  simp only [Engine.remove, h, hremoved, if_true, true_and]
  exact .closeQueued hl hk hlive hw ((isSome_modifyWorkshop ..).trans hf) (fun _ => rfl)
    fun _ => rfl

/-- The result of another broker's worker closes a queued job. -/
theorem Keeps.settle (hk : e.Keeps l) (hl : l.Consistent) {live : LiveJob}
    (hlive : l.jobs live.job.key = some live) (hw : live.worker = none)
    (hf : (e.workshop? live.job.functionName).isSome) (data : Bytes) :
    (e.settle live data).Keeps
      (l.after (.close live fun _ => .workComplete live.job.handle data)) := by
  obtain ⟨q, store, hremove, hk⟩ := hk.removeQueued hl hlive hw hf
  have hremoved : (e.workshop live.job.key.functionName).queue.remove live.job.key e.store =
      (true, q, store) := hremove
  simp only [Engine.settle, hremoved, if_true]
  exact .closeQueued hl hk hlive hw ((isSome_modifyWorkshop ..).trans hf) (fun _ => rfl)
    fun _ => rfl

end Engine

end JobBroker
