import JobBroker.Proofs.Engine.Core
import JobBroker.Proofs.Engine.Watch

/-!
# What actions do to the watch

What comes into a queue is followed by the alarm of its function, and all else only takes jobs out
of queues, or is about one session.

* `turns_act` : an action makes some turns, unless it sets the clock or a session learns something.
-/

namespace JobBroker.Engine

open Relation (ReflTransGen)

variable {σ : Type} {e : Engine σ}

/-! ### What is no matter of the watch -/

@[simp] theorem watch_connect (e : Engine σ) (id : SessionId) : (e.connect id).watch = e.watch := by
  unfold connect
  split <;> rfl

@[simp] theorem watch_identify (e : Engine σ) (j : Job) : (e.identify j).2.watch = e.watch := by
  unfold identify
  split <;> rfl

theorem watch_dropLost (e : Engine σ) (k : JobKey) : (e.dropLost k).watch = e.watch := by
  unfold dropLost
  split
  · rfl
  · exact watch_dismiss _ k _

theorem watch_assignSession (e : Engine σ) (id : SessionId) (handle : String) :
    (e.modifySession id (·.assign handle)).watch = e.watch := by
  refine watch_modifySession_of_eq e id (fun s => ?_) fun s => ?_ <;>
  · unfold Session.assign
    split <;> rfl

theorem watch_assign (e : Engine σ) (k : JobKey) (record : Job) (id : SessionId) :
    (e.assign k record id).2.watch = e.watch :=
  watch_assignSession _ id _

theorem watch_reportProgress (e : Engine σ) (handle : String) (n d : UInt32) :
    (e.reportProgress handle n d).2.watch = e.watch := by
  unfold reportProgress
  split
  · rfl
  · exact watch_send _ _ _

theorem watch_reportData (e : Engine σ) (handle : String) (data : Bytes) :
    (e.reportData handle data).2.watch = e.watch := by
  unfold reportData
  split
  · rfl
  · exact (watch_send _ _ _).trans (watch_publish e _)

theorem watch_reportWarning (e : Engine σ) (handle : String) (data : Bytes) :
    (e.reportWarning handle data).2.watch = e.watch := by
  unfold reportWarning
  split
  · rfl
  · exact watch_send _ _ _

theorem watch_releaseWorker (e : Engine σ) (worker : Option SessionId) (handle : String) :
    (match worker with
      | some id => if id ∈ e.connected then e.modifySession id (·.release handle) else e
      | none => e).watch = e.watch := by
  split
  · split
    · exact watch_modifySession_of_eq e _ (fun _ => rfl) fun _ => rfl
    · rfl
  · rfl

variable [JobStore σ]

theorem watch_finish (e : Engine σ) (handle : String) (o : Outcome) :
    (e.finish handle o).2.watch = e.watch := by
  unfold finish
  split
  · rfl
  · next k _ =>
    dsimp only
    split
    · exact watch_establish e _
    · next live _ =>
      have hended : ∀ (e₁ : Engine σ) (packet : Session → Packet), e₁.watch = e.watch →
          ({ e₁.dismiss k packet with
            store := (JobStore.delete k (e₁.dismiss k packet).store).2 } : Engine σ).watch =
              e.watch :=
        fun e₁ packet h => (watch_dismiss e₁ k packet).trans h
      have hreleased := hended _ (o.packet handle) ((watch_releaseWorker
        { e.establish k.functionName with live := (e.establish k.functionName).live.erase k }
          live.worker handle).trans (watch_establish e k.functionName))
      cases o with
      | complete data => exact (watch_publish _ _).trans hreleased
      | _ => exact hreleased

/-! ### What comes into a queue, and what is taken out -/

omit [JobStore σ] in
theorem turn_wakeCrew (e : Engine σ) (f : String) : e.watch.Turn (e.wakeCrew f).watch := by
  have hsame : e.watch.setQueue f (e.watch.queues f) = e.watch := by
    simp [Watch.setQueue]
  have hturn : e.watch.Turn ((e.watch.setQueue f (e.watch.queues f)).alarm f) := .supply id
  rwa [hsame, ← watch_wakeCrew] at hturn

omit [JobStore σ] in
theorem turn_withdraw {f : String} (hf : (e.workshop? f).isSome) {q : Queue}
    (hq : q.Within (e.workshop f).queue) : e.watch.Turn (e.setQueue f q).watch := by
  rw [watch_setQueue hf]
  exact .withdraw hq

omit [JobStore σ] in
theorem turn_setMaxQueue (e : Engine σ) (f : String) (size : Nat) :
    e.watch.Turn (e.setMaxQueue f size).watch := by
  have hadjust := watch_modifyQueue (isSome_establish e f) fun q => { q with maxSize := size }
  rw [setMaxQueue, hadjust, watch_establish]
  exact .withdraw (by rw [workshop_establish]; exact .withMaxSize _ size)

omit [JobStore σ] in
theorem turns_requeue (e : Engine σ) (handle : String) :
    ReflTransGen Watch.Turn e.watch (e.requeue handle).watch := by
  unfold requeue
  split
  · exact .refl
  · next k _ =>
    dsimp only
    split
    · rw [watch_establish]
    · next live _ =>
      obtain ⟨e₁, he₁⟩ : ∃ e₁, ({ e.establish k.functionName with
        live := (e.establish k.functionName).live.modify k fun l => ⟨l.job.renewed, none⟩ } :
          Engine σ) = e₁ := ⟨_, rfl⟩
      have hf : (e₁.workshop? k.functionName).isSome := he₁ ▸ isSome_establish e k.functionName
      have hwatch : e₁.watch = e.watch := he₁ ▸ watch_establish e k.functionName
      rw [he₁, ← hwatch, watch_wakeCrew, watch_setQueue hf]
      exact .single (.supply fun h => h.reinstate _)

theorem turns_abandonAll (handles : List String) (e : Engine σ) :
    ReflTransGen Watch.Turn e.watch (handles.foldl abandon e).watch := by
  induction handles generalizing e with
  | nil => exact .refl
  | cons handle handles ih =>
    refine .trans ?_ (ih (e.abandon handle))
    unfold abandon
    split
    · exact turns_requeue e handle
    · rw [watch_finish]

theorem turns_disconnect (e : Engine σ) (id : SessionId) :
    ReflTransGen Watch.Turn e.watch (e.disconnect id).watch := by
  have hleave : e.watch.Turn (e.watch.forget id fun _ => True) := .forget
  rw [← watch_depart e id] at hleave
  exact .head hleave (turns_abandonAll _ _)

/-- A job that is in the queue is taken out of it; without one the queue stays. -/
theorem turns_removeKey {k : JobKey} {removed : Bool} {q : Queue} {store : σ}
    (h : (e.workshop k.functionName).queue.remove k e.store = (removed, q, store)) :
    ReflTransGen Watch.Turn e.watch (e.setQueue k.functionName q).watch := by
  cases removed with
  | false =>
    obtain ⟨rfl, rfl⟩ := Queue.remove_eq_false h
    rw [watch_setQueue_self]
  | true =>
    obtain ⟨-, j, hj⟩ := Queue.yields_remove h
    exact .single (turn_withdraw (isSome_workshop?_of_find? hj.find?) (.remove h))

theorem turns_remove (e : Engine σ) (handle : String) :
    ReflTransGen Watch.Turn e.watch (e.remove handle).2.watch := by
  unfold remove
  split
  · exact .refl
  · next live _ =>
    rw [← watch_establish e live.job.key.functionName]
    dsimp only
    rcases hremove : ((e.establish live.job.key.functionName).workshop
      live.job.key.functionName).queue.remove live.job.key
        (e.establish live.job.key.functionName).store with ⟨removed, q, store⟩
    have hturns := turns_removeKey hremove
    dsimp only
    split
    · exact (watch_dismiss _ _ _).symm ▸ hturns
    · exact hturns

theorem turns_settle (e : Engine σ) (live : LiveJob) (data : Bytes) :
    ReflTransGen Watch.Turn e.watch (e.settle live data).watch := by
  rcases hremove : (e.workshop live.job.key.functionName).queue.remove live.job.key e.store with
    ⟨removed, q, store⟩
  have hturns := turns_removeKey hremove
  simp only [settle, hremove, watch_dismiss]
  split <;> exact hturns

theorem turns_hear (e : Engine σ) (event : PeerEvent) :
    ReflTransGen Watch.Turn e.watch (e.hear event).watch := by
  unfold hear
  dsimp only
  split
  · exact .refl
  · exact .single (turn_wakeCrew e _)
  · exact .refl
  · exact (watch_send _ _ _).symm ▸ .refl
  · split
    · exact .refl
    · exact turns_settle e _ _

theorem turns_takeFrom (id : SessionId) (fs : List String) (e : Engine σ) :
    ReflTransGen Watch.Turn e.watch (e.takeFrom id fs).2.watch := by
  induction fs generalizing e with
  | nil => exact .refl
  | cons f fs ih =>
    unfold takeFrom
    split
    · exact ih e
    · next w hw =>
      obtain rfl : e.workshop f = w := by rw [workshop, hw, Option.getD_some]
      have hf := Option.isSome_iff_exists.mpr ⟨_, hw⟩
      split
      · next q hq => exact .head (turn_withdraw hf (.takeNext hq)) (ih _)
      · next j q hq =>
        have hturn := turn_withdraw hf (.takeNext hq)
        split
        · next store _ =>
          have hlost := watch_dropLost { e.setQueue f q with store } j.key
          exact .head (hlost ▸ hturn) (ih _)
        · next record store _ =>
          have hassigned := watch_assign { e.setQueue f q with store } j.key record id
          exact .single (hassigned ▸ hturn)

theorem turns_letIn {j : Job} (hf : (e.workshop? j.functionName).isSome)
    (client : Option SessionId) : ReflTransGen Watch.Turn e.watch (e.letIn j client).2.watch := by
  obtain ⟨j₁, hj₁⟩ : ∃ j₁, ({ j.renewed with handle := e.handles.next.1 } : Job) = j₁ := ⟨_, rfl⟩
  have hf : (e.workshop? j₁.functionName).isSome := hj₁ ▸ hf
  rcases Queue.enqueue_cases (e.workshop j₁.functionName).queue j₁ e.store with
    ⟨store, henqueue, hnew, -⟩ | ⟨answer, store, henqueue, hanswer, -⟩
  · have hturn : e.watch.Turn ((e.watch.setQueue j₁.functionName
        ((e.workshop j₁.functionName).queue.accept j₁.summary)).alarm j₁.functionName) :=
      .supply fun h => h.accept hnew
    rw [← watch_setQueue hf] at hturn
    subst hj₁
    simp only [letIn, henqueue, watch_publish, watch_wakeCrew, watch_await]
    exact .single hturn
  · have hsame := watch_setQueue_self e j₁.functionName
    subst hj₁
    simp only [letIn, henqueue]
    rcases answer with err | _ | _
    · exact hsame.symm ▸ .refl
    · exact hsame.symm ▸ .refl
    · exact absurd rfl hanswer

theorem turns_submit (e : Engine σ) (j : Job) (client : Option SessionId) :
    ReflTransGen Watch.Turn e.watch (e.submit j client).2.watch := by
  rcases hi : e.identify j with ⟨j₁, e₁⟩
  have hwatch : (e₁.establish j₁.functionName).watch = e.watch := by
    rw [watch_establish, ← watch_identify e j, hi]
  simp only [submit, hi]
  split
  · rw [watch_await, hwatch]
  · exact hwatch ▸ turns_letIn (isSome_establish e₁ _) client

/-! ### Actions -/

/-- What a session learns to do is all that an action does to the watch besides turns, while the
clock stands. -/
theorem turns_act {a : Action σ} (hroll : ∀ i ∈ e.watch.roll, i < e.watch.roll.length)
    (hclock : ∀ now, a = .setClock now → now = e.now)
    (hlearn : ∀ id f timeout, a ≠ .canDo id f timeout) :
    ReflTransGen Watch.Turn e.watch (e.act a).watch := by
  have hsame : ∀ {e' : Engine σ}, e'.watch = e.watch →
      ReflTransGen Watch.Turn e.watch e'.watch := fun h => h ▸ .refl
  cases a with
  | arrive peer => exact .single (watch_newSession hroll peer ▸ .arrive)
  | connect id => exact hsame (watch_connect e id)
  | disconnect id => exact turns_disconnect e id
  | setClientId id clientId =>
    exact hsame (watch_modifySession_of_eq e id (fun _ => rfl) fun _ => rfl)
  | wantExceptions id wants =>
    exact hsame (watch_modifySession_of_eq e id (fun _ => rfl) fun _ => rfl)
  | canDo id f timeout => exact absurd rfl (hlearn id f timeout)
  | cantDo id f => exact .single (watch_removeAbility e id f ▸ .forget)
  | resetAbilities id => exact .single (watch_resetAbilities e id ▸ .forget)
  | sleep id =>
    cases hid : e.session? id with
    | none => exact hsame (sleep_of_none hid)
    | some s =>
      have hsleep := watch_sleep e (Option.isSome_iff_exists.mpr ⟨s, hid⟩)
      split at hsleep
      · exact .single (hsleep ▸ .rouse)
      · next hready =>
        refine .single (hsleep ▸ .doze fun f hf => ?_)
        simp only [List.any_eq_true, not_exists, not_and, Bool.not_eq_true] at hready
        exact hready f hf
  | wake id => exact .single (watch_wake e id ▸ .rouse)
  | grab id => exact turns_takeFrom id (e.abilities id) e
  | submit j client => exact turns_submit e j client
  | finish handle o => exact hsame (watch_finish e handle o)
  | progress handle n d => exact hsame (watch_reportProgress e handle n d)
  | data handle data => exact hsame (watch_reportData e handle data)
  | warning handle data => exact hsame (watch_reportWarning e handle data)
  | remove handle => exact turns_remove e handle
  | setMaxQueue f size => exact .single (turn_setMaxQueue e f size)
  | hear event => exact turns_hear e event
  | setClock now => exact hsame (by obtain rfl := hclock now rfl; rfl)
  | elapse seconds => exact hsame rfl
  | alterStore change => exact hsame rfl

end JobBroker.Engine
