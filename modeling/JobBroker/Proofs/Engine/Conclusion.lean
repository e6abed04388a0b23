import JobBroker.Proofs.Engine.Action

/-!
# What ends a job

A job ends when its worker reports that the work is over, when it is removed, when another broker
has done it while it was queued here, when its record is lost, or when its worker disconnects and
the policy is that the job has failed then.

* `Concludes` : an action is such an event, by what it finds and how it is answered.
* `InOrder.concludes_iff` : these events, and no others, take a handle from the live ones.
-/

namespace JobBroker

open Function (update)
open Ledger (Move)

/-- Some jobs end by such an action, if it finds any. -/
def Action.mayEnd {σ : Type} : Action σ → Bool
  | .finish .. | .remove _ | .hear _ | .grab _ | .disconnect _ => true
  | _ => false

namespace Engine

variable {σ : Type} [JobStore σ] {e e' : Engine σ} {handle : String}

/-- An action ends the job with a handle. -/
inductive Concludes (e : Engine σ) (handle : String) : Action σ → Prop
  /-- The report that the work is over is accepted. -/
  | finished {o : Outcome} {j : Job} : (e.finish handle o).1 = .ok j →
    Concludes e handle (.finish handle o)
  | removed : (e.remove handle).1 = .ok true → Concludes e handle (.remove handle)
  /-- Another broker has done the job, which is queued here. -/
  | settled {event : PeerEvent} {live : LiveJob} : event.kind = .workComplete →
    e.live.find? ⟨event.functionName, event.uniqueId⟩ = some live → live.job.state = .queued →
    live.job.handle = handle → Concludes e handle (.hear event)
  /-- The job is next for a worker, and its record is not found. -/
  | lost {id : SessionId} : handle ∈ e.lost (e.abilities id) → Concludes e handle (.grab id)
  /-- The session that works on the job disconnects, and the job has failed then. -/
  | abandoned {id : SessionId} : e.settings.disconnectPolicy = .fail → handle ∈ e.assigned id →
    Concludes e handle (.disconnect id)

theorem Concludes.mayEnd {a : Action σ} (h : e.Concludes handle a) : a.mayEnd := by
  cases h <;> rfl

theorem Cause.ends {a : Action σ} {live : LiveJob} {reply : Bool → Body}
    (h : e.Cause a (.close live reply)) : Ends e live a reply := by
  cases h with
  | close h => exact h

omit [JobStore σ] in
theorem Ends.mayEnd {a : Action σ} {live : LiveJob} {reply : Bool → Body}
    (h : Ends e live a reply) : a.mayEnd := by
  cases h <;> rfl

/-! ### What leaves the live jobs -/

omit [JobStore σ] in
/-- A job that is closed takes its handle from the live ones, and no other handle. -/
theorem InOrder.gone_iff_of_close (he : e.InOrder) {live : LiveJob} {reply : Bool → Body}
    (hlive : e.ledger.jobs live.job.key = some live)
    (hk : e'.Keeps (e.ledger.after (.close live reply))) :
    e.live.keyOf? handle ≠ none ∧ e'.live.keyOf? handle = none ↔ handle = live.job.handle := by
  have hkey : e.live.keyOf? live.job.handle = some live.job.key := he.consistent.keys_handle hlive
  have hkeys : e'.live.keyOf? = update e.live.keyOf? live.job.handle none := hk.keys_eq.symm
  rw [hkeys]
  by_cases hh : handle = live.job.handle
  · simp [hh, hkey]
  · simp [hh]

omit [JobStore σ] in
theorem Undisturbed.not_gone (h : Undisturbed e e') :
    ¬ (e.live.keyOf? handle ≠ none ∧ e'.live.keyOf? handle = none) := by
  rw [h.live]
  exact fun h => h.1 h.2

theorem InOrder.gone_finish_iff (he : e.InOrder) (handle' : String) (o : Outcome) :
    e.live.keyOf? handle ≠ none ∧ (e.finish handle' o).2.live.keyOf? handle = none ↔
      handle = handle' ∧ ∃ j, (e.finish handle' o).1 = .ok j := by
  cases hj : e.jobInState handle' .working with
  | error err =>
    have hanswer : ∀ j, (e.finish handle' o).1 ≠ .ok j := by
      rcases finish_of_error hj o with h | ⟨k, -, h⟩ <;> simp [h]
    have hsame := undisturbed_finish (fun live h => nomatch hj.symm.trans h) o
    exact iff_of_false hsame.not_gone fun ⟨_, j, h⟩ => hanswer j h
  | ok live =>
    obtain ⟨hlive, rfl, -⟩ := (he.keeps.jobInState_eq_ok_iff he.consistent).mp hj
    obtain ⟨hanswer, hk⟩ := he.keeps.finish he.consistent hj o
    rw [he.gone_iff_of_close hlive hk]
    exact (and_iff_left ⟨_, hanswer⟩).symm

theorem InOrder.gone_remove_iff (he : e.InOrder) (handle' : String) :
    e.live.keyOf? handle ≠ none ∧ (e.remove handle').2.live.keyOf? handle = none ↔
      handle = handle' ∧ (e.remove handle').1 = .ok true := by
  cases hj : e.jobInState handle' .queued with
  | error err =>
    have hremove : e.remove handle' = (.error err, e) := by simp only [remove, hj]
    rw [hremove]
    exact iff_of_false (Undisturbed.refl e).not_gone (by simp)
  | ok live =>
    obtain ⟨hlive, rfl, -⟩ := (he.keeps.jobInState_eq_ok_iff he.consistent).mp hj
    obtain ⟨hanswer, hk⟩ := he.keeps.remove he.consistent hj
    rw [he.gone_iff_of_close hlive hk]
    exact (and_iff_left hanswer).symm

/-- The result of another broker ends a job that is queued here. -/
theorem InOrder.hear_of_queued (he : e.InOrder) {event : PeerEvent} {live : LiveJob}
    (hkind : event.kind = .workComplete)
    (hlive : e.live.find? ⟨event.functionName, event.uniqueId⟩ = some live)
    (hstate : live.job.state = .queued) : e.hear event = e.settle live event.data := by
  obtain ⟨w, hw⟩ := Option.isSome_iff_exists.mp (he.keeps.known hlive)
  simp [hear, hw, hkind, hlive, hstate]

theorem InOrder.gone_hear_iff (he : e.InOrder) (event : PeerEvent) :
    e.live.keyOf? handle ≠ none ∧ (e.hear event).live.keyOf? handle = none ↔
      event.kind = .workComplete ∧
        ∃ live, e.live.find? ⟨event.functionName, event.uniqueId⟩ = some live ∧
          live.job.state = .queued ∧ live.job.handle = handle := by
  constructor
  · intro hgone
    rcases hear_cases he event with h | ⟨live, hkind, hlive, hw, hkey, hk, -⟩
    · exact absurd hgone h.not_gone
    · have hh := (he.gone_iff_of_close hlive hk).mp hgone
      exact ⟨hkind, live, hkey ▸ hlive, (he.consistent.queued_iff hlive).mpr hw, hh.symm⟩
  · rintro ⟨hkind, live, hlive, hstate, rfl⟩
    have hjob : e.ledger.jobs ⟨event.functionName, event.uniqueId⟩ = some live := hlive
    have hw := (he.consistent.queued_iff hjob).mp hstate
    have hkey := he.consistent.key_eq hjob
    rw [← hkey] at hjob
    have hf : (e.workshop? live.job.functionName).isSome := he.keeps.known hjob
    rw [he.hear_of_queued hkind hlive hstate]
    exact (he.gone_iff_of_close hjob
      (he.keeps.settle he.consistent hjob hw hf event.data)).mpr rfl

theorem InOrder.gone_nextJob_iff (he : e.InOrder) {id : SessionId} (hid : id ∈ e.connected) :
    e.live.keyOf? handle ≠ none ∧ (e.nextJob id).2.live.keyOf? handle = none ↔
      handle ∈ e.lost (e.abilities id) := by
  obtain ⟨ms, l', -, hk, -, hlost⟩ := he.keeps.takeFrom (e.abilities id) he.consistent hid
  have hkeys : l'.keys = (e.nextJob id).2.live.keyOf? := hk.keys_eq
  rw [hlost, hkeys]
  rfl

/-- A job on which a session has worked that disconnects is queued again or has ended, and other
jobs stay. -/
theorem InOrder.find?_disconnect (he : e.InOrder) (hroom : e.handles.last < e.handles.last + 1)
    (id : SessionId) (k : JobKey) :
    (e.disconnect id).live.find? k = e.live.find? k ∧
        (∀ live, e.live.find? k = some live → live.worker ≠ some id) ∨
      ∃ live, e.live.find? k = some live ∧ live.worker = some id ∧
        (e.settings.disconnectPolicy = .requeue ∧
            (e.disconnect id).live.find? k = some ⟨live.job.renewed, none⟩ ∨
          e.settings.disconnectPolicy = .fail ∧ (e.disconnect id).live.find? k = none) := by
  obtain ⟨ms, ⟨rest, rfl, hrest⟩, hp, he'⟩ := he.act (a := .disconnect id) trivial hroom
  cases hp with
  | cons _ hp =>
    have hcases : (e.disconnect id).live.find? k = e.live.find? k ∨ ∃ live,
        e.live.find? k = some live ∧ live.worker = some id ∧ _ := jobs_of_givenUp hp hrest k
    rcases hcases with hsame | hworked
    · refine .inl ⟨hsame, fun live hlive hw => ?_⟩
      -- a job on which it still worked would be among those it works on
      have hheld : live.job.handle ∈ (e.disconnect id).assigned id :=
        he'.consistent.assigned_iff.mpr ⟨k, live, hsame.trans hlive, rfl, hw⟩
      have hgone : id ∉ (e.disconnect id).connected := by simp [connected_disconnect]
      have hidle : (e.disconnect id).assigned id = [] := he'.keeps.idle id hgone
      exact absurd (hidle ▸ hheld) List.not_mem_nil
    · exact .inr hworked

/-- The handle of a job that was live and is not any more leads nowhere. -/
theorem InOrder.keyOf?_of_dead {a : Action σ} (he : e.InOrder) (ha : e.Legal a)
    (hroom : e.handles.last < e.handles.last + 1) {k : JobKey} {live : LiveJob}
    (hlive : e.live.find? k = some live) (hdead : (e.act a).live.find? k = none) :
    (e.act a).live.keyOf? live.job.handle = none := by
  obtain ⟨ms, -, hp, he'⟩ := he.act ha hroom
  rcases Ledger.keys_eq_or_spent (he.consistent.keys_handle hlive) he.consistent hp with
    hkept | hspent
  · obtain ⟨live', hlive', -⟩ := he'.consistent.jobs_of_keys hkept
    exact absurd (hlive'.symm.trans hdead) (by simp)
  · exact hspent.2

/-- The jobs of a session that disconnects end when the policy is that they fail. -/
theorem InOrder.gone_disconnect_iff (he : e.InOrder)
    (hroom : e.handles.last < e.handles.last + 1) (id : SessionId) :
    e.live.keyOf? handle ≠ none ∧ (e.disconnect id).live.keyOf? handle = none ↔
      e.settings.disconnectPolicy = .fail ∧ handle ∈ e.assigned id := by
  obtain ⟨-, -, -, he'⟩ := he.act (a := .disconnect id) trivial hroom
  constructor
  · rintro ⟨hne, hgone⟩
    obtain ⟨k, hkey⟩ := Option.ne_none_iff_exists'.mp hne
    obtain ⟨live, hlive, rfl⟩ := he.consistent.jobs_of_keys hkey
    have hnot : ∀ live', (e.disconnect id).live.find? k = some live' →
        live'.job.handle ≠ live.job.handle := by
      intro live' hlive' hh
      have hkept : (e.disconnect id).live.keyOf? live'.job.handle = some k :=
        he'.consistent.keys_handle hlive'
      exact absurd ((hh ▸ hkept).symm.trans hgone) (by simp)
    rcases he.find?_disconnect hroom id k with ⟨hsame, -⟩ | ⟨live', hlive', hw, hend⟩
    · exact (hnot live (hsame.trans hlive) rfl).elim
    · obtain rfl := Option.some.inj (hlive.symm.trans hlive')
      rcases hend with ⟨-, hback⟩ | ⟨hpolicy, -⟩
      · exact (hnot _ hback rfl).elim
      · exact ⟨hpolicy, (he.consistent.mem_assigned hlive).mpr hw⟩
  · rintro ⟨hpolicy, hassigned⟩
    obtain ⟨k, live, hlive, rfl, hw⟩ := he.consistent.assigned_iff.mp hassigned
    have hkey : e.live.keyOf? live.job.handle = some k := he.consistent.keys_handle hlive
    refine ⟨by simp [hkey], he.keyOf?_of_dead (a := .disconnect id) trivial hroom hlive ?_⟩
    rcases he.find?_disconnect hroom id k with
      ⟨-, hfree⟩ | ⟨_, -, -, ⟨hrequeue, -⟩ | ⟨-, hdead⟩⟩
    · exact absurd hw (hfree live hlive)
    · exact absurd (hrequeue.symm.trans hpolicy) (by decide)
    · exact hdead

/-- An action that ends no job takes no handle from the live ones. -/
theorem InOrder.not_gone_of_not_mayEnd {a : Action σ} (he : e.InOrder) (ha : e.Legal a)
    (hroom : e.handles.last < e.handles.last + 1) (hends : ¬ a.mayEnd) :
    ¬ (e.live.keyOf? handle ≠ none ∧ (e.act a).live.keyOf? handle = none) := by
  rintro ⟨hlive, hgone⟩
  obtain ⟨ms, hms, hp, -⟩ := he.act ha hroom
  obtain ⟨live, reply, hm⟩ := hp.exists_close he.consistent hlive hgone
  exact hends (hms.cause hm).ends.mayEnd

/-- A handle leaves the live ones when its job ends, and only then. -/
theorem InOrder.concludes_iff {a : Action σ} (he : e.InOrder) (ha : e.Legal a)
    (hroom : e.handles.last < e.handles.last + 1) :
    e.Concludes handle a ↔
      e.live.keyOf? handle ≠ none ∧ (e.act a).live.keyOf? handle = none := by
  cases a with
  | finish handle' o =>
    refine Iff.trans ⟨?_, ?_⟩ (he.gone_finish_iff handle' o).symm
    · intro h
      cases h with
      | finished hj => exact ⟨rfl, _, hj⟩
    · rintro ⟨rfl, j, hj⟩
      exact .finished hj
  | remove handle' =>
    refine Iff.trans ⟨?_, ?_⟩ (he.gone_remove_iff handle').symm
    · intro h
      cases h with
      | removed hremoved => exact ⟨rfl, hremoved⟩
    · rintro ⟨rfl, hremoved⟩
      exact .removed hremoved
  | hear event =>
    refine Iff.trans ⟨?_, ?_⟩ (he.gone_hear_iff event).symm
    · intro h
      cases h with
      | settled hkind hlive hstate hh => exact ⟨hkind, _, hlive, hstate, hh⟩
    · rintro ⟨hkind, live, hlive, hstate, hh⟩
      exact .settled hkind hlive hstate hh
  | grab id =>
    refine Iff.trans ⟨?_, .lost⟩ (he.gone_nextJob_iff ha).symm
    intro h
    cases h with
    | lost h => exact h
  | disconnect id =>
    refine Iff.trans ⟨?_, ?_⟩ (he.gone_disconnect_iff hroom id).symm
    · intro h
      cases h with
      | abandoned hpolicy hh => exact ⟨hpolicy, hh⟩
    · exact fun ⟨hpolicy, hh⟩ => .abandoned hpolicy hh
  | _ =>
    have hends : ¬ (false : Bool) := Bool.false_ne_true
    exact iff_of_false (fun h => hends h.mayEnd) (he.not_gone_of_not_mayEnd ha hroom hends)

/-- A job that has ended has had its handle, and its handle leads nowhere. -/
theorem Concludes.spent {a : Action σ} (h : e.Concludes handle a) (he : e.InOrder)
    (ha : e.Legal a) (hroom : e.handles.last < e.handles.last + 1) :
    (e.act a).ledger.Spent handle := by
  obtain ⟨hne, hgone⟩ := (he.concludes_iff ha hroom).mp h
  obtain ⟨ms, -, hp, -⟩ := he.act ha hroom
  obtain ⟨k, hkey⟩ := Option.ne_none_iff_exists'.mp hne
  obtain ⟨live, hlive, rfl⟩ := he.consistent.jobs_of_keys hkey
  exact ⟨(he.consistent.issued hlive).path hp, hgone⟩

end Engine

end JobBroker
