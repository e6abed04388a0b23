import JobBroker.Proofs.Ledger.Basic

/-!
# The ledger over time

A `Path` is a list of moves each of which fits the ledger that those before it have left.

* `Spent.path` : a handle that has been given up stays given up.
* `Held.path` : a worker keeps a job until it is queued again or ends.
* `Path.plain_cases` : while moves only hand out, queue again, advance and close, a live job either
  stays live and its waiters hear nothing of an end, or it ends and each of them hears of it once.
-/

namespace JobBroker.Ledger

open Function (update update_apply)

/-- Moves made one after the other. -/
inductive Path : Ledger → List Move → Ledger → Prop
  | nil (l : Ledger) : Path l [] l
  | cons {l l' : Ledger} {m : Move} {ms : List Move} :
    m.Fits l → Path (l.after m) ms l' → Path l (m :: ms) l'

variable {l l' : Ledger} {m : Move} {ms : List Move} {h : String} {id : SessionId} {k : JobKey}

theorem Path.single (hm : m.Fits l) : l.Path [m] (l.after m) := .cons hm (.nil _)

theorem Path.eq_after (hp : l.Path [m] l') : l' = l.after m := by
  cases hp with
  | cons _ hp =>
    cases hp
    rfl

theorem Path.append {l'' : Ledger} {ms' : List Move} (hp : l.Path ms l') (hp' : l'.Path ms' l'') :
    l.Path (ms ++ ms') l'' := by
  induction hp with
  | nil => exact hp'
  | cons hm _ ih => exact .cons hm (ih hp')

theorem Path.consistent (hp : l.Path ms l') (hl : l.Consistent) : l'.Consistent := by
  induction hp with
  | nil => exact hl
  | cons hm _ ih => exact ih (hl.after hm)

/-- A move that uses up a handle. -/
def Move.issues : Move → Bool
  | .waste | .letIn _ => true
  | _ => false

/-- The number of the last handle counts the handles that are used up. -/
theorem Path.last_eq (hp : l.Path ms l') :
    l'.last.toNat = l.last.toNat + ms.countP Move.issues := by
  induction hp with
  | nil => rfl
  | @cons l _ m _ hm _ ih =>
    have hstep : (l.after m).last.toNat = l.last.toNat + if m.issues then 1 else 0 := by
      have hnext : l.last < l.last + 1 → (l.last + 1).toNat = l.last.toNat + 1 := by
        intro h
        have hlt := UInt64.lt_iff_toNat_lt.mp h
        have := l.last.toNat_lt
        rw [UInt64.toNat_add] at hlt ⊢
        simp only [UInt64.toNat_one] at hlt ⊢
        omega
      cases m with
      | waste => exact hnext hm
      | letIn j => exact hnext hm.2.2.2
      | _ => rfl
    rw [ih, hstep, List.countP_cons]
    omega

/-! ### The life of a handle -/

theorem Spent.after (hs : l.Spent h) (hm : m.Fits l) : (l.after m).Spent h := by
  refine ⟨hs.1.after hm, ?_⟩
  cases m with
  | letIn j =>
    have hj : h ≠ j.handle := by
      rintro rfl
      exact hm.not_issued hs.1
    simp [Ledger.after, hj, hs.2]
  | close live reply =>
    simp only [Ledger.after, update_apply]
    split
    · rfl
    · exact hs.2
  | _ => exact hs.2

theorem Spent.path (hs : l.Spent h) (hp : l.Path ms l') : l'.Spent h := by
  induction hp with
  | nil => exact hs
  | cons hm _ ih => exact ih (hs.after hm)

/-- The job that a close ends is the one with its handle. -/
theorem Consistent.eq_of_close (hl : l.Consistent) {live live' : LiveJob} {reply : Bool → Body}
    (hm : (Move.close live reply).Fits l) (hk : l.jobs k = some live') :
    live'.job.handle = live.job.handle ↔ k = live.job.key := by
  constructor
  · exact hl.key_inj hk hm.1
  · rintro rfl
    rw [Option.some.inj (hk.symm.trans hm.1)]

theorem Consistent.spent_of_close (hl : l.Consistent) {live : LiveJob} {reply : Bool → Body}
    (hm : (Move.close live reply).Fits l) : (l.after (.close live reply)).Spent live.job.handle :=
  ⟨(hl.issued hm.1).after hm, by simp [Ledger.after]⟩

/-- A worker keeps a job through a move, unless the move ends the job or takes it from the
worker. -/
theorem Held.after (hh : l.Held h id) (hl : l.Consistent) (hm : m.Fits l) :
    (l.after m).Held h id ∨ (l.after m).Spent h ∨ ∃ j, m = .requeue j id := by
  obtain ⟨k, live, hk, rfl, hw⟩ := hh
  have hkey : ∀ {j : Job} {w : Option SessionId}, l.jobs j.key = some ⟨j, w⟩ → k = j.key →
      w = some id := by
    intro j w hj he
    subst he
    rw [← hw, Option.some.inj (hk.symm.trans hj)]
  cases m with
  | letIn j =>
    have : k ≠ j.key := fun he => by simp_all [Move.Fits]
    exact .inl ⟨k, live, by simp [Ledger.after, this, hk], rfl, hw⟩
  | hand j id' =>
    have : k ≠ j.key := fun he => absurd (hkey hm he) (by simp)
    exact .inl ⟨k, live, by simp [Ledger.after, this, hk], rfl, hw⟩
  | requeue j id' =>
    by_cases he : k = j.key
    · obtain rfl := Option.some.inj (hkey hm he)
      exact .inr (.inr ⟨j, rfl⟩)
    · exact .inl ⟨k, live, by simp [Ledger.after, he, hk], rfl, hw⟩
  | advance j id' n d =>
    by_cases he : k = j.key
    · obtain rfl := Option.some.inj (hkey hm he)
      subst he
      obtain rfl := Option.some.inj (hk.symm.trans hm)
      exact .inl ⟨j.key, ⟨{ j with numerator := n, denominator := d }, some id'⟩,
        by simp [Ledger.after], rfl, rfl⟩
    · exact .inl ⟨k, live, by simp [Ledger.after, he, hk], rfl, hw⟩
  | close live' reply =>
    by_cases he : k = live'.job.key
    · rw [(hl.eq_of_close hm hk).mpr he]
      exact .inr (.inl (hl.spent_of_close hm))
    · exact .inl ⟨k, live, by simp [Ledger.after, he, hk], rfl, hw⟩
  | _ => exact .inl ⟨k, live, hk, rfl, hw⟩

theorem Held.path (hh : l.Held h id) (hl : l.Consistent) (hp : l.Path ms l') :
    l'.Held h id ∨ l'.Spent h ∨ ∃ j, .requeue j id ∈ ms := by
  induction hp with
  | nil => exact .inl hh
  | cons hm hp ih =>
    rcases hh.after hl hm with hh | hs | ⟨j, rfl⟩
    · rcases ih hh (hl.after hm) with hh | hs | ⟨j, hj⟩
      · exact .inl hh
      · exact .inr (.inl hs)
      · exact .inr (.inr ⟨j, List.mem_cons_of_mem _ hj⟩)
    · exact .inr (.inl (hs.path hp))
    · exact .inr (.inr ⟨j, List.mem_cons_self⟩)

theorem Issued.path (hi : l.Issued h) (hp : l.Path ms l') : l'.Issued h := by
  induction hp with
  | nil => exact hi
  | cons hm _ ih => exact ih (hi.after hm)

/-- A live job keeps its key as long as it is live. -/
theorem keys_eq_or_spent (hk : l.keys h = some k) (hl : l.Consistent) (hp : l.Path ms l') :
    l'.keys h = some k ∨ l'.Spent h := by
  induction hp with
  | nil => exact .inl hk
  | @cons l _ m _ hm hp ih =>
    have hkept : (l.after m).keys h = some k ∨ (l.after m).Spent h := by
      cases m with
      | letIn j => exact .inl (by simp [Ledger.after, (hl.ne_of_letIn hm hk).1, hk])
      | close live reply =>
        by_cases he : h = live.job.handle
        · exact .inr (he ▸ hl.spent_of_close hm)
        · exact .inl (by simp [Ledger.after, he, hk])
      | _ => exact .inl hk
    rcases hkept with hk | hs
    · exact ih hk (hl.after hm)
    · exact .inr (hs.path hp)

/-- While no job is closed, live handles stay live and nobody is told of an end. -/
theorem Path.of_not_close (hp : l.Path ms l') (hl : l.Consistent)
    (hms : ∀ live reply, .close live reply ∉ ms) :
    (∀ h k, l.keys h = some k → l'.keys h = some k) ∧ l'.notices = l.notices := by
  induction hp with
  | nil => exact ⟨fun _ _ => id, rfl⟩
  | @cons l _ m ms hm _ ih =>
    obtain ⟨hkeys, hnotices⟩ := ih (hl.after hm) fun live reply hmem =>
      hms live reply (List.mem_cons_of_mem _ hmem)
    cases m with
    | close live reply => exact absurd List.mem_cons_self (hms live reply)
    | letIn j =>
      refine ⟨fun h k hk => hkeys h k ?_, hnotices⟩
      simp [Ledger.after, (hl.ne_of_letIn hm hk).1, hk]
    | _ => exact ⟨hkeys, hnotices⟩

/-- A live handle that is not live any more is that of a job that was closed. -/
theorem Path.exists_close (hp : l.Path ms l') (hl : l.Consistent) (hk : l.keys h ≠ none)
    (hgone : l'.keys h = none) : ∃ live reply, .close live reply ∈ ms := by
  by_contra hnot
  obtain ⟨k, hkey⟩ := Option.ne_none_iff_exists'.mp hk
  have hkept := (hp.of_not_close hl fun live reply hm => hnot ⟨live, reply, hm⟩).1 h k hkey
  exact absurd (hkept.symm.trans hgone) (by simp)

/-- Whoever is handed a job works on it, until it is queued again or ends. -/
theorem Path.held_of_hand {j : Job} (hp : l.Path ms l') (hl : l.Consistent)
    (hj : .hand j id ∈ ms) :
    l'.Held j.handle id ∨ l'.Spent j.handle ∨ ∃ j', .requeue j' id ∈ ms := by
  induction hp with
  | nil => exact absurd hj (by simp)
  | @cons l _ m _ hm hp ih =>
    rcases List.mem_cons.mp hj with rfl | hj
    · have hh : (l.after (.hand j id)).Held j.handle id :=
        ⟨j.key, _, Function.update_self .., rfl, rfl⟩
      rcases hh.path (hl.after hm) hp with hh | hs | ⟨j', hj'⟩
      · exact .inl hh
      · exact .inr (.inl hs)
      · exact .inr (.inr ⟨j', List.mem_cons_of_mem _ hj'⟩)
    · rcases ih (hl.after hm) hj with hh | hs | ⟨j', hj'⟩
      · exact .inl hh
      · exact .inr (.inl hs)
      · exact .inr (.inr ⟨j', List.mem_cons_of_mem _ hj'⟩)

/-- A job that has ended is not handed out. -/
theorem Spent.not_hand {j : Job} (hs : l.Spent h) (hl : l.Consistent) (hp : l.Path ms l')
    (hj : .hand j id ∈ ms) : j.handle ≠ h := by
  induction hp with
  | nil => exact absurd hj (by simp)
  | cons hm _ ih =>
    rcases List.mem_cons.mp hj with rfl | hj
    · rintro rfl
      exact absurd ((hl.keys_handle hm).symm.trans hs.2) (by simp)
    · exact ih (hs.after hm) (hl.after hm) hj

/-- A job that somebody works on is handed out only after it is queued again. -/
theorem Held.requeue_of_hand {j : Job} {id' : SessionId} (hh : l.Held h id) (hl : l.Consistent)
    (hp : l.Path ms l') (hj : .hand j id' ∈ ms) (hjh : j.handle = h) :
    ∃ j', .requeue j' id ∈ ms := by
  induction hp with
  | nil => exact absurd hj (by simp)
  | @cons l _ m _ hm hp ih =>
    rcases List.mem_cons.mp hj with rfl | hj
    · obtain ⟨k, live, hk, hlh, hw⟩ := hh
      obtain rfl := hl.key_inj hk hm (hlh.trans hjh.symm)
      rw [show l.jobs j.key = some ⟨j, none⟩ from hm] at hk
      exact absurd (Option.some.inj hk ▸ hw) (by simp)
    · rcases hh.after hl hm with hh | hs | ⟨j', rfl⟩
      · obtain ⟨j', hj'⟩ := ih hh (hl.after hm) hj
        exact ⟨j', List.mem_cons_of_mem _ hj'⟩
      · exact absurd hjh (hs.not_hand (hl.after hm) hp hj)
      · exact ⟨j', List.mem_cons_self⟩

/-- A session that works on a job by the end has worked on it before, or was handed it. -/
theorem Path.mem_assigned (hp : l.Path ms l') (hm : h ∈ l'.assigned id) :
    h ∈ l.assigned id ∨ ∃ j, .hand j id ∈ ms := by
  induction hp with
  | nil => exact .inl hm
  | @cons l _ m ms _ _ ih =>
    rcases ih hm with hm | ⟨j, hj⟩
    · cases m with
      | hand j id' =>
        by_cases hid : id = id'
        · exact .inr ⟨j, hid ▸ List.mem_cons_self⟩
        · exact .inl (by simpa [Ledger.after, hid] using hm)
      | requeue | close => exact .inl (mem_unassign.mp hm).1
      | _ => exact .inl hm
    · exact .inr ⟨j, List.mem_cons_of_mem _ hj⟩

/-! ### Waiting for an end -/

/-- The packets that have told a session the end of the job with a handle. -/
def noticesOf (l : Ledger) (handle : String) (id : SessionId) : List Packet :=
  (l.notices id).filter (·.ends? = some handle)

/-- The moves that let no job in and change neither who waits nor what they want. -/
def Move.Plain : Move → Prop
  | .hand .. | .requeue .. | .advance .. | .close .. => True
  | .waste | .letIn _ | .join .. | .leave _ | .ask .. => False

theorem noticesOf_close {live : LiveJob} {reply : Bool → Body}
    (hm : (Move.close live reply).Fits l) (h : String) (id : SessionId) :
    (l.after (.close live reply)).noticesOf h id = l.noticesOf h id ++
      if live.job.handle = h ∧ id ∈ l.waiters live.job.key then [.response (reply (l.wants id))]
      else [] := by
  have hends : (Packet.response (reply (l.wants id))).ends? = some live.job.handle := hm.2 _
  simp only [noticesOf, Ledger.after, List.filter_append]
  by_cases hw : id ∈ l.waiters live.job.key <;> by_cases hh : live.job.handle = h <;>
    simp [hw, hh, hends]

/-- Nobody is told the end of a job that is not live. -/
theorem noticesOf_after_of_keys_none (hl : l.Consistent) (hm : m.Fits l) (hk : l.keys h = none)
    (id : SessionId) : (l.after m).noticesOf h id = l.noticesOf h id := by
  cases m with
  | close live reply =>
    have hne : live.job.handle ≠ h := by
      rintro rfl
      exact absurd ((hl.keys_handle hm.1).symm.trans hk) (by simp)
    simp [noticesOf_close hm, hne]
  | _ => rfl

theorem Spent.noticesOf_path (hs : l.Spent h) (hl : l.Consistent) (hp : l.Path ms l')
    (id : SessionId) : l'.noticesOf h id = l.noticesOf h id := by
  induction hp with
  | nil => rfl
  | cons hm _ ih =>
    rw [ih (hs.after hm) (hl.after hm), noticesOf_after_of_keys_none hl hm hs.2]

/-- A plain move closes the job with a handle, or does nothing that its waiters notice; if it is a
close, it closes another job. -/
theorem Move.Plain.cases (hplain : m.Plain) (hl : l.Consistent) (hm : m.Fits l)
    (hk : l.keys h = some k) :
    (∃ live reply, m = .close live reply ∧ live.job.handle = h ∧ live.job.key = k) ∨
      ((l.after m).keys h = some k ∧ (l.after m).waiters k = l.waiters k ∧
        (l.after m).wants = l.wants ∧
        (∀ id, (l.after m).noticesOf h id = l.noticesOf h id) ∧
        ((l.after m).jobs k = l.jobs k ∨ ∀ live reply, m ≠ .close live reply)) := by
  obtain ⟨live', hlive', hh⟩ := hl.jobs_of_keys hk
  cases m with
  | close live reply =>
    by_cases he : live.job.handle = h
    · have := (hl.eq_of_close hm hlive').mp (hh.trans he.symm)
      exact .inl ⟨live, reply, rfl, he, this.symm⟩
    · have hkey : k ≠ live.job.key := fun hkk =>
        he (((hl.eq_of_close hm hlive').mpr hkk).symm.trans hh)
      exact .inr ⟨by simp [Ledger.after, Ne.symm he, hk], by simp [Ledger.after, hkey], rfl,
        fun id => by simp [noticesOf_close hm, he], .inl (by simp [Ledger.after, hkey])⟩
  | hand | requeue | advance => exact .inr ⟨hk, rfl, rfl, fun _ => rfl, .inr (by simp)⟩
  | waste | letIn | join | leave | ask => exact hplain.elim

theorem Path.waiters_nil (hp : l.Path ms l') (hplain : ∀ m ∈ ms, m.Plain)
    (hw : l.waiters k = []) : l'.waiters k = [] := by
  induction hp with
  | nil => exact hw
  | @cons l _ m _ hm _ ih =>
    refine ih (fun m hm => hplain m (List.mem_cons_of_mem _ hm)) ?_
    have hplain := hplain m List.mem_cons_self
    cases m with
    | close live reply =>
      simp only [Ledger.after, update_apply]
      split
      · rfl
      · exact hw
    | hand | requeue | advance => exact hw
    | waste | letIn | join | leave | ask => exact hplain.elim

/-- Through plain moves a live job stays live and nobody hears of its end, or it ends and exactly
those who have waited for it hear of that, once. Unless other moves than closes come before, the job
that ends is the one that was live. -/
theorem Path.plain_cases (hp : l.Path ms l') (hl : l.Consistent) (hplain : ∀ m ∈ ms, m.Plain)
    (hk : l.keys h = some k) :
    (l'.keys h = some k ∧ l'.waiters k = l.waiters k ∧
        ∀ id, l'.noticesOf h id = l.noticesOf h id) ∨
      (l'.Spent h ∧ l'.waiters k = [] ∧
        ∃ before live reply later, ms = before ++ .close live reply :: later ∧
          live.job.handle = h ∧
          (l.jobs k = some live ∨ ∃ m ∈ before, ∀ live reply, m ≠ .close live reply) ∧
          ∀ id, l'.noticesOf h id = l.noticesOf h id ++
            if id ∈ l.waiters k then [.response (reply (l.wants id))] else []) := by
  induction hp with
  | nil => exact .inl ⟨hk, rfl, fun _ => rfl⟩
  | @cons l l' m ms hm hp ih =>
    have hrest : ∀ m ∈ ms, m.Plain := fun m hm => hplain m (List.mem_cons_of_mem _ hm)
    rcases (hplain m List.mem_cons_self).cases hl hm hk with
      ⟨live, reply, rfl, rfl, rfl⟩ | ⟨hk', hw, hwants, hnotices, hjobs⟩
    · have hspent := hl.spent_of_close hm
      refine .inr ⟨hspent.path hp, hp.waiters_nil hrest (by simp [Ledger.after]), [], live, reply,
        ms, rfl, rfl, .inl hm.1, fun id => ?_⟩
      rw [hspent.noticesOf_path (hl.after hm) hp, noticesOf_close hm]
      simp
    · rcases ih (hl.after hm) hrest hk' with
        ⟨h₁, h₂, h₃⟩ | ⟨h₁, h₂, before, live, reply, later, rfl, h₄, h₅, h₆⟩
      · exact .inl ⟨h₁, h₂.trans hw, fun id => (h₃ id).trans (hnotices id)⟩
      · refine .inr ⟨h₁, h₂, m :: before, live, reply, later, rfl, h₄, ?_, fun id => ?_⟩
        · rcases h₅ with h₅ | ⟨m', hm', h₅⟩
          · rcases hjobs with hjobs | hjobs
            · exact .inl (hjobs ▸ h₅)
            · exact .inr ⟨m, List.mem_cons_self, hjobs⟩
          · exact .inr ⟨m', List.mem_cons_of_mem _ hm', h₅⟩
        · rw [h₆, hnotices, hw, hwants]

/-- Plain moves make no handle live, and tell nobody the end of a job that is not. -/
theorem Path.plain_of_keys_none (hp : l.Path ms l') (hl : l.Consistent)
    (hplain : ∀ m ∈ ms, m.Plain) (hk : l.keys h = none) :
    l'.keys h = none ∧ ∀ id, l'.noticesOf h id = l.noticesOf h id := by
  induction hp with
  | nil => exact ⟨hk, fun _ => rfl⟩
  | @cons l _ m _ hm _ ih =>
    have hkeys : (l.after m).keys h = none := by
      have hplain := hplain m List.mem_cons_self
      cases m with
      | close live reply =>
        simp only [Ledger.after, update_apply]
        split
        · rfl
        · exact hk
      | hand | requeue | advance => exact hk
      | waste | letIn | join | leave | ask => exact hplain.elim
    obtain ⟨h₁, h₂⟩ := ih (hl.after hm) (fun m hm => hplain m (List.mem_cons_of_mem _ hm)) hkeys
    exact ⟨h₁, fun id => (h₂ id).trans (noticesOf_after_of_keys_none hl hm hk id)⟩

end JobBroker.Ledger
