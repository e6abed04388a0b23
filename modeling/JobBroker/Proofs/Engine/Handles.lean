import JobBroker.Proofs.Engine.Durability

/-!
# Handles

The numbers of the handles that an engine gives out only rise, whatever is done to it. So a handle
that its factory has passed, because it has given it out or has observed it, is not given out again
while the numbers do not run out.

* `passed_observe` : a factory has passed what it has observed, from whatever host it is.
* `ranOut_run` : while there is room for them no handle is asked for behind the largest number.
* `not_mem_issuedHandles` : a handle that was passed is never issued.
-/

namespace JobBroker

namespace HandleFactory

variable {f : HandleFactory} {handle : String}

/-- The handle is none of those that come next: if it is one of this host, its number is not above
the last. -/
def Passed (f : HandleFactory) (handle : String) : Prop :=
  ∀ n, handle = Handle.render f.host n → n ≤ f.last

@[simp] theorem host_observe (f : HandleFactory) (handle : String) :
    (f.observe handle).host = f.host := by
  unfold observe
  split
  · split <;> rfl
  · rfl

theorem last_le_observe (f : HandleFactory) (handle : String) :
    f.last ≤ (f.observe handle).last := by
  unfold observe
  split
  · split
    · next h => exact UInt64.le_of_lt h.2
    · exact UInt64.le_refl _
  · exact UInt64.le_refl _

theorem passed_observe (f : HandleFactory) (handle : String) :
    (f.observe handle).Passed handle := by
  intro n h
  rw [host_observe] at h
  simp only [observe, h, Handle.parse?_render, true_and]
  split
  · exact UInt64.le_refl _
  · next hlt => exact UInt64.not_lt.mp hlt

theorem Passed.observe (h : f.Passed handle) (handle' : String) :
    (f.observe handle').Passed handle := by
  intro n hn
  rw [host_observe] at hn
  exact UInt64.le_trans (h n hn) (last_le_observe f handle')

theorem last_next (hroom : f.last.toNat + 1 < UInt64.size) :
    f.next.2.last.toNat = f.last.toNat + 1 := by
  show (f.last + 1).toNat = _
  rw [UInt64.toNat_add, UInt64.toNat_one]
  exact Nat.mod_eq_of_lt hroom

theorem next_ne (f : HandleFactory) : f.next.2 ≠ f := fun h => by
  have hlast : f.last + 1 = f.last := congrArg last h
  simp at hlast

theorem Passed.next (h : f.Passed handle) (hroom : f.last.toNat + 1 < UInt64.size) :
    f.next.2.Passed handle := by
  intro n hn
  rw [UInt64.le_iff_toNat_le, last_next hroom]
  exact Nat.le_succ_of_le (h n hn)

theorem Passed.ne_next (h : f.Passed handle) (hroom : f.last.toNat + 1 < UInt64.size) :
    handle ≠ f.next.1 := by
  intro he
  have hle : (f.next.2.last).toNat ≤ f.last.toNat := UInt64.le_iff_toNat_le.mp (h _ he)
  rw [last_next hroom] at hle
  exact Nat.not_succ_le_self _ hle

/-- The factory after the handles of some jobs were observed. -/
def observeAll (f : HandleFactory) (js : List Job) : HandleFactory :=
  js.foldl (fun f j => f.observe j.handle) f

@[simp] theorem host_observeAll (f : HandleFactory) (js : List Job) :
    (f.observeAll js).host = f.host := by
  induction js generalizing f with
  | nil => rfl
  | cons j js ih => exact (ih _).trans (host_observe f j.handle)

theorem Passed.observeAll (h : f.Passed handle) (js : List Job) :
    (f.observeAll js).Passed handle := by
  induction js generalizing f with
  | nil => exact h
  | cons j js ih => exact ih (h.observe j.handle)

theorem passed_observeAll (f : HandleFactory) {js : List Job} {j : Job} (hj : j ∈ js) :
    (f.observeAll js).Passed j.handle := by
  induction js generalizing f with
  | nil => exact absurd hj List.not_mem_nil
  | cons i js ih =>
    rcases List.mem_cons.mp hj with rfl | hj
    · exact (passed_observe f j.handle).observeAll js
    · exact ih (f.observe i.handle) hj

/-- A factory goes no further than the highest of the numbers that it observes. -/
theorem last_observeAll_le {js : List Job} {n : UInt64} (hf : f.last ≤ n)
    (hjs : ∀ j ∈ js, ∀ host m, Handle.parse? j.handle = some (host, m) → m ≤ n) :
    (f.observeAll js).last ≤ n := by
  induction js generalizing f with
  | nil => exact hf
  | cons j js ih =>
    refine ih (f := f.observe j.handle) ?_ fun i hi => hjs i (List.mem_cons_of_mem j hi)
    unfold observe
    split
    · next host m hm =>
      split
      · exact hjs j List.mem_cons_self host m hm
      · exact hf
    · exact hf

end HandleFactory

namespace Engine

variable {σ : Type} [JobStore σ] {e : Engine σ}

/-- The handles that a run uses up, in their order. -/
def issuedHandles (e : Engine σ) : List (Action σ) → List String
  | [] => []
  | a :: as =>
    (if (e.act a).handles = e.handles then [] else [e.handles.next.1]) ++
      (e.act a).issuedHandles as

/-- How the first action of a run uses handles, while they do not run out. -/
theorem handles_cons {a : Action σ} {as : List (Action σ)}
    (h : e.handles.last.toNat + e.issued (a :: as) < UInt64.size) :
    (e.act a).handles.last.toNat + (e.act a).issued as =
        e.handles.last.toNat + e.issued (a :: as) ∧
      ((e.act a).handles = e.handles ∨ (e.act a).handles ≠ e.handles ∧
        (e.act a).handles = e.handles.next.2 ∧ e.handles.last.toNat + 1 < UInt64.size) := by
  have hissued : e.issued (a :: as) =
      (if (e.act a).handles = e.handles then 0 else 1) + (e.act a).issued as := rfl
  rw [hissued] at h ⊢
  by_cases hsame : (e.act a).handles = e.handles
  · rw [if_pos hsame, hsame, Nat.zero_add]
    exact ⟨rfl, .inl rfl⟩
  · have hnext := (handles_act e a).resolve_left hsame
    rw [if_neg hsame] at h ⊢
    have hroom : e.handles.last.toNat + 1 < UInt64.size := by omega
    have hlast := HandleFactory.last_next hroom
    exact ⟨by rw [hnext]; omega, .inr ⟨hsame, hnext, hroom⟩⟩

theorem last_run {as : List (Action σ)} (h : e.handles.last.toNat + e.issued as < UInt64.size) :
    (e.run as).handles.last.toNat = e.handles.last.toNat + e.issued as := by
  induction as generalizing e with
  | nil => rfl
  | cons a as ih =>
    obtain ⟨hcount, -⟩ := handles_cons h
    exact (ih (hcount ▸ h)).trans hcount

/-- A run that has room for its handles asks for none behind the largest number, so that its calls
return in a checked build too. -/
theorem ranOut_run {as : List (Action σ)} (h : e.handles.last.toNat + e.issued as < UInt64.size)
    (hranOut : e.handles.ranOut = false) : (e.run as).handles.ranOut = false := by
  induction as generalizing e with
  | nil => exact hranOut
  | cons a as ih =>
    obtain ⟨hcount, hsame | ⟨-, hnext, hroom⟩⟩ := handles_cons h
    · exact ih (hcount ▸ h) (hsame ▸ hranOut)
    · exact ih (hcount ▸ h) (hnext ▸ (HandleFactory.ranOut_next _).mpr ⟨hranOut, hroom⟩)

/-- A handle that was passed is not issued again while the handles do not run out. -/
theorem not_mem_issuedHandles {handle : String} (hp : e.handles.Passed handle)
    {as : List (Action σ)} (h : e.handles.last.toNat + e.issued as < UInt64.size) :
    handle ∉ e.issuedHandles as := by
  induction as generalizing e with
  | nil => exact List.not_mem_nil
  | cons a as ih =>
    obtain ⟨hcount, hsame | ⟨hnew, hnext, hroom⟩⟩ := handles_cons h
    · rw [issuedHandles, if_pos hsame, List.nil_append]
      exact ih (hsame ▸ hp) (hcount ▸ h)
    · rw [issuedHandles, if_neg hnew, List.singleton_append, List.mem_cons, not_or]
      exact ⟨hp.ne_next hroom, ih (hnext ▸ hp.next hroom) (hcount ▸ h)⟩

end Engine

/-! ### Handles of live jobs -/

namespace Core

open Relation (ReflTransGen)
open Function (update update_apply)

variable {σ : Type} [JobStore σ] [RecordStore σ] {c c' : Core σ}

/-- Live jobs have handles that were given out, each its own. -/
structure Numbered (c : Core σ) : Prop where
  issued : ∀ {k j}, c.live.held k = some j →
    ∃ n, n ≤ c.handles.last ∧ j.handle = Handle.render c.handles.host n
  key_inj : ∀ {k k' j j'}, c.live.held k = some j → c.live.held k' = some j' →
    j.handle = j'.handle → k = k'

/-- While no call goes wrong the live jobs change only by leaving. -/
theorem Shift.held_of_held (h : c.Shift c') (hc : c.Sound) (hn : ¬ RecordStore.hasErred c.store)
    {k : JobKey} {j : Job} (hj : c'.live.held k = some j) : c.live.held k = some j := by
  have herase : ∀ {k'}, (c.live.erase k').held k = some j → c.live.held k = some j := by
    intro k' hj
    rw [LiveJobs.held_erase, update_apply] at hj
    split at hj
    · exact absurd hj (by simp)
    · exact hj
  cases h with
  | adjust _ _ => exact hj
  | lose _ _ _ => exact herase hj
  | hand _ _ hlive =>
    rwa [LiveJobs.held_modify fun l hl => by rw [Option.some.inj (hlive.symm.trans hl)]; rfl] at hj
  | adopt hq hfind hlive =>
    -- the job would be on record without being live
    rw [hc.key_of_yields hq] at hfind
    have hrecord := RecordStore.record?_of_find hfind
    rw [hc.keeping.eq_of_not_hasErred hn, LiveJobs.held, hlive] at hrecord
    exact absurd hrecord (by simp)
  | requeue hlive => rwa [LiveJobs.held_modify] at hj; exact fun _ _ => rfl
  | advance => rwa [LiveJobs.held_modify] at hj; exact fun _ _ => rfl
  | finish _ _ => exact herase hj
  | remove _ => exact herase hj

theorem Numbered.shift (hc : c.Numbered) (hs : c.Sound) (hn : ¬ RecordStore.hasErred c.store)
    (h : c.Shift c') : c'.Numbered where
  issued := fun hj => h.handles_eq ▸ hc.issued (h.held_of_held hs hn hj)
  key_inj := fun hj hj' => hc.key_inj (h.held_of_held hs hn hj) (h.held_of_held hs hn hj')

theorem Numbered.shifts (hc : c.Numbered) (hs : c.Sound) (hn : ∀ s : σ, ¬ RecordStore.hasErred s)
    (h : ReflTransGen Shift c c') : c'.Numbered := by
  induction h with
  | refl => exact hc
  | tail hshifts hshift ih => exact ih.shift (hs.shifts hshifts) (hn _) hshift

omit [JobStore σ] [RecordStore σ] in
/-- The next handle is above those of the live jobs. -/
theorem Numbered.issued_next (hc : c.Numbered) (hroom : c.handles.last.toNat + 1 < UInt64.size)
    {k : JobKey} {j : Job} (hj : c.live.held k = some j) :
    ∃ n, n ≤ c.handles.next.2.last ∧ j.handle = Handle.render c.handles.host n ∧
      j.handle ≠ c.handles.next.1 := by
  have hlast := HandleFactory.last_next hroom
  obtain ⟨n, hle, hn⟩ := hc.issued hj
  rw [UInt64.le_iff_toNat_le] at hle
  refine ⟨n, UInt64.le_iff_toNat_le.mpr (by omega), hn, fun he => ?_⟩
  have hnext : n = c.handles.next.2.last := Handle.render_injective (hn.symm.trans he)
  rw [hnext] at hle
  omega

omit [RecordStore σ] in
/-- A job that is let in has the next handle. -/
theorem Numbered.admission (hc : c.Numbered) (h : c.Admission c')
    (hroom : c.handles.last.toNat + 1 < UInt64.size) : c'.Numbered := by
  cases h with
  | refused _ =>
    refine ⟨fun hk => ?_, hc.key_inj⟩
    obtain ⟨n, hle, hn, -⟩ := hc.issued_next hroom hk
    exact ⟨n, hle, hn⟩
  | @letIn j store hnew hhandle hj hwrite =>
    have hcases : ∀ {k i}, (c.live.insert j none).held k = some i →
        k = j.key ∧ i = j ∨ c.live.held k = some i := by
      intro k i hi
      rw [LiveJobs.held_insert, hj, update_apply] at hi
      split at hi
      · next h => exact .inl ⟨h, (Option.some.inj hi).symm⟩
      · exact .inr hi
    -- the new job has the new number and each other job an earlier one
    constructor
    · intro k i hi
      rcases hcases hi with ⟨-, rfl⟩ | hi
      · exact ⟨_, UInt64.le_refl _, hhandle⟩
      · obtain ⟨n, hle, hn, -⟩ := hc.issued_next hroom hi
        exact ⟨n, hle, hn⟩
    · intro k k' i i' hi hi' h
      rcases hcases hi with ⟨rfl, rfl⟩ | hold <;> rcases hcases hi' with ⟨rfl, rfl⟩ | hold'
      · rfl
      · obtain ⟨n, -, -, hne⟩ := hc.issued_next hroom hold'
        exact absurd (h.symm.trans hhandle) hne
      · obtain ⟨n, -, -, hne⟩ := hc.issued_next hroom hold
        exact absurd (h.trans hhandle) hne
      · exact hc.key_inj hold hold' h

end Core

namespace Engine

variable {σ : Type} [JobStore σ] [RecordStore σ] {e : Engine σ}

omit [RecordStore σ] [JobStore σ] in
theorem numbered_start (settings : EngineSettings) (store : σ) (now : Int64) (newId : Nat → String)
    (isLinked : Bool) : (start settings store now newId isLinked).core.Numbered where
  issued := fun h => absurd h (by simp [core, start, new, LiveJobs.held, LiveJobs.find?,
    LiveJobs.empty])
  key_inj := fun h => absurd h (by simp [core, start, new, LiveJobs.held, LiveJobs.find?,
    LiveJobs.empty])

/-- After a run over a store that never fails, in which the handles have not run out, each live job
has a handle of its own. -/
theorem numbered_run (hn : ∀ s : σ, ¬ RecordStore.hasErred s) (he : e.core.Numbered)
    (hs : e.core.Sound) {as : List (Action σ)} (has : ∀ change, .alterStore change ∉ as)
    (hroom : e.handles.last.toNat + e.issued as < UInt64.size) : (e.run as).core.Numbered := by
  induction as generalizing e with
  | nil => exact he
  | cons a as ih =>
    have ha : ∀ change, a ≠ .alterStore change := fun change h =>
      has change (h ▸ List.mem_cons_self)
    obtain ⟨hcount, hhandles⟩ := handles_cons hroom
    refine ih ?_ (sound_act hs ha) (fun change h => has change (List.mem_cons_of_mem a h))
      (hcount ▸ hroom)
    rcases core_act e ha with h | h
    · rcases hhandles with hsame | ⟨-, -, hroom⟩
      · exact absurd (h.handles_eq.symm.trans hsame) (HandleFactory.next_ne _)
      · exact he.admission h hroom
    · exact he.shifts hs hn h

end Engine

end JobBroker
