import JobBroker.Proofs.Engine.Deed
import JobBroker.Proofs.Engine.Holdings

/-!
# Handles lead to jobs

Peers know a job by its handle, the engine files it under its key. A job is called the same wherever
it is found, live or on record, and no two jobs are called the same, so that the way from a handle
to a key and from there to a live job never leads to another one.

* `LiveJobs.Indexed` : the handles that are known are those of the live jobs.
* `Core.Addressed` : a job has one handle and a handle one job, on record too.
* `Addressed.admission`, `Addressed.shift`, `Addressed.revival` : what happens to a core keeps it
  so.
* `addressed_performAll` : so it is whatever is done to an engine that started over an empty store,
  while only records are in the store that the engine wrote, and the handles have not run out.
-/

namespace JobBroker

open Function (update update_apply)
open Relation (ReflTransGen)
open RecordStore (record?)

/-! ### The index of live jobs -/

namespace LiveJobs

variable {l : LiveJobs}

/-- A handle leads to the key of the live job that has it, and no other handle leads anywhere. -/
def Indexed (l : LiveJobs) : Prop :=
  ∀ h k, l.keyOf? h = some k ↔ ∃ j, l.held k = some j ∧ j.handle = h

namespace Indexed

theorem modify (hl : l.Indexed) {k : JobKey} {f : LiveJob → LiveJob}
    (hf : ∀ live, l.find? k = some live → (f live).job.renewed = live.job.renewed) :
    (l.modify k f).Indexed := by
  intro h k'
  rw [held_modify hf]
  exact hl h k'

theorem erase (hl : l.Indexed) (k : JobKey) : (l.erase k).Indexed := by
  cases hk : l.find? k with
  | none =>
    have hsame : l.erase k = l := by
      unfold LiveJobs.erase
      rw [hk]
    rwa [hsame]
  | some live =>
    have hheld := held_eq_some hk
    have hown : l.keyOf? live.job.handle = some k := (hl _ k).mpr ⟨_, hheld, rfl⟩
    intro h k'
    rw [keyOf?_erase_eq hk, held_erase, update_apply, update_apply]
    by_cases hkk : k' = k
    · subst hkk
      rw [if_pos rfl]
      refine iff_of_false (fun hkey => ?_) (by simp)
      split at hkey
      · exact absurd hkey (by simp)
      · next hne =>
        obtain ⟨j, hj, hhandle⟩ := (hl h k').mp hkey
        obtain rfl := Option.some.inj (hheld.symm.trans hj)
        exact hne hhandle.symm
    · rw [if_neg hkk]
      split
      · next hh =>
        subst hh
        refine iff_of_false (by simp) fun hj => hkk ?_
        exact Option.some.inj (((hl _ k').mpr hj).symm.trans hown)
      · exact hl h k'

/-- A job comes in that has its handle from before, or one that no other job has. -/
theorem insert (hl : l.Indexed) {j : Job} (w : Option SessionId)
    (hown : ∀ i, l.held j.key = some i → i.handle = j.handle)
    (hother : ∀ k i, l.held k = some i → i.handle = j.handle → k = j.key) :
    (l.insert j w).Indexed := by
  intro h k
  rw [keyOf?_insert_eq, held_insert, update_apply, update_apply]
  by_cases hk : k = j.key
  · subst hk
    rw [if_pos rfl]
    constructor
    · intro hkey
      split at hkey
      · next hh => exact ⟨j.renewed, rfl, hh.symm⟩
      · obtain ⟨i, hi, rfl⟩ := (hl h j.key).mp hkey
        exact ⟨j.renewed, rfl, (hown i hi).symm⟩
    · rintro ⟨i, hi, rfl⟩
      obtain rfl := Option.some.inj hi
      exact if_pos rfl
  · rw [if_neg hk]
    split
    · next hh =>
      subst hh
      refine iff_of_false (fun hkey => hk (Option.some.inj hkey).symm) ?_
      rintro ⟨i, hi, hhandle⟩
      exact hk (hother k i hi hhandle)
    · exact hl h k

end Indexed

end LiveJobs

/-! ### Jobs and their handles -/

namespace Core

variable {σ : Type} [JobStore σ] [RecordStore σ] {c c' : Core σ}

/-- The job under a key, live or on record, has the handle. -/
def Calls (c : Core σ) (k : JobKey) (h : String) : Prop :=
  ∃ j, (c.live.held k = some j ∨ record? c.store k = some j) ∧ j.handle = h

structure Addressed (c : Core σ) : Prop where
  issued : ∀ {k h}, c.Calls k h →
    ∃ n, n ≤ c.handles.last ∧ h = Handle.render c.handles.host n
  handle_eq_iff : ∀ {k h k' h'}, c.Calls k h → c.Calls k' h' → (h = h' ↔ k = k')
  key_eq : ∀ {k j}, record? c.store k = some j → j.key = k
  indexed : c.live.Indexed

omit [RecordStore σ] in
/-- While live jobs are those that are filed, none comes in with a shift. -/
theorem Shift.held_of_filed (h : c.Shift c') (hc : c.Filed) {k : JobKey} {j : Job}
    (hj : c'.live.held k = some j) : c.live.held k = some j := by
  have herase : ∀ {k'}, (c.live.erase k').held k = some j → c.live.held k = some j := by
    intro k' hj
    rw [LiveJobs.held_erase, update_apply] at hj
    split at hj
    · exact absurd hj (by simp)
    · exact hj
  cases h with
  | adjust _ _ => exact hj
  | lose _ _ _ | finish _ _ | remove _ => exact herase hj
  | hand _ _ hlive =>
    rwa [LiveJobs.held_modify fun l hl => by rw [Option.some.inj (hlive.symm.trans hl)]; rfl] at hj
  | adopt hq _ hnone =>
    obtain ⟨-, live, hlive⟩ := hc.live_of_yields hq
    exact absurd (hnone.symm.trans hlive) (by simp)
  | requeue _ | advance =>
    rwa [LiveJobs.held_modify] at hj
    exact fun _ _ => rfl

namespace Addressed

/-- Jobs may be gone, from the engine or from the store. -/
theorem of_calls (hc : c.Addressed) (hcalls : ∀ {k h}, c'.Calls k h → c.Calls k h)
    (hrecords : ∀ {k j}, record? c'.store k = some j → record? c.store k = some j)
    (hhandles : c'.handles = c.handles) (hindexed : c'.live.Indexed) : c'.Addressed where
  issued h := hhandles ▸ hc.issued (hcalls h)
  handle_eq_iff h h' := hc.handle_eq_iff (hcalls h) (hcalls h')
  key_eq h := hc.key_eq (hrecords h)
  indexed := hindexed

theorem calls_of_record (hc : c.Addressed) {k : JobKey} {j : Job}
    (hj : record? c.store k = some j) : c.Calls j.key j.handle :=
  ⟨j, .inr ((hc.key_eq hj).symm ▸ hj), rfl⟩

theorem handle_ne_empty (hc : c.Addressed) {k : JobKey} {j : Job}
    (hj : record? c.store k = some j) : j.handle ≠ "" := by
  obtain ⟨n, -, hn⟩ := hc.issued (hc.calls_of_record hj)
  exact hn ▸ Handle.render_ne_empty _ n

theorem indexed_shift (hc : c.Addressed) (hf : c.Filed) (h : c.Shift c') : c'.live.Indexed := by
  cases h with
  | adjust _ _ => exact hc.indexed
  | lose _ _ _ | finish _ _ | remove _ => exact hc.indexed.erase _
  | hand _ _ hlive =>
    exact hc.indexed.modify fun l hl => by
      rw [Option.some.inj (hlive.symm.trans hl)]
      rfl
  | adopt hq _ hnone =>
    obtain ⟨-, live, hlive⟩ := hf.live_of_yields hq
    exact absurd (hnone.symm.trans hlive) (by simp)
  | requeue _ | advance => exact hc.indexed.modify fun _ _ => rfl

theorem shift (hc : c.Addressed) (hf : c.Filed) (h : c.Shift c') : c'.Addressed := by
  refine hc.of_calls ?_ h.record_of_record h.handles_eq (hc.indexed_shift hf h)
  rintro k handle ⟨j, hj | hj, hhandle⟩
  · exact ⟨j, .inl (h.held_of_filed hf hj), hhandle⟩
  · exact ⟨j, .inr (h.record_of_record hj), hhandle⟩

theorem shifts (hc : c.Addressed) (hf : c.Filed) (h : ReflTransGen Shift c c') :
    c'.Addressed := by
  induction h with
  | refl => exact hc
  | tail hpast hstep ih => exact ih.shift (hf.shifts hpast).1 hstep

/-- The next handle is that of no job so far. -/
theorem ne_next (hc : c.Addressed) (hroom : c.handles.last.toNat + 1 < UInt64.size) {k : JobKey}
    {h : String} (hk : c.Calls k h) : h ≠ c.handles.next.1 := by
  intro heq
  obtain ⟨n, hle, hn⟩ := hc.issued hk
  have hlast := HandleFactory.last_next hroom
  have hnext : n = c.handles.next.2.last := Handle.render_injective (hn.symm.trans heq)
  rw [UInt64.le_iff_toNat_le, hnext] at hle
  omega

theorem issued_next (hc : c.Addressed) (hroom : c.handles.last.toNat + 1 < UInt64.size)
    {k : JobKey} {h : String} (hk : c.Calls k h) :
    ∃ n, n ≤ c.handles.next.2.last ∧ h = Handle.render c.handles.host n := by
  obtain ⟨n, hle, hn⟩ := hc.issued hk
  have hlast := HandleFactory.last_next hroom
  rw [UInt64.le_iff_toNat_le] at hle
  exact ⟨n, UInt64.le_iff_toNat_le.mpr (by omega), hn⟩

/-- A job that is let in has the next handle, live and on record. -/
theorem admission (hc : c.Addressed) (h : c.Admission c')
    (hroom : c.handles.last.toNat + 1 < UInt64.size) : c'.Addressed := by
  cases h with
  | @refused j store hstore =>
    have hrecords : record? store = record? c.store := by
      rcases hstore with rfl | ⟨reply, hwrite, hne⟩
      · rfl
      · exact RecordStore.record?_write_of_ne hwrite hne
    have hcalls : ∀ {k h}, Calls { c with store, handles := c.handles.next.2 } k h →
        c.Calls k h := by
      rintro k h ⟨i, hi, hhandle⟩
      exact ⟨i, hrecords ▸ hi, hhandle⟩
    exact {
      issued := fun hk => hc.issued_next hroom (hcalls hk)
      handle_eq_iff := fun hk hk' => hc.handle_eq_iff (hcalls hk) (hcalls hk')
      key_eq := fun hk => hc.key_eq (hrecords ▸ hk)
      indexed := hc.indexed }
  | @letIn j store hnew hhandle hj hwrite =>
    have hnone : c.live.held j.key = none := by rw [LiveJobs.held, hnew]; rfl
    have hrecords := RecordStore.record?_write hwrite
    have hcalls : ∀ {k h}, Calls
        { live := c.live.insert j none
          queues := update c.queues j.functionName ((c.queues j.functionName).accept j.summary)
          store
          handles := c.handles.next.2 } k h →
        k = j.key ∧ h = c.handles.next.1 ∨ k ≠ j.key ∧ c.Calls k h := by
      rintro k h ⟨i, hi, rfl⟩
      rw [LiveJobs.held_insert, hj, hrecords, update_apply, update_apply] at hi
      split at hi
      · next hk =>
        have hi : i = j := (Option.some.inj (hi.elim id id)).symm
        exact .inl ⟨hk, hi ▸ hhandle⟩
      · next hk => exact .inr ⟨hk, i, hi, rfl⟩
    exact {
      issued := by
        intro k h hk
        rcases hcalls hk with ⟨-, rfl⟩ | ⟨-, hk⟩
        · exact ⟨_, UInt64.le_refl _, rfl⟩
        · exact hc.issued_next hroom hk
      handle_eq_iff := by
        intro k h k' h' hk hk'
        rcases hcalls hk with ⟨rfl, rfl⟩ | ⟨hne, hk⟩ <;>
          rcases hcalls hk' with ⟨rfl, rfl⟩ | ⟨hne', hk'⟩
        · exact iff_of_true rfl rfl
        · exact iff_of_false (hc.ne_next hroom hk').symm hne'.symm
        · exact iff_of_false (hc.ne_next hroom hk) hne
        · exact hc.handle_eq_iff hk hk'
      key_eq := by
        intro k i hk
        rw [hrecords, update_apply] at hk
        split at hk
        · next hkey => exact hkey ▸ Option.some.inj hk ▸ rfl
        · exact hc.key_eq hk
      indexed := hc.indexed.insert none (fun i hi => absurd (hnone.symm.trans hi) (by simp))
        fun k i hi heq =>
          absurd (heq.trans hhandle) (hc.ne_next hroom ⟨i, .inl hi, rfl⟩) }

/-- A job that is taken up from the store is called as it is there. -/
theorem revival (hc : c.Addressed) {j : Job} (hj : c.Calls j.key j.handle)
    (h : c.Revival j c.handles c') : c'.Addressed := by
  cases h with
  | skipped => exact hc
  | queued _ =>
    refine hc.of_calls ?_ id rfl (hc.indexed.insert none ?_ ?_)
    · rintro k handle ⟨i, hi | hi, hhandle⟩
      · rw [LiveJobs.held_insert, update_apply] at hi
        split at hi
        · next hk =>
          obtain rfl := Option.some.inj hi
          obtain rfl := hk
          exact hhandle ▸ hj
        · exact ⟨i, .inl hi, hhandle⟩
      · exact ⟨i, .inr hi, hhandle⟩
    · exact fun i hi => (hc.handle_eq_iff ⟨i, .inl hi, rfl⟩ hj).mpr rfl
    · exact fun k i hi heq => (hc.handle_eq_iff ⟨i, .inl hi, rfl⟩ hj).mp heq

end Addressed

end Core

/-- A factory learns nothing from the handles that it has given out. -/
theorem HandleFactory.observeAll_eq {f : HandleFactory} {js : List Job}
    (h : ∀ j ∈ js, ∃ n, n ≤ f.last ∧ j.handle = Handle.render f.host n) : f.observeAll js = f := by
  induction js with
  | nil => rfl
  | cons j js ih =>
    obtain ⟨n, hle, hn⟩ := h j List.mem_cons_self
    have hobserve : f.observe j.handle = f := by
      rw [observe, hn, Handle.parse?_render]
      exact if_neg fun hlt => UInt64.not_lt.mpr hle hlt.2
    show (f.observe j.handle).observeAll js = f
    rw [hobserve]
    exact ih fun i hi => h i (List.mem_cons_of_mem j hi)

/-- A submission, which may use up a handle. -/
def Deed.submits {σ : Type} : Deed σ → Bool
  | .act (.submit _ _) => true
  | _ => false

namespace Engine

variable {σ : Type} [JobStore σ] [RecordStore σ] {e : Engine σ}

/-! ### Stored jobs that are taken up -/

theorem addressed_restore (he : e.core.Addressed) {k : JobKey} {j : Job}
    (hj : record? e.store k = some j) : (e.restore j).2.core.Addressed := by
  have hcalls := he.calls_of_record hj
  have hhandle := he.handle_ne_empty hj
  have hrevival := core_restore e j
  rw [if_neg hhandle, if_neg hhandle] at hrevival
  exact he.revival (j := j.renewed) hcalls hrevival

/-- What is read from the store is on record, and reading it changes no record. -/
theorem loaded_records (hread : ∀ s : σ, record? (JobStore.readAll s).2 = record? s)
    (e : Engine σ) : (∃ store, record? store = record? e.store ∧
      e.loaded.2 = { e with store, handles := e.handles.observeAll e.loaded.1 }) ∧
    ∀ j ∈ e.loaded.1, ∃ k, record? e.store k = some j := by
  have hall := hread e.store
  unfold loaded
  split
  · next store h =>
    rw [h] at hall
    exact ⟨⟨store, hall, rfl⟩, by simp⟩
  · next queued store h =>
    rw [h] at hall
    obtain ⟨hrecords, hjobs⟩ := record?_readRecords queued { e with store }
    obtain ⟨store', hsnd⟩ := readRecords_snd queued { e with store }
    rw [hsnd] at hrecords
    exact ⟨⟨store', hrecords.trans hall, hsnd⟩, fun j hj => hall ▸ hjobs j hj⟩

/-- What is read from the store teaches the factory nothing. -/
theorem addressed_loaded (hread : ∀ s : σ, record? (JobStore.readAll s).2 = record? s)
    (he : e.core.Addressed) : ∃ store, record? store = record? e.store ∧
      e.loaded.2 = { e with store } ∧ Core.Addressed { e.core with store } ∧
      ∀ j ∈ e.loaded.1, ∃ k, record? e.store k = some j := by
  obtain ⟨⟨store, hstore, hloaded⟩, hjobs⟩ := loaded_records hread e
  have hissued : ∀ j ∈ e.loaded.1, ∃ n, n ≤ e.handles.last ∧
      j.handle = Handle.render e.handles.host n := by
    intro j hj
    obtain ⟨k, hk⟩ := hjobs j hj
    exact he.issued ⟨j, .inr hk, rfl⟩
  rw [HandleFactory.observeAll_eq hissued] at hloaded
  refine ⟨store, hstore, hloaded, he.of_calls ?_ (fun hk => hstore ▸ hk) rfl he.indexed, hjobs⟩
  rintro k h ⟨j, hj, hhandle⟩
  exact ⟨j, hstore ▸ hj, hhandle⟩

theorem addressed_load (hread : ∀ s : σ, record? (JobStore.readAll s).2 = record? s)
    (he : e.core.Addressed) : e.load.2.core.Addressed ∧ e.load.2.handles = e.handles := by
  obtain ⟨store, hstore, hloaded, hbegin, hjobs⟩ := addressed_loaded hread he
  suffices hrest : e.load.2.core.Addressed ∧ e.load.2.handles = e.handles ∧
      record? e.load.2.store = record? e.store from ⟨hrest.1, hrest.2.1⟩
  rw [load_snd]
  apply restoreAll_of_restore (P := fun e' =>
    e'.core.Addressed ∧ e'.handles = e.handles ∧ record? e'.store = record? e.store)
    fun e' j hj he' => ?_
  · exact hloaded ▸ ⟨hbegin, rfl, hstore⟩
  · obtain ⟨he', hhandles, hrecords⟩ := he'
    obtain ⟨k, hk⟩ := hjobs j hj
    have hk' : record? e'.store k = some j := hrecords ▸ hk
    refine ⟨addressed_restore he' hk', ?_, ?_⟩
    · rw [handles_restore, if_neg (he'.handle_ne_empty hk')]
      exact hhandles
    · rw [(restore_cases e' j).1]
      exact hrecords

/-! ### Runs -/

/-- Records may be lost from the store, but none is put there by others. -/
def OnlyLoses (change : σ → σ) : Prop :=
  ∀ s k j, record? (change s) k = some j → record? s k = some j

/-- A submission uses up one handle at most, and nothing else does. -/
theorem addressed_act (he : e.core.Addressed) (hf : e.Filed) {a : Action σ}
    (hkept : ∀ change, a = .alterStore change → OnlyLoses change)
    (hroom : e.handles.last.toNat + (if (Deed.act a).submits then 1 else 0) < UInt64.size) :
    (e.act a).core.Addressed ∧ (e.act a).handles.last.toNat ≤
      e.handles.last.toNat + if (Deed.act a).submits then 1 else 0 := by
  by_cases halter : ∃ change, a = .alterStore change
  · obtain ⟨change, rfl⟩ := halter
    have hlost : OnlyLoses change := hkept change rfl
    refine ⟨he.of_calls ?_ (hlost e.store _ _) rfl he.indexed, Nat.le_add_right _ _⟩
    rintro k h ⟨j, hj | hj, hhandle⟩
    · exact ⟨j, .inl hj, hhandle⟩
    · exact ⟨j, .inr (hlost e.store k j hj), hhandle⟩
  have halter : ∀ change, a ≠ .alterStore change := fun change h => halter ⟨change, h⟩
  by_cases hsubmit : ∃ j client, a = .submit j client
  · obtain ⟨j, client, rfl⟩ := hsubmit
    have hroom : e.handles.last.toNat + 1 < UInt64.size := hroom
    show (e.submit j client).2.core.Addressed ∧
      (e.submit j client).2.core.handles.last.toNat ≤ e.handles.last.toNat + 1
    rcases core_submit e j client with hcore | hcore
    · rw [hcore]
      exact ⟨he, Nat.le_succ _⟩
    · rw [hcore.handles_eq]
      exact ⟨he.admission hcore hroom, (HandleFactory.last_next hroom).le⟩
  · have hshifts := shifts_of_no_submission e halter fun j client h => hsubmit ⟨j, client, h⟩
    have hhandles : (e.act a).handles = e.handles := Core.handles_eq_of_shifts hshifts
    rw [hhandles]
    exact ⟨he.shifts hf.toFiled hshifts, Nat.le_add_right _ _⟩

theorem addressed_perform (hread : ∀ s : σ, record? (JobStore.readAll s).2 = record? s)
    (he : e.core.Addressed) (hf : e.Filed) {d : Deed σ}
    (hkept : ∀ change, d = .act (.alterStore change) → OnlyLoses change)
    (hroom : e.handles.last.toNat + (if d.submits then 1 else 0) < UInt64.size) :
    (e.perform d).core.Addressed ∧ (e.perform d).handles.last.toNat ≤
      e.handles.last.toNat + if d.submits then 1 else 0 := by
  cases d with
  | load =>
    obtain ⟨hcore, hhandles⟩ := addressed_load hread he
    exact ⟨hcore, (congrArg (·.last.toNat) hhandles).le⟩
  | act a => exact addressed_act he hf (fun change h => hkept change (congrArg Deed.act h)) hroom

theorem addressed_performAll (hread : ∀ s : σ, record? (JobStore.readAll s).2 = record? s)
    {ds : List (Deed σ)} (hkept : ∀ change, .act (.alterStore change) ∈ ds → OnlyLoses change)
    (he : e.core.Addressed) (hf : e.Filed)
    (hroom : e.handles.last.toNat + ds.countP Deed.submits < UInt64.size) :
    (e.performAll ds).core.Addressed ∧
      (e.performAll ds).handles.last.toNat ≤ e.handles.last.toNat + ds.countP Deed.submits := by
  induction ds generalizing e with
  | nil => exact ⟨he, Nat.le_refl _⟩
  | cons d ds ih =>
    rw [List.countP_cons] at hroom ⊢
    obtain ⟨hcore, hlast⟩ := addressed_perform hread he hf
      (fun change h => hkept change (h ▸ List.mem_cons_self)) (d := d) (by omega)
    have hkept : ∀ change, .act (.alterStore change) ∈ ds → OnlyLoses change := fun change h =>
      hkept change (List.mem_cons_of_mem d h)
    obtain ⟨hcore', hlast'⟩ := ih hkept hcore (hf.perform d) (by omega)
    exact ⟨hcore', Nat.le_trans hlast' (by omega)⟩

/-- An engine that starts over an empty store knows no handle. -/
theorem addressed_start (settings : EngineSettings) {store : σ} (now : Int64) (newId : Nat → String)
    (isLinked : Bool) (hempty : ∀ k, record? store k = none) :
    (start settings store now newId isLinked).core.Addressed := by
  have hcalls : ∀ {k h}, ¬ (start settings store now newId isLinked).core.Calls k h := by
    rintro k h ⟨j, hj | hj, -⟩
    · exact absurd hj (by simp [start, new, core, LiveJobs.held, LiveJobs.find?, LiveJobs.empty])
    · exact absurd ((hempty k).symm.trans hj) (by simp)
  exact {
    issued := fun h => absurd h hcalls
    handle_eq_iff := fun h => absurd h hcalls
    key_eq := fun {k j} hj => absurd ((hempty k).symm.trans hj) (by simp)
    indexed := by
      refine fun h k => iff_of_false ?_ ?_
      · simp [start, new, core, LiveJobs.keyOf?, LiveJobs.empty]
      · rintro ⟨j, hj, hhandle⟩
        exact hcalls ⟨j, .inl hj, hhandle⟩ }

end Engine

end JobBroker
