import JobBroker.Engine.LiveJobs
import JobBroker.Job.Handle
import Mathlib.Data.List.Nodup
import Mathlib.Logic.Function.Basic

/-!
# The ledger of live jobs

What an engine says about its live jobs, without how it keeps it: which jobs are live and who works
on them, who waits for them, and which sessions have been told of an end. A `Move` is one change of
the ledger, and `Move.Fits` says when it may be made.

* `Consistent` : what the parts of a ledger owe each other. `Consistent.after` : every move that
  fits keeps it.
* `Spent.after` : a handle that has been given up is never live again.
* `Held.after` : a worker keeps a job until it is queued again or ends.
-/

namespace JobBroker

/-- The handle of the job whose end a packet tells. -/
def Body.ends? : Body → Option String
  | .workComplete handle _ | .workFail handle | .workException handle _ => some handle
  | _ => none

/-- The handle of the job whose end a packet tells. -/
def Packet.ends? (p : Packet) : Option String := p.body.ends?

structure Ledger where
  host : String
  /-- The number of the last handle. -/
  last : UInt64
  jobs : JobKey → Option LiveJob
  /-- The live jobs by handle. -/
  keys : String → Option JobKey
  queued : JobKey → Option QueuedJob
  waiters : JobKey → List SessionId
  /-- The handles of the jobs a session works on. -/
  assigned : SessionId → List String
  /-- Whether a session wants to be told of exceptions. -/
  wants : SessionId → Bool
  /-- The packets that have told a session the end of a job, oldest first. -/
  notices : SessionId → List Packet

namespace Ledger

open Function (update update_apply)

/-- One change of the ledger. -/
inductive Move
  /-- A handle is used up and no job gets it. -/
  | waste
  /-- A job is let in under the next handle. -/
  | letIn (j : Job)
  | join (k : JobKey) (id : SessionId)
  /-- A session waits for nothing any more. -/
  | leave (id : SessionId)
  | hand (j : Job) (id : SessionId)
  | requeue (j : Job) (id : SessionId)
  | advance (j : Job) (id : SessionId) (numerator denominator : UInt32)
  /-- A job ends; `reply` is what a waiter is told, by what it wants to know. -/
  | close (live : LiveJob) (reply : Bool → Body)
  | ask (id : SessionId) (wants : Bool)

/-- A list with `a` last, unless it is there already. -/
def adjoin {α : Type} [DecidableEq α] (a : α) (as : List α) : List α :=
  if a ∈ as then as else as ++ [a]

/-- The ledger without `handle` among what sessions work on. -/
def unassign (l : Ledger) (handle : String) : SessionId → List String :=
  fun id => (l.assigned id).filter (· ≠ handle)

def after (l : Ledger) : Move → Ledger
  | .waste => { l with last := l.last + 1 }
  | .letIn j =>
    { l with
      last := l.last + 1
      jobs := update l.jobs j.key (some ⟨j, none⟩)
      keys := update l.keys j.handle (some j.key)
      queued := update l.queued j.key (some j.summary) }
  | .join k id => { l with waiters := update l.waiters k (adjoin id (l.waiters k)) }
  | .leave id => { l with waiters := fun k => (l.waiters k).filter (· ≠ id) }
  | .hand j id =>
    { l with
      jobs := update l.jobs j.key (some ⟨{ j with state := .working }, some id⟩)
      queued := update l.queued j.key none
      assigned := update l.assigned id (adjoin j.handle (l.assigned id)) }
  | .requeue j _ =>
    { l with
      jobs := update l.jobs j.key (some ⟨j.renewed, none⟩)
      queued := update l.queued j.key (some j.summary)
      assigned := l.unassign j.handle }
  | .advance j id numerator denominator =>
    { l with jobs := update l.jobs j.key (some ⟨{ j with numerator, denominator }, some id⟩) }
  | .close live reply =>
    { l with
      jobs := update l.jobs live.job.key none
      keys := update l.keys live.job.handle none
      queued := update l.queued live.job.key none
      waiters := update l.waiters live.job.key []
      assigned := l.unassign live.job.handle
      notices := fun id => l.notices id ++
        if id ∈ l.waiters live.job.key then [.response (reply (l.wants id))] else [] }
  | .ask id wants => { l with wants := update l.wants id wants }

/-- When a move may be made. A handle is given out only while its number is new. -/
def Move.Fits (l : Ledger) : Move → Prop
  | .waste => l.last < l.last + 1
  | .letIn j =>
    l.jobs j.key = none ∧ j.state = .queued ∧ j.handle = Handle.render l.host (l.last + 1) ∧
      l.last < l.last + 1
  | .join k _ => l.jobs k ≠ none
  | .leave _ | .ask _ _ => True
  | .hand j _ => l.jobs j.key = some ⟨j, none⟩
  | .requeue j id | .advance j id _ _ => l.jobs j.key = some ⟨j, some id⟩
  | .close live reply =>
    l.jobs live.job.key = some live ∧ ∀ wants, (reply wants).ends? = some live.job.handle

/-- Some job has had this handle. -/
def Issued (l : Ledger) (handle : String) : Prop :=
  ∃ n, n ≤ l.last ∧ handle = Handle.render l.host n

/-- A job has had this handle and has ended. -/
def Spent (l : Ledger) (handle : String) : Prop := l.Issued handle ∧ l.keys handle = none

/-- A session works on the job with this handle. -/
def Held (l : Ledger) (handle : String) (id : SessionId) : Prop :=
  ∃ k live, l.jobs k = some live ∧ live.job.handle = handle ∧ live.worker = some id

/-- What the parts of a ledger owe each other. -/
structure Consistent (l : Ledger) : Prop where
  key_eq : ∀ {k live}, l.jobs k = some live → live.job.key = k
  keys_handle : ∀ {k live}, l.jobs k = some live → l.keys live.job.handle = some k
  jobs_of_keys : ∀ {h k}, l.keys h = some k → ∃ live, l.jobs k = some live ∧ live.job.handle = h
  state_eq : ∀ {k live}, l.jobs k = some live →
    live.job.state = if live.worker.isSome then .working else .queued
  queued_eq : ∀ k, l.queued k =
    (l.jobs k).bind fun live => if live.worker.isSome then none else some live.job.summary
  assigned_iff : ∀ {h id}, h ∈ l.assigned id ↔ l.Held h id
  issued : ∀ {k live}, l.jobs k = some live → l.Issued live.job.handle
  nodup_waiters : ∀ k, (l.waiters k).Nodup
  live_of_waiter : ∀ {k id}, id ∈ l.waiters k → l.jobs k ≠ none
  spent_of_notice : ∀ {id p h}, p ∈ l.notices id → p.ends? = some h → l.Spent h

variable {l l' : Ledger}

theorem mem_adjoin {α : Type} [DecidableEq α] {a b : α} {as : List α} :
    b ∈ adjoin a as ↔ b ∈ as ∨ b = a := by
  unfold adjoin
  split
  · exact ⟨.inl, fun h => h.elim id fun h => h ▸ ‹_›⟩
  · simp

theorem nodup_adjoin {α : Type} [DecidableEq α] {a : α} {as : List α} (h : as.Nodup) :
    (adjoin a as).Nodup := by
  unfold adjoin
  split
  · exact h
  · next ha =>
    exact List.nodup_append.mpr ⟨h, by simp, fun x hx y hy => by
      rintro rfl
      exact ha (List.mem_singleton.mp hy ▸ hx)⟩

@[simp] theorem host_after (l : Ledger) (m : Move) : (l.after m).host = l.host := by
  cases m <;> rfl

theorem last_le_after {m : Move} (hm : m.Fits l) : l.last ≤ (l.after m).last := by
  cases m with
  | waste => exact UInt64.le_of_lt hm
  | letIn j => exact UInt64.le_of_lt hm.2.2.2
  | _ => exact UInt64.le_refl _

theorem Issued.after {h : String} (hi : l.Issued h) {m : Move} (hm : m.Fits l) :
    (l.after m).Issued h := by
  obtain ⟨n, hn, rfl⟩ := hi
  exact ⟨n, UInt64.le_trans hn (last_le_after hm), by rw [host_after]⟩

/-- The next handle is a new one. -/
theorem not_issued_next (h : l.last < l.last + 1) :
    ¬ l.Issued (Handle.render l.host (l.last + 1)) := by
  rintro ⟨n, hn, he⟩
  obtain rfl := Handle.render_injective he
  exact absurd (UInt64.lt_of_lt_of_le h hn) (UInt64.lt_irrefl _)

/-! ### Each move keeps a ledger consistent -/

theorem Consistent.key_inj (hl : l.Consistent) {k k' : JobKey} {live live' : LiveJob}
    (hk : l.jobs k = some live) (hk' : l.jobs k' = some live')
    (h : live.job.handle = live'.job.handle) : k = k' := by
  have := hl.keys_handle hk
  rw [h, hl.keys_handle hk'] at this
  exact (Option.some.inj this).symm

/-- A job that is let in has a handle that no job has had. -/
theorem Move.Fits.not_issued {j : Job} (hm : (Move.letIn j).Fits l) : ¬ l.Issued j.handle :=
  hm.2.2.1 ▸ not_issued_next hm.2.2.2

/-- A job that is let in has neither the handle nor the key of a live job. -/
theorem Consistent.ne_of_letIn (hl : l.Consistent) {j : Job} (hm : (Move.letIn j).Fits l)
    {h : String} {k : JobKey} (hk : l.keys h = some k) : h ≠ j.handle ∧ k ≠ j.key := by
  obtain ⟨live, hlive, rfl⟩ := hl.jobs_of_keys hk
  refine ⟨fun he => hm.not_issued (he ▸ hl.issued hlive), ?_⟩
  rintro rfl
  exact absurd (hlive.symm.trans hm.1) (by simp)

/-- Who has the handle of a live job works on that job. -/
theorem Consistent.mem_assigned (hl : l.Consistent) {k : JobKey} {live : LiveJob}
    (hk : l.jobs k = some live) {id : SessionId} :
    live.job.handle ∈ l.assigned id ↔ live.worker = some id := by
  rw [hl.assigned_iff]
  constructor
  · rintro ⟨k', live', hk', hh, hw⟩
    obtain rfl := hl.key_inj hk' hk hh
    rw [Option.some.inj (hk.symm.trans hk'), hw]
  · exact fun hw => ⟨k, live, hk, rfl, hw⟩

theorem Consistent.working_iff (hl : l.Consistent) {k : JobKey} {live : LiveJob}
    (hk : l.jobs k = some live) : live.job.state = .working ↔ ∃ id, live.worker = some id := by
  rw [hl.state_eq hk, ← Option.isSome_iff_exists]
  cases live.worker.isSome <;> simp

theorem Consistent.queued_iff (hl : l.Consistent) {k : JobKey} {live : LiveJob}
    (hk : l.jobs k = some live) : live.job.state = .queued ↔ live.worker = none := by
  rw [hl.state_eq hk]
  cases live.worker <;> simp

theorem Consistent.queued_of_worker (hl : l.Consistent) {k : JobKey} {live : LiveJob}
    (hk : l.jobs k = some live) :
    l.queued k = if live.worker.isSome then none else some live.job.summary := by
  rw [hl.queued_eq, hk, Option.bind_some]

/-- A job that is replaced under its key, keeping its handle, leaves the ledger consistent when the
queue and the sessions agree with what it has become. -/
theorem Consistent.replace (hl : l.Consistent) (old new : LiveJob) {k : JobKey}
    (hk : l.jobs k = some old) (hkey : new.job.key = k) (hhandle : new.job.handle = old.job.handle)
    (hstate : new.job.state = if new.worker.isSome then .working else .queued)
    (queued : JobKey → Option QueuedJob)
    (hqueued : queued = update l.queued k
      (if new.worker.isSome then none else some new.job.summary))
    (assigned : SessionId → List String)
    (hassigned : ∀ h id, h ∈ assigned id ↔
      if h = old.job.handle then new.worker = some id else h ∈ l.assigned id) :
    Consistent { l with jobs := update l.jobs k (some new), queued, assigned } where
  key_eq {k' live} h := by
    simp only [update_apply] at h
    split at h
    · next hkk => exact hkk ▸ Option.some.inj h ▸ hkey
    · exact hl.key_eq h
  keys_handle {k' live} h := by
    simp only [update_apply] at h
    split at h
    · next hkk =>
      obtain rfl := Option.some.inj h
      rw [hhandle, hkk]
      exact hl.keys_handle hk
    · exact hl.keys_handle h
  jobs_of_keys {h k'} hh := by
    obtain ⟨live, hlive, hh'⟩ := hl.jobs_of_keys hh
    simp only [update_apply]
    by_cases hkk : k' = k
    · subst hkk
      obtain rfl := Option.some.inj (hk.symm.trans hlive)
      exact ⟨new, if_pos rfl, hhandle.trans hh'⟩
    · exact ⟨live, by rw [if_neg hkk]; exact hlive, hh'⟩
  state_eq {k' live} h := by
    simp only [update_apply] at h
    split at h
    · exact Option.some.inj h ▸ hstate
    · exact hl.state_eq h
  queued_eq k' := by
    subst hqueued
    simp only [update_apply]
    split
    · rfl
    · exact hl.queued_eq k'
  assigned_iff {h id} := by
    rw [hassigned]
    by_cases hh : h = old.job.handle
    · rw [if_pos hh]
      constructor
      · exact fun hw => ⟨k, new, by simp, hhandle.trans hh.symm, hw⟩
      · rintro ⟨k', live, hlive, hlh, hw⟩
        simp only [update_apply] at hlive
        split at hlive
        · exact Option.some.inj hlive ▸ hw
        · next hkk => exact absurd (hl.key_inj hlive hk (hlh.trans hh)) hkk
    · rw [if_neg hh, hl.assigned_iff]
      constructor
      · rintro ⟨k', live, hlive, hlh, hw⟩
        have hkk : k' ≠ k := fun he => hh <| by
          subst he
          obtain rfl := Option.some.inj (hk.symm.trans hlive)
          exact hlh.symm
        exact ⟨k', live, by simp [hkk, hlive], hlh, hw⟩
      · rintro ⟨k', live, hlive, hlh, hw⟩
        simp only [update_apply] at hlive
        split at hlive
        · obtain rfl := Option.some.inj hlive
          exact absurd (hlh.symm.trans hhandle) hh
        · exact ⟨k', live, hlive, hlh, hw⟩
  issued {k' live} h := by
    simp only [update_apply] at h
    split at h
    · obtain rfl := Option.some.inj h
      exact hhandle ▸ hl.issued hk
    · exact hl.issued h
  nodup_waiters := hl.nodup_waiters
  live_of_waiter {k' id} hw := by
    simp only [update_apply]
    split
    · simp
    · exact hl.live_of_waiter hw
  spent_of_notice := hl.spent_of_notice

theorem Consistent.hand (hl : l.Consistent) {j : Job} {id : SessionId}
    (h : (Move.hand j id).Fits l) : (l.after (.hand j id)).Consistent := by
  have hheld : ∀ id', j.handle ∉ l.assigned id' := fun id' hm =>
    absurd ((hl.mem_assigned h).mp hm) (by simp)
  refine hl.replace ⟨j, none⟩ ⟨{ j with state := .working }, some id⟩ h rfl rfl rfl _ rfl _
    fun h' id' => ?_
  simp only [update_apply]
  by_cases hid : id' = id
  · subst hid
    rw [if_pos rfl, mem_adjoin]
    by_cases hh : h' = j.handle
    · simp [hh]
    · simp [hh]
  · rw [if_neg hid]
    by_cases hh : h' = j.handle
    · simp [hh, hheld id', Ne.symm hid]
    · simp [hh]

theorem mem_unassign {h h' : String} {id : SessionId} :
    h ∈ l.unassign h' id ↔ h ∈ l.assigned id ∧ h ≠ h' := by
  simp [unassign]

theorem unassign_eq_self {h : String} {id : SessionId} (hh : h ∉ l.assigned id) :
    l.unassign h id = l.assigned id := by
  refine List.filter_eq_self.mpr fun h' hh' => ?_
  have : h' ≠ h := fun he => hh (he ▸ hh')
  simpa using this

theorem Consistent.requeue (hl : l.Consistent) {j : Job} {id : SessionId}
    (h : (Move.requeue j id).Fits l) : (l.after (.requeue j id)).Consistent := by
  refine hl.replace ⟨j, some id⟩ ⟨j.renewed, none⟩ h rfl rfl rfl _ rfl _
    fun h' id' => ?_
  rw [mem_unassign]
  by_cases hh : h' = j.handle <;> simp [hh]

theorem Consistent.advance (hl : l.Consistent) {j : Job} {id : SessionId} {n d : UInt32}
    (h : (Move.advance j id n d).Fits l) : (l.after (.advance j id n d)).Consistent := by
  have hstate : j.state = .working := hl.state_eq h
  refine hl.replace ⟨j, some id⟩ ⟨{ j with numerator := n, denominator := d }, some id⟩ h rfl rfl
    hstate l.queued ?_ l.assigned fun h' id' => ?_
  · have hq : l.queued j.key = none := by simp [hl.queued_eq, show l.jobs j.key = _ from h]
    exact (Function.update_eq_self_iff.mpr hq.symm).symm
  · by_cases hh : h' = j.handle
    · subst hh
      rw [if_pos rfl]
      exact hl.mem_assigned h
    · rw [if_neg hh]

theorem Consistent.letIn (hl : l.Consistent) {j : Job} (h : (Move.letIn j).Fits l) :
    (l.after (.letIn j)).Consistent := by
  have hmono : ∀ {h}, l.Issued h → (l.after (.letIn j)).Issued h := fun hi => hi.after h
  have hfresh := h.not_issued
  have hother : ∀ {k live}, l.jobs k = some live → live.job.handle ≠ j.handle ∧ k ≠ j.key :=
    fun {k live} hk => hl.ne_of_letIn h (hl.keys_handle hk)
  obtain ⟨hnew, hstate, hhandle, hlast⟩ := h
  have hjobs : ∀ {k live}, (l.after (.letIn j)).jobs k = some live →
      (k = j.key ∧ live = ⟨j, none⟩) ∨ l.jobs k = some live := by
    intro k live hk
    simp only [after, update_apply] at hk
    split at hk
    · next he => exact .inl ⟨he, (Option.some.inj hk).symm⟩
    · exact .inr hk
  have hkept : ∀ {k live}, l.jobs k = some live → (l.after (.letIn j)).jobs k = some live :=
    fun {k live} hk => by simp [after, (hother hk).2, hk]
  refine ⟨fun {k live} hk => ?_, fun {k live} hk => ?_, fun {h k} hh => ?_, fun {k live} hk => ?_,
    fun k => ?_, fun {h id} => ?_, fun {k live} hk => ?_, hl.nodup_waiters, fun {k id} hw => ?_,
    fun {id p h} hp he => ?_⟩
  · obtain ⟨rfl, rfl⟩ | hk := hjobs hk
    · rfl
    · exact hl.key_eq hk
  · obtain ⟨rfl, rfl⟩ | hk := hjobs hk
    · simp [after]
    · simp [after, (hother hk).1, hl.keys_handle hk]
  · simp only [after, update_apply] at hh
    split at hh
    · next he => exact ⟨⟨j, none⟩, by simp [after, ← Option.some.inj hh], he.symm⟩
    · obtain ⟨live, hlive, hlh⟩ := hl.jobs_of_keys hh
      exact ⟨live, hkept hlive, hlh⟩
  · obtain ⟨rfl, rfl⟩ | hk := hjobs hk
    · exact hstate
    · exact hl.state_eq hk
  · simp only [after, update_apply]
    split
    · rfl
    · exact hl.queued_eq k
  · refine hl.assigned_iff.trans ⟨?_, ?_⟩
    · rintro ⟨k, live, hk, hlh, hw⟩
      exact ⟨k, live, hkept hk, hlh, hw⟩
    · rintro ⟨k, live, hk, hlh, hw⟩
      obtain ⟨rfl, rfl⟩ | hk := hjobs hk
      · exact absurd hw (by simp)
      · exact ⟨k, live, hk, hlh, hw⟩
  · obtain ⟨rfl, rfl⟩ | hk := hjobs hk
    · exact ⟨l.last + 1, UInt64.le_refl _, hhandle⟩
    · exact hmono (hl.issued hk)
  · exact fun hn => hl.live_of_waiter hw <| by
      cases hk : l.jobs k with
      | none => rfl
      | some live => exact absurd ((hkept hk).symm.trans hn) (by simp)
  · obtain ⟨hi, hn⟩ := hl.spent_of_notice hp he
    refine ⟨hmono hi, ?_⟩
    have : h ≠ j.handle := fun hj => hfresh (hj ▸ hi)
    simp [after, this, hn]

theorem Consistent.close (hl : l.Consistent) {live : LiveJob} {reply : Bool → Body}
    (h : (Move.close live reply).Fits l) : (l.after (.close live reply)).Consistent := by
  obtain ⟨hlive, hreply⟩ := h
  have hjobs : ∀ {k live'}, (l.after (.close live reply)).jobs k = some live' ↔
      k ≠ live.job.key ∧ l.jobs k = some live' := by
    intro k live'
    simp only [after, update_apply]
    split <;> simp_all
  have hhandle : ∀ {k live'}, l.jobs k = some live' →
      (live'.job.handle = live.job.handle ↔ k = live.job.key) := fun {k live'} hk =>
    ⟨hl.key_inj hk hlive, fun he => by
      subst he
      rw [Option.some.inj (hk.symm.trans hlive)]⟩
  refine ⟨fun {k live'} hk => hl.key_eq (hjobs.mp hk).2, fun {k live'} hk => ?_,
    fun {h k} hh => ?_, fun {k live'} hk => hl.state_eq (hjobs.mp hk).2, fun k => ?_,
    fun {h id} => ?_, fun {k live'} hk => hl.issued (hjobs.mp hk).2, fun k => ?_,
    fun {k id} hw => ?_, fun {id p h} hp he => ?_⟩
  · obtain ⟨hne, hk⟩ := hjobs.mp hk
    simp [after, mt (hhandle hk).mp hne, hl.keys_handle hk]
  · simp only [after, update_apply] at hh
    split at hh
    · exact absurd hh (by simp)
    · next hne =>
      obtain ⟨live', hk, hlh⟩ := hl.jobs_of_keys hh
      exact ⟨live', hjobs.mpr ⟨fun he => hne (hlh ▸ (hhandle hk).mpr he), hk⟩, hlh⟩
  · simp only [after, update_apply]
    split
    · rfl
    · exact hl.queued_eq k
  · refine mem_unassign.trans ⟨?_, ?_⟩
    · rintro ⟨hm, hne⟩
      obtain ⟨k, live', hk, rfl, hw⟩ := hl.assigned_iff.mp hm
      exact ⟨k, live', hjobs.mpr ⟨mt (hhandle hk).mpr hne, hk⟩, rfl, hw⟩
    · rintro ⟨k, live', hk, rfl, hw⟩
      obtain ⟨hne, hk⟩ := hjobs.mp hk
      exact ⟨hl.assigned_iff.mpr ⟨k, live', hk, rfl, hw⟩, mt (hhandle hk).mp hne⟩
  · simp only [after, update_apply]
    split
    · exact List.nodup_nil
    · exact hl.nodup_waiters k
  · simp only [after, update_apply] at hw ⊢
    split at hw
    · exact absurd hw (by simp)
    · next hne =>
      rw [if_neg hne]
      exact hl.live_of_waiter hw
  · -- an old notice is about a job that had ended already, a new one about the job that ends
    have hspent : l.Spent h ∨ h = live.job.handle := by
      rcases List.mem_append.mp hp with hp | hp
      · exact .inl (hl.spent_of_notice hp he)
      · split at hp
        · obtain rfl := List.mem_singleton.mp hp
          exact .inr (Option.some.inj (he.symm.trans (hreply _)))
        · exact absurd hp (by simp)
    rcases hspent with ⟨hi, hn⟩ | rfl
    · exact ⟨hi, by simp [after, update_apply, hn]⟩
    · exact ⟨hl.issued hlive, by simp [after]⟩

theorem Consistent.waste (hl : l.Consistent) (h : Move.waste.Fits l) :
    (l.after .waste).Consistent :=
  { hl with
    issued := fun hk => (hl.issued hk).after h
    spent_of_notice := fun hp he =>
      ⟨(hl.spent_of_notice hp he).1.after h, (hl.spent_of_notice hp he).2⟩ }

theorem Consistent.join (hl : l.Consistent) {k : JobKey} {id : SessionId}
    (h : (Move.join k id).Fits l) : (l.after (.join k id)).Consistent :=
  { hl with
    nodup_waiters := by
      intro k'
      simp only [after, update_apply]
      split
      · exact nodup_adjoin (hl.nodup_waiters k)
      · exact hl.nodup_waiters k'
    live_of_waiter := by
      intro k' id' hw
      simp only [after, update_apply] at hw ⊢
      split at hw
      · next he => exact he ▸ h
      · exact hl.live_of_waiter hw }

theorem Consistent.leave (hl : l.Consistent) (id : SessionId) :
    (l.after (.leave id)).Consistent :=
  { hl with
    nodup_waiters := fun k => (hl.nodup_waiters k).filter _
    live_of_waiter := fun hw => hl.live_of_waiter (List.mem_filter.mp hw).1 }

theorem Consistent.after (hl : l.Consistent) {m : Move} (hm : m.Fits l) :
    (l.after m).Consistent := by
  cases m with
  | waste => exact hl.waste hm
  | letIn j => exact hl.letIn hm
  | join k id => exact hl.join hm
  | leave id => exact hl.leave id
  | hand j id => exact hl.hand hm
  | requeue j id => exact hl.requeue hm
  | advance j id n d => exact hl.advance hm
  | close live reply => exact hl.close hm
  | ask id wants => exact { hl with }

end Ledger

end JobBroker
