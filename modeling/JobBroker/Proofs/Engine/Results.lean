import JobBroker.Proofs.Engine.Conclusion
import JobBroker.Proofs.Engine.Run
import JobBroker.Store.Memory
import Mathlib.Data.List.Induction

/-!
# One result for each waiter

Whoever submits a job in the foreground waits for it until it ends or the session disconnects. At
the end of a job each waiter is sent one packet that tells so, and nobody else is.

* `InOrder.waiters_act` : who waits for a live job after an action.
* `InOrder.act_of_ended` : what the action that ends a job tells its waiters.
* `InOrder.noticesOf_act` : other actions tell nobody.
* `oneResult_run` : both, over whole runs.
-/

namespace JobBroker

open Text (decimal)

open Ledger (Move)

/-- The session that an action disconnects. -/
def Action.leaver? {σ : Type} : Action σ → Option SessionId
  | .disconnect id => some id
  | _ => none

namespace Engine

variable {σ : Type} {e : Engine σ}

/-- The packets in the outbox of a session that tell the end of the job with a handle. -/
def noticesOf (e : Engine σ) (handle : String) (id : SessionId) : List Packet :=
  (((e.session? id).map Session.outbox).getD []).filter (·.ends? = some handle)

theorem noticesOf_ledger (e : Engine σ) (handle : String) (id : SessionId) :
    e.ledger.noticesOf handle id = e.noticesOf handle id := by
  show (((e.session? id).map Session.notices).getD []).filter _ = _
  unfold noticesOf
  cases e.session? id with
  | none => rfl
  | some s =>
    show (s.outbox.filter (·.ends?.isSome)).filter _ = s.outbox.filter _
    rw [List.filter_filter]
    refine List.filter_congr fun p _ => ?_
    by_cases hp : p.ends? = some handle <;> simp [hp]

variable [JobStore σ] {a : Action σ}

/-! ### One action -/

/-- What is left of an action `a` once the session that disconnects has left its wait lists: plain
moves `rest` from `l`, which differs from the ledger of `e` in that session's absence. -/
structure PlainRest (e : Engine σ) (a : Action σ) (l : Ledger) (rest : List Move) (l' : Ledger) :
    Prop where
  path : l.Path rest l'
  consistent : l.Consistent
  plain : ∀ m ∈ rest, m.Plain
  cause : ∀ m ∈ rest, e.Cause a m
  /-- A job is handed out last. -/
  last : ∀ before m later, rest = before ++ m :: later → ∀ j id, .hand j id ∉ before
  jobs_eq : ∀ k, l.jobs k = e.live.find? k
  keys_eq : ∀ handle, l.keys handle = e.live.keyOf? handle
  wants_eq : ∀ id, l.wants id = e.wants id
  noticesOf_eq : ∀ handle id, l.noticesOf handle id = e.noticesOf handle id
  waiters_eq : ∀ k, l.waiters k = (e.waiters k).filter (a.leaver? ≠ some ·)

/-- An action is plain but for a session that leaves, unless it submits a job or says what a session
wants to know. -/
theorem Makes.plainRest {ms : List Move} {l' : Ledger} (he : e.InOrder) (h : e.Makes ms a)
    (hp : e.ledger.Path ms l') (hsubmit : ∀ j client, a ≠ .submit j client)
    (hask : ∀ id wants, a ≠ .wantExceptions id wants) : ∃ l rest, e.PlainRest a l rest l' := by
  have hplain : ∀ m ∈ ms, (∀ id, m ≠ .leave id) → m.Plain := by
    intro m hm hleave
    cases h.cause hm with
    | leave id => exact absurd rfl (hleave id)
    | ask id wants => exact absurd rfl (hask id wants)
    | waste j client | letIn j _ client | join j client => exact absurd rfl (hsubmit j client)
    | requeue | hand | advance | close => trivial
  by_cases ha : ∃ id, a = .disconnect id
  · obtain ⟨id, rfl⟩ := ha
    obtain ⟨rest, rfl, hrest⟩ := h
    cases hp with
    | cons hm hp =>
      refine ⟨_, rest, {
        path := hp
        consistent := he.consistent.after hm
        plain := fun m hm => hplain m (List.mem_cons_of_mem _ hm) ?_
        cause := fun m hm => Makes.cause ⟨rest, rfl, hrest⟩ (List.mem_cons_of_mem _ hm)
        last := fun before m later hcut j id' hj => ?_
        jobs_eq := fun _ => rfl
        keys_eq := fun _ => rfl
        wants_eq := fun _ => rfl
        noticesOf_eq := noticesOf_ledger e
        waiters_eq := fun k => ?_ }⟩
      · rintro id' rfl
        rcases hrest _ hm with ⟨-, _, h⟩ | ⟨-, _, -, h⟩ <;> exact Move.noConfusion h
      · exact not_givenUp_hand _ _ _ j (hrest _ (hcut ▸ List.mem_append_left _ hj))
      · refine List.filter_congr fun id' _ => ?_
        simp [Action.leaver?, eq_comm]
  · have hnone : a.leaver? = none := by
      cases a with
      | disconnect id => exact absurd ⟨id, rfl⟩ ha
      | _ => rfl
    refine ⟨_, ms, {
      path := hp
      consistent := he.consistent
      plain := fun m hm => hplain m hm ?_
      cause := fun m hm => h.cause hm
      last := fun before m later hcut j id hj => ?_
      jobs_eq := fun _ => rfl
      keys_eq := fun _ => rfl
      wants_eq := fun _ => rfl
      noticesOf_eq := noticesOf_ledger e
      waiters_eq := fun k => ?_ }⟩
    · rintro id rfl
      cases h.cause hm with
      | leave id => exact ha ⟨id, rfl⟩
    · cases h.cause (hcut ▸ List.mem_append_left _ hj) with
      | hand _ => exact Handed.last h before m later hcut j id hj
    · rw [hnone]
      exact (List.filter_eq_self.mpr fun id _ => by simp).symm

theorem Makes.plainRest_of_close {ms : List Move} {l' : Ledger} (he : e.InOrder)
    (h : e.Makes ms a) (hp : e.ledger.Path ms l')
    (hclose : ∃ live reply, .close live reply ∈ ms) : ∃ l rest, e.PlainRest a l rest l' := by
  obtain ⟨live, reply, hclose⟩ := hclose
  have hends : a.mayEnd := (h.cause hclose).ends.mayEnd
  refine h.plainRest he hp ?_ ?_
  · rintro j client rfl
    exact Bool.false_ne_true hends
  · rintro id wants rfl
    exact Bool.false_ne_true hends

/-- Plain moves leave those who wait for a live job, but for the session that disconnects. -/
theorem PlainRest.waiters {l l' : Ledger} {rest : List Move} (hr : e.PlainRest a l rest l')
    {handle : String} {k : JobKey} (hk : l'.keys handle = some k) :
    e.live.keyOf? handle = some k ∧ l'.waiters k = (e.waiters k).filter (a.leaver? ≠ some ·) := by
  cases hk₀ : l.keys handle with
  | none =>
    have hdead := (hr.path.plain_of_keys_none hr.consistent hr.plain hk₀).1
    exact absurd (hk.symm.trans hdead) (by simp)
  | some k₀ =>
    rcases hr.path.plain_cases hr.consistent hr.plain hk₀ with ⟨hk₁, hw, -⟩ | ⟨hs, -⟩
    · obtain rfl := Option.some.inj (hk₁.symm.trans hk)
      exact ⟨(hr.keys_eq handle).symm.trans hk₀, hw.trans (hr.waiters_eq k₀)⟩
    · exact absurd (hk.symm.trans hs.2) (by simp)

theorem path_joins {l l' : Ledger} {k : JobKey} {background : Bool} {client : Option SessionId}
    (hp : l.Path (joins k background client) l') :
    l'.keys = l.keys ∧ ∀ k' id, id ∈ l'.waiters k' ↔
      id ∈ l.waiters k' ∨ k' = k ∧ client = some id ∧ background = false := by
  rcases client with _ | id
  · cases hp
    exact ⟨rfl, by simp⟩
  · cases background with
    | true =>
      cases hp
      exact ⟨rfl, by simp⟩
    | false =>
      obtain rfl := hp.eq_after
      refine ⟨rfl, fun k' id' => ?_⟩
      simp only [Ledger.after, Function.update_apply]
      by_cases hk : k' = k
      · subst hk
        simp [Ledger.mem_adjoin, eq_comm]
      · simp [hk]

/-- Who waits for a live job after a submission. -/
theorem Submitted.waiters {l l' : Ledger} {background : Bool} {client : Option SessionId}
    {answer : Except JobError Job} {ms : List Move}
    (h : Submitted l background client answer ms) (hl : l.Consistent) (hp : l.Path ms l')
    {handle : String} {k : JobKey} (hk : l'.keys handle = some k) (id : SessionId) :
    id ∈ l'.waiters k ↔ (l.keys handle = some k ∧ id ∈ l.waiters k) ∨
      client = some id ∧ background = false ∧ ∃ j, answer = .ok j ∧ j.handle = handle := by
  cases h with
  | @joined live hlive =>
    obtain ⟨hkeys, hw⟩ := path_joins hp
    rw [hkeys] at hk
    have hkey : k = live.job.key ↔ live.job.handle = handle := by
      constructor
      · rintro rfl
        obtain ⟨live', hlive', hh⟩ := hl.jobs_of_keys hk
        rw [Option.some.inj (hlive.symm.trans hlive'), hh]
      · rintro rfl
        exact Option.some.inj (hk.symm.trans (hl.keys_handle hlive))
    have hanswer : (∃ j, (Except.ok live.job : Except JobError Job) = .ok j ∧ j.handle = handle) ↔
        live.job.handle = handle := by
      constructor
      · rintro ⟨j, h, hh⟩
        exact Except.ok.inj h ▸ hh
      · exact fun hh => ⟨_, rfl, hh⟩
    rw [hw, hkey, hanswer]
    tauto
  | letIn j =>
    cases hp with
    | cons hm hp =>
      obtain ⟨hkeys, hw⟩ := path_joins hp
      have hk : Function.update l.keys j.handle (some j.key) handle = some k :=
        (congrFun hkeys handle).symm.trans hk
      rw [Function.update_apply] at hk
      rw [hw, show (l.after (.letIn j)).waiters = l.waiters from rfl]
      split at hk
      · next hh =>
        -- the job is new, so nobody waits for it yet
        obtain rfl := Option.some.inj hk
        have hkeys : l.keys handle ≠ some j.key := fun hk => (hl.ne_of_letIn hm hk).1 hh
        have hnone : id ∉ l.waiters j.key := fun hw => hl.live_of_waiter hw hm.1
        simp [hnone, hh]
      · next hh =>
        simp [hk, (hl.ne_of_letIn hm hk).2, Ne.symm hh]
  | refused err =>
    obtain rfl := hp.eq_after
    have hk : l.keys handle = some k := hk
    simp [hk, Ledger.after]

/-- A session that waits for a job with a handle from an action on: it submits it in the foreground,
or joins it. -/
def Enters (e : Engine σ) (a : Action σ) (handle : String) (id : SessionId) : Prop :=
  ∃ j j', a = .submit j (some id) ∧ j.background = false ∧
    (e.submit j (some id)).1 = .ok j' ∧ j'.handle = handle

theorem enters_submit {j : Job} {client : Option SessionId} {handle : String} {id : SessionId} :
    e.Enters (.submit j client) handle id ↔ client = some id ∧ j.background = false ∧
      ∃ j', (e.submit j client).1 = .ok j' ∧ j'.handle = handle := by
  constructor
  · rintro ⟨j₁, j', h, hb, hanswer, hh⟩
    obtain ⟨rfl, rfl⟩ := Action.submit.inj h
    exact ⟨rfl, hb, j', hanswer, hh⟩
  · rintro ⟨rfl, hb, j', hanswer, hh⟩
    exact ⟨j, j', rfl, hb, hanswer, hh⟩

/-- Who waits for a live job after an action: who has waited before and stays, and who enters. -/
theorem InOrder.waiters_act (he : e.InOrder) (ha : e.Legal a)
    (hroom : e.handles.last < e.handles.last + 1) {handle : String} {k : JobKey}
    (hk : (e.act a).live.keyOf? handle = some k) (id : SessionId) :
    id ∈ (e.act a).waiters k ↔
      (e.live.keyOf? handle = some k ∧ id ∈ e.waiters k ∧ a.leaver? ≠ some id) ∨
        e.Enters a handle id := by
  obtain ⟨ms, hms, hp, he'⟩ := he.act ha hroom
  have hk' : (e.act a).ledger.keys handle = some k := hk
  by_cases hsubmit : ∃ j client, a = .submit j client
  · obtain ⟨j, client, rfl⟩ := hsubmit
    rw [enters_submit]
    have hw := Submitted.waiters hms he.consistent hp hk' id
    simp only [Action.leaver?, ne_eq, reduceCtorEq, not_false_eq_true, and_true]
    exact hw
  · have henters : ¬ e.Enters a handle id := fun ⟨j, _, h, _⟩ => hsubmit ⟨j, some id, h⟩
    by_cases hask : ∃ id wants, a = .wantExceptions id wants
    · obtain ⟨id', wants, rfl⟩ := hask
      obtain rfl := hms
      rw [hp.eq_after] at hk'
      have hwaiters : (e.act (.wantExceptions id' wants)).ledger.waiters = e.ledger.waiters := by
        rw [hp.eq_after]
        rfl
      rw [show (e.act (.wantExceptions id' wants)).waiters = e.waiters from hwaiters]
      have hk : e.live.keyOf? handle = some k := hk'
      simp [hk, henters, Action.leaver?]
    · obtain ⟨l, rest, hr⟩ := hms.plainRest he hp (fun j client h => hsubmit ⟨j, client, h⟩)
        fun id wants h => hask ⟨id, wants, h⟩
      obtain ⟨hkey, hw⟩ := hr.waiters hk'
      have hw : (e.act a).waiters k = (e.waiters k).filter (a.leaver? ≠ some ·) := hw
      simp [hw, hkey, henters]

/-- The action that ends a job closes jobs and nothing else, but that the session that disconnects
leaves its wait lists, and the worker that finds jobs lost may be handed another. -/
theorem Ends.cause {live : LiveJob} {reply : Bool → Body} {m : Move} (h : Ends e live a reply)
    (hm : e.Cause a m) (hplain : m.Plain) :
    (∃ live reply, m = .close live reply) ∨ ∃ j id, m = .hand j id := by
  cases hm with
  | close _ => exact .inl ⟨_, _, rfl⟩
  | hand _ => exact .inr ⟨_, _, rfl⟩
  | leave | ask | waste | letIn | join => exact hplain.elim
  | requeue j id hpolicy =>
    cases h with
    | abandoned hfail _ => exact absurd (hpolicy.symm.trans hfail) (by decide)
  | advance => nomatch h

/-- The action after which a live job is not live any more ends it in one of the ways a job may end:
each of its waiters is told, and nobody else. -/
theorem InOrder.act_of_ended (he : e.InOrder) (ha : e.Legal a)
    (hroom : e.handles.last < e.handles.last + 1) {handle : String} {k : JobKey}
    (hk : e.live.keyOf? handle = some k) (hgone : (e.act a).live.keyOf? handle = none) :
    ∃ live reply, e.live.find? k = some live ∧ live.job.handle = handle ∧ Ends e live a reply ∧
      (e.act a).waiters k = [] ∧
      ∀ id, (e.act a).noticesOf handle id = e.noticesOf handle id ++
        if id ∈ e.waiters k ∧ a.leaver? ≠ some id then [.response (reply (e.wants id))]
        else [] := by
  obtain ⟨ms, hms, hp, -⟩ := he.act ha hroom
  have hgone : (e.act a).ledger.keys handle = none := hgone
  have hne : e.ledger.keys handle ≠ none := Option.ne_none_iff_exists'.mpr ⟨k, hk⟩
  obtain ⟨l, rest, hr⟩ := hms.plainRest_of_close he hp (hp.exists_close he.consistent hne hgone)
  rcases hr.path.plain_cases hr.consistent hr.plain ((hr.keys_eq handle).trans hk) with
    ⟨hkept, -⟩ | ⟨-, hnil, before, live, reply, later, hcut, hh, hlive, htold⟩
  · exact absurd (hkept.symm.trans hgone) (by simp)
  · have hends : Ends e live a reply := (hr.cause _ (hcut ▸ by simp)).ends
    have hlive : l.jobs k = some live := by
      refine hlive.resolve_right fun ⟨m, hm, hne⟩ => ?_
      have hm' : m ∈ rest := hcut ▸ List.mem_append_left _ hm
      rcases hends.cause (hr.cause m hm') (hr.plain m hm') with ⟨_, _, rfl⟩ | ⟨j, id, rfl⟩
      · exact hne _ _ rfl
      · exact hr.last before _ later hcut j id hm
    refine ⟨live, reply, (hr.jobs_eq k).symm.trans hlive, hh, hends, hnil, fun id => ?_⟩
    have hwaits : id ∈ l.waiters k ↔ id ∈ e.waiters k ∧ a.leaver? ≠ some id := by
      rw [hr.waiters_eq, List.mem_filter, decide_eq_true_iff]
    rw [← noticesOf_ledger, htold, hr.noticesOf_eq, hr.wants_eq]
    simp only [hwaits]

/-- An action that ends no job with a handle tells nobody that it has ended. -/
theorem InOrder.noticesOf_act (he : e.InOrder) (ha : e.Legal a)
    (hroom : e.handles.last < e.handles.last + 1) {handle : String}
    (h : e.live.keyOf? handle ≠ none → (e.act a).live.keyOf? handle ≠ none) (id : SessionId) :
    (e.act a).noticesOf handle id = e.noticesOf handle id := by
  obtain ⟨ms, hms, hp, -⟩ := he.act ha hroom
  rw [← noticesOf_ledger, ← noticesOf_ledger]
  by_cases hclose : ∃ live reply, .close live reply ∈ ms
  · obtain ⟨l, rest, hr⟩ := hms.plainRest_of_close he hp hclose
    rw [noticesOf_ledger e, ← hr.noticesOf_eq]
    cases hk : l.keys handle with
    | none => exact (hr.path.plain_of_keys_none hr.consistent hr.plain hk).2 id
    | some k =>
      rcases hr.path.plain_cases hr.consistent hr.plain hk with ⟨-, -, htold⟩ | ⟨hs, -⟩
      · exact htold id
      · have hlive : e.live.keyOf? handle = some k := (hr.keys_eq handle).symm.trans hk
        exact absurd hs.2 (h (by rw [hlive]; simp))
  · have hnotices := (hp.of_not_close he.consistent fun live reply h => hclose ⟨live, reply, h⟩).2
    rw [Ledger.noticesOf, hnotices, Ledger.noticesOf]

/-! ### Runs -/

/-- The answer to a submission is a job whose handle has been given out. -/
theorem Enters.issued {ms : List Move} {l' : Ledger} {handle : String} {id : SessionId}
    (h : e.Enters a handle id) (he : e.InOrder) (hms : e.Makes ms a) (hp : e.ledger.Path ms l') :
    l'.Issued handle := by
  obtain ⟨j, j', rfl, -, hanswer, rfl⟩ := h
  have hms : Submitted e.ledger j.background (some id) (e.submit j (some id)).1 ms := hms
  rw [hanswer] at hms
  cases hms with
  | joined hlive => exact (he.consistent.issued hlive).path hp
  | letIn =>
    cases hp with
    | cons hm hp =>
      exact ((he.consistent.after hm).issued (k := j'.key) (Function.update_self ..)).path hp

/-- In the course of a run a session has entered the wait list of the job with a handle, and it has
not disconnected since. -/
def Awaits (e : Engine σ) (as : List (Action σ)) (handle : String) (id : SessionId) : Prop :=
  ∃ past a later, as = past ++ a :: later ∧ (e.run past).Enters a handle id ∧
    .disconnect id ∉ later

theorem awaits_concat {as : List (Action σ)} {handle : String} {id : SessionId} :
    e.Awaits (as ++ [a]) handle id ↔
      e.Awaits as handle id ∧ a.leaver? ≠ some id ∨ (e.run as).Enters a handle id := by
  have hleaver : a.leaver? ≠ some id ↔ a ≠ .disconnect id := by
    cases a <;> simp [Action.leaver?]
  rw [hleaver]
  constructor
  · rintro ⟨past, b, later, has, henters, hstays⟩
    rcases List.eq_nil_or_concat later with rfl | ⟨later, c, rfl⟩
    · obtain ⟨rfl, hb⟩ := List.append_inj' has rfl
      obtain rfl := List.singleton_inj.mp hb
      exact .inr henters
    · rw [List.concat_eq_append] at has hstays
      obtain ⟨rfl, hc⟩ := List.append_inj' (has.trans (by simp :
        past ++ b :: (later ++ [c]) = (past ++ b :: later) ++ [c])) rfl
      obtain rfl := List.singleton_inj.mp hc
      exact .inl ⟨⟨past, b, later, rfl, henters, fun h => hstays (List.mem_append_left _ h)⟩,
        fun h => hstays (h ▸ List.mem_append_right _ (List.mem_singleton_self _))⟩
  · rintro (⟨⟨past, b, later, rfl, henters, hstays⟩, hne⟩ | henters)
    · refine ⟨past, b, later ++ [a], by simp, henters, fun h => ?_⟩
      rcases List.mem_append.mp h with h | h
      · exact hstays h
      · exact hne (List.mem_singleton.mp h).symm
    · exact ⟨as, a, [], rfl, henters, by simp⟩

theorem IsRun.issued_of_awaits {as : List (Action σ)} (h : e.IsRun as) (he : e.InOrder)
    {handle : String} {id : SessionId} (hw : e.Awaits as handle id) :
    (e.run as).ledger.Issued handle := by
  obtain ⟨past, a, later, rfl, henters, -⟩ := hw
  obtain ⟨-, he₁, ha, hroom, he₂, hlater⟩ := h.split he
  obtain ⟨ms, hms, hp, -⟩ := he₁.act ha hroom
  obtain ⟨ms', hp', -⟩ := hlater.path he₂
  rw [run_append]
  exact (henters.issued he₁ hms hp).path hp'

/-- After a run that began without jobs, those who wait for a live job are those who have entered
its wait list and are still there. -/
theorem IsRun.mem_waiters_iff {as : List (Action σ)} (h : e.IsRun as) (he : e.InOrder)
    (hempty : ∀ handle, e.live.keyOf? handle = none) {handle : String} {k : JobKey}
    (hk : (e.run as).live.keyOf? handle = some k) (id : SessionId) :
    id ∈ (e.run as).waiters k ↔ e.Awaits as handle id := by
  induction as using List.reverseRecOn generalizing k with
  | nil => exact absurd (hk.symm.trans (hempty handle)) (by simp)
  | append_singleton as a ih =>
    obtain ⟨hpast, he₁, ha, hroom, -, -⟩ := h.split he
    obtain ⟨ms, -, hp, -⟩ := he₁.act ha hroom
    rw [run_append] at hk ⊢
    have hk : ((e.run as).act a).live.keyOf? handle = some k := hk
    rw [awaits_concat]
    refine (he₁.waiters_act ha hroom hk id).trans (or_congr_left ?_)
    constructor
    · exact fun ⟨hk, hw, hstays⟩ => ⟨(ih hpast hk).mp hw, hstays⟩
    · rintro ⟨hw, hstays⟩
      -- a handle that was answered is live under the same key as now
      cases hk₀ : (e.run as).ledger.keys handle with
      | none =>
        have hs : (e.run as).ledger.Spent handle := ⟨hpast.issued_of_awaits he hw, hk₀⟩
        exact absurd (hk.symm.trans (hs.path hp).2) (by simp)
      | some k₀ =>
        rcases Ledger.keys_eq_or_spent hk₀ he₁.consistent hp with hk₁ | hs
        · obtain rfl := Option.some.inj (hk₁.symm.trans hk)
          exact ⟨hk₀, (ih hpast hk₀).mpr hw, hstays⟩
        · exact absurd (hk.symm.trans hs.2) (by simp)

/-- What a run `as` from `e` says about the results that the waiters of a job are sent. -/
structure OneResult (e : Engine σ) (as : List (Action σ)) : Prop where
  mem_waiters_iff : ∀ {handle k}, (e.run as).live.keyOf? handle = some k → ∀ id,
    id ∈ (e.run as).waiters k ↔ e.Awaits as handle id
  live_of_waiter : ∀ {k id}, id ∈ (e.run as).waiters k → (e.run as).live.find? k ≠ none
  /-- While a job is live, nobody has been told that it has ended. -/
  untold : ∀ {handle}, (e.run as).live.keyOf? handle ≠ none → ∀ id,
    (e.run as).noticesOf handle id = []
  /-- A handle leaves the live ones when its job ends, and only then. -/
  concludes_iff : ∀ {past a later handle}, as = past ++ a :: later →
    ((e.run past).Concludes handle a ↔ (e.run past).live.keyOf? handle ≠ none ∧
      ((e.run past).act a).live.keyOf? handle = none)
  /-- The action that ends a job tells each waiter once how, and tells nobody else. -/
  ended : ∀ {past a later handle k}, as = past ++ a :: later →
    (e.run past).live.keyOf? handle = some k →
    ((e.run past).act a).live.keyOf? handle = none →
    ∃ live reply, (e.run past).live.find? k = some live ∧ live.job.handle = handle ∧
      Ends (e.run past) live a reply ∧ ((e.run past).act a).waiters k = [] ∧
      (∀ id, e.Awaits past handle id → a.leaver? ≠ some id →
        ((e.run past).act a).noticesOf handle id = [.response (reply ((e.run past).wants id))]) ∧
      ∀ id, ¬ (e.Awaits past handle id ∧ a.leaver? ≠ some id) →
        ((e.run past).act a).noticesOf handle id = []
  /-- Any other action tells nobody that the job has ended. -/
  noticesOf_eq : ∀ {past a later handle}, as = past ++ a :: later →
    ((e.run past).live.keyOf? handle ≠ none → ((e.run past).act a).live.keyOf? handle ≠ none) →
    ∀ id, ((e.run past).act a).noticesOf handle id = (e.run past).noticesOf handle id

omit [JobStore σ] in
theorem InOrder.noticesOf_eq_nil (he : e.InOrder) {handle : String}
    (hk : e.live.keyOf? handle ≠ none) (id : SessionId) : e.noticesOf handle id = [] := by
  rw [← noticesOf_ledger]
  refine List.filter_eq_nil_iff.mpr fun p hp hends => hk ?_
  exact (he.consistent.spent_of_notice hp (by simpa using hends)).2

theorem IsRun.oneResult {as : List (Action σ)} (h : e.IsRun as) (he : e.InOrder)
    (hempty : ∀ handle, e.live.keyOf? handle = none) : e.OneResult as where
  mem_waiters_iff := fun hk id => h.mem_waiters_iff he hempty hk id
  live_of_waiter := fun hw => (h.inOrder he).consistent.live_of_waiter hw
  untold := fun hk id => (h.inOrder he).noticesOf_eq_nil hk id
  concludes_iff := by
    intro past a later handle has
    subst has
    obtain ⟨-, he₁, ha, hroom, -, -⟩ := h.split he
    exact he₁.concludes_iff ha hroom
  ended := by
    intro past a later handle k has hk hgone
    subst has
    obtain ⟨hpast, he₁, ha, hroom, -, -⟩ := h.split he
    obtain ⟨live, reply, hlive, hh, hends, hnil, htold⟩ := he₁.act_of_ended ha hroom hk hgone
    have htold : ∀ id, ((e.run past).act a).noticesOf handle id =
        if id ∈ (e.run past).waiters k ∧ a.leaver? ≠ some id then
          [.response (reply ((e.run past).wants id))] else [] := by
      intro id
      rw [htold, he₁.noticesOf_eq_nil (by rw [hk]; simp), List.nil_append]
    refine ⟨live, reply, hlive, hh, hends, hnil, fun id hw hstays => ?_, fun id hw => ?_⟩
    · rw [htold, if_pos ⟨(hpast.mem_waiters_iff he hempty hk id).mpr hw, hstays⟩]
    · rw [htold, if_neg fun h => hw ⟨(hpast.mem_waiters_iff he hempty hk id).mp h.1, h.2⟩]
  noticesOf_eq := by
    intro past a later handle has hkept id
    subst has
    obtain ⟨hpast, he₁, ha, hroom, -, -⟩ := h.split he
    exact he₁.noticesOf_act ha hroom hkept id

/-- Whoever waits for a job is told once how it has ended, and nobody else is told. -/
theorem oneResult_run (settings : EngineSettings) (store : σ) (now : Int64) (newId : Nat → String)
    (isLinked : Bool) (as : List (Action σ))
    (h : (start settings store now newId isLinked).IsRun as) :
    (start settings store now newId isLinked).OneResult as :=
  h.oneResult (start_inOrder settings store now newId isLinked) fun _ => rfl

/-- Of two sessions that wait for a job one wants to be told of exceptions, and a third has sent the
job in the background. -/
theorem oneResult_run_exception :
    ∃ as : List (Action MemoryStore), (start .default MemoryStore.empty 0 decimal true).IsRun as ∧
      ((start .default MemoryStore.empty 0 decimal true).run as).noticesOf "H:localhost:1" 1 =
        [.response (.workException "H:localhost:1" [7])] ∧
      ((start .default MemoryStore.empty 0 decimal true).run as).noticesOf "H:localhost:1" 2 =
        [.response (.workFail "H:localhost:1")] ∧
      ((start .default MemoryStore.empty 0 decimal true).run as).noticesOf "H:localhost:1" 3 = [] ∧
      (start .default MemoryStore.empty 0 decimal true).OneResult as := by
  refine ⟨[.arrive "1.1.1.1:1", .arrive "1.1.1.1:2", .arrive "1.1.1.1:3", .arrive "1.1.1.1:4",
    .connect 0, .connect 1, .connect 2, .connect 3, .canDo 0 "f" none,
    .submit (.new "f" "u" []) (some 1), .submit (.new "f" "u" []) (some 2),
    .submit { Job.new "f" "u" [] with background := true } (some 3), .wantExceptions 1 true,
    .submit (.new "f" "u" []) (some 1), .grab 0, .finish "H:localhost:1" (.exception [7])],
    ?_, ?_, ?_, ?_, oneResult_run .default MemoryStore.empty 0 decimal true _ ?_⟩ <;> decide +kernel

end Engine

end JobBroker
