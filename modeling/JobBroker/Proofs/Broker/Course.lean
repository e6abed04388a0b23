import JobBroker.Proofs.Broker.Run
import JobBroker.Store.Memory

/-!
# What a client is told of a job

Of each job a client is told first that it is taken in, by the reply to its submission; then come
reports, and last of all how the job has ended. Replies are written at once and all else goes
through the outbox, so what is still in the outbox counts as told.

* `Told` : what a client has been told of the jobs, and what the engine knows of it.
* `Told.act`, `Told.reply`, `Told.push` : what is done and written keeps it.
* `course_run` : what is written on a connection about a job, over whole runs.
-/

namespace JobBroker

open Text (decimal)

open Ledger (Move)

/-! ### The course of a job -/

/-- The packets that have been written on a connection. -/
def written (log : List Exchange) (id : SessionId) : List Packet := log.flatMap (·.packetsTo id)

/-- On a connection a job has been submitted in the foreground, and has been answered a handle. -/
def Asked (log : List Exchange) (id : SessionId) (handle : String) : Prop :=
  ∃ event j reply, .answered id event reply ∈ log ∧ event.submission? = some j ∧
    j.background = false ∧ .packet (.response (.jobCreated handle)) ∈ reply

/-- Packets about one job as a client shall get them: that it is taken in, once at least, then
reports, and how it has ended, once at most, with nothing behind it. -/
def IsCourse (handle : String) (ps : List Packet) : Prop :=
  ps = [] ∨ ∃ (first : Packet) (middle : List Packet) (last : Option Packet),
    ps = first :: (middle ++ last.toList) ∧ first.created? = some handle ∧
    (∀ p ∈ middle, p.created? = some handle ∨ p.reports? = some handle) ∧
    ∀ p ∈ last, p.ends? = some handle

/-- What is written on a connection about the job with a handle. -/
structure Course (log : List Exchange) (id : SessionId) (handle : String) : Prop where
  isCourse : IsCourse handle ((written log id).filter (·.about? = some handle))
  /-- Who has only submitted the job in the background is told nothing else than that it is taken
  in. -/
  background : (∀ event j reply, .answered id event reply ∈ log → event.submission? = some j →
      .packet (.response (.jobCreated handle)) ∈ reply → j.background = true) →
    ∀ p ∈ written log id, p.about? = some handle → p.created? = some handle

variable {log : List Exchange} {id : SessionId} {handle : String}

theorem Asked.mono (h : Asked log id handle) (log' : List Exchange) :
    Asked (log ++ log') id handle := by
  obtain ⟨event, j, reply, hlog, h⟩ := h
  exact ⟨event, j, reply, List.mem_append_left _ hlog, h⟩

theorem Asked.mem_written (h : Asked log id handle) :
    .response (.jobCreated handle) ∈ written log id := by
  obtain ⟨event, j, reply, hlog, -, -, hreply⟩ := h
  refine List.mem_flatMap.mpr ⟨_, hlog, ?_⟩
  simp only [Exchange.packetsTo, if_true]
  exact List.mem_filterMap.mpr ⟨_, hreply, rfl⟩

theorem written_append (log : List Exchange) (x : Exchange) (id : SessionId) :
    written (log ++ [x]) id = written log id ++ x.packetsTo id := by
  simp [written]

theorem mem_head?_append {ps qs : List Packet} {p : Packet} (h : p ∈ (ps ++ qs).head?) :
    p ∈ ps.head? ∨ ps = [] ∧ p ∈ qs := by
  cases ps with
  | nil => exact .inr ⟨rfl, List.mem_of_mem_head? h⟩
  | cons q ps => exact .inl h

/-- Packets about one job of which none stands behind an end are reports, or say that the job is
taken in, but for the last. -/
theorem exists_middle_last {ps : List Packet} (habout : ∀ p ∈ ps, p.about? = some handle)
    (hpairwise : ps.Pairwise Packet.Precedes) : ∃ (middle : List Packet) (last : Option Packet),
      ps = middle ++ last.toList ∧
      (∀ p ∈ middle, p.created? = some handle ∨ p.reports? = some handle) ∧
      ∀ p ∈ last, p.ends? = some handle := by
  have hother : ∀ p ∈ ps, p.ends? ≠ some handle →
      p.created? = some handle ∨ p.reports? = some handle := by
    intro p hp hends
    rcases Packet.about?_eq_some_iff.mp (habout p hp) with h | h | h
    · exact .inl h
    · exact .inr h
    · exact absurd h hends
  rcases List.eq_nil_or_concat ps with rfl | ⟨init, q, rfl⟩
  · exact ⟨[], none, rfl, by simp, by simp⟩
  · rw [List.concat_eq_append] at *
    have hinit : ∀ p ∈ init, p.ends? ≠ some handle := fun p hp hends =>
      (List.pairwise_append.mp hpairwise).2.2 p hp q (by simp) handle hends
        (habout q (by simp))
    have hmiddle : ∀ p ∈ init, p.created? = some handle ∨ p.reports? = some handle := fun p hp =>
      hother p (List.mem_append_left _ hp) (hinit p hp)
    by_cases hends : q.ends? = some handle
    · exact ⟨init, some q, rfl, hmiddle, by simpa using hends⟩
    · refine ⟨init ++ [q], none, by simp, fun p hp => ?_, by simp⟩
      rcases List.mem_append.mp hp with hp | hp
      · exact hmiddle p hp
      · exact List.mem_singleton.mp hp ▸ hother q (by simp) hends

namespace Engine

variable {σ : Type} [JobStore σ] {e : Engine σ} {a : Action σ}

/-- What clients have been told of jobs, in what is written and what is in the outboxes. -/
structure Told (e : Engine σ) (log : List Exchange) : Prop where
  inOrder : e.InOrder
  pairwise : ∀ id, (written log id ++ e.outbox id).Pairwise Packet.Precedes
  /-- What is told of a job begins with a reply. -/
  first : ∀ id handle, ∀ p ∈ ((written log id).filter (·.about? = some handle)).head?,
    p.created? = some handle
  created : ∀ {id p}, p ∈ e.outbox id → p.created? = none
  spent : ∀ {id p handle}, p ∈ written log id ++ e.outbox id → p.ends? = some handle →
    e.ledger.Spent handle
  asked : ∀ {id p handle}, p ∈ written log id ++ e.outbox id → p.about? = some handle →
    p.created? = none → Asked log id handle
  asked_of_waiter : ∀ {id handle k}, e.live.keyOf? handle = some k → id ∈ e.waiters k →
    Asked log id handle

/-- What an action puts into the outboxes, if those it lets wait have asked for the job. -/
theorem Told.act (h : Told e log) (ha : e.Legal a) (hroom : e.handles.last < e.handles.last + 1)
    (hasked : ∀ handle id, e.Enters a handle id → Asked log id handle) : Told (e.act a) log := by
  obtain ⟨ms, -, hpath, he'⟩ := h.inOrder.act ha hroom
  have hmail := h.inOrder.mail_act ha hroom
  exact {
    inOrder := he'
    pairwise := by
      intro id
      obtain ⟨ps, hps, hpairwise, hlive⟩ := hmail id
      rw [hps, ← List.append_assoc]
      refine List.pairwise_append.mpr ⟨h.pairwise id, hpairwise, fun p hp q hq handle hends => ?_⟩
      -- the job of which `p` tells the end has ended before, and that of `q` is live
      intro habout
      obtain ⟨k, hk, -⟩ := (hlive q hq).2 handle habout
      exact absurd (hk.symm.trans (h.spent hp hends).2) (by simp)
    first := h.first
    created := by
      intro id p hp
      obtain ⟨ps, hps, -, hlive⟩ := hmail id
      rw [hps] at hp
      rcases List.mem_append.mp hp with hp | hp
      · exact h.created hp
      · exact (hlive p hp).1
    spent := by
      intro id p handle hp hends
      obtain ⟨ps, hps, -, hlive⟩ := hmail id
      rw [hps, ← List.append_assoc] at hp
      rcases List.mem_append.mp hp with hp | hp
      · exact (h.spent hp hends).path hpath
      · have habout := Packet.about?_eq_some_iff.mpr (.inr (.inr hends))
        obtain ⟨k, hk, -, hgone⟩ := (hlive p hp).2 handle habout
        refine (Ledger.keys_eq_or_spent hk h.inOrder.consistent hpath).resolve_left fun hk' => ?_
        exact absurd (hk'.symm.trans (hgone hends)) (by simp)
    asked := by
      intro id p handle hp habout hcreated
      obtain ⟨ps, hps, -, hlive⟩ := hmail id
      rw [hps, ← List.append_assoc] at hp
      rcases List.mem_append.mp hp with hp | hp
      · exact h.asked hp habout hcreated
      · obtain ⟨k, hk, hwaits, -⟩ := (hlive p hp).2 handle habout
        exact h.asked_of_waiter hk hwaits
    asked_of_waiter := by
      intro id handle k hk hwaits
      rcases (h.inOrder.waiters_act ha hroom hk id).mp hwaits with ⟨hk, hwaits, -⟩ | henters
      · exact h.asked_of_waiter hk hwaits
      · exact hasked handle id henters }

omit [JobStore σ] in
/-- A reply is written that says at most that a job is taken in, and of none that has ended. -/
theorem Told.reply (h : Told e log) (id : SessionId) (event : Event) {reply : List Frame}
    (hreply : ∀ p, .packet p ∈ reply → ∀ handle, p.about? = some handle →
      p.created? = some handle ∧ ¬ e.ledger.Spent handle) :
    Told e (log ++ [.answered id event reply]) := by
  have hpackets : ∀ {i p handle}, p ∈ (Exchange.answered id event reply).packetsTo i →
      p.about? = some handle → p.created? = some handle ∧ ¬ e.ledger.Spent handle := by
    intro i p handle hp habout
    simp only [Exchange.packetsTo] at hp
    split at hp
    · obtain ⟨frame, hframe, hp⟩ := List.mem_filterMap.mp hp
      cases frame with
      | packet q => exact hreply p (Option.some.inj hp ▸ hframe) handle habout
      | text line => exact absurd hp (by simp)
    · exact absurd hp List.not_mem_nil
  have hopen : ∀ {i p handle}, p ∈ (Exchange.answered id event reply).packetsTo i →
      p.ends? ≠ some handle := by
    intro i p handle hp hends
    have hcreated := (hpackets hp (Packet.about?_eq_some_iff.mpr (.inr (.inr hends)))).1
    exact absurd ((Packet.ends?_of_created hcreated).symm.trans hends) (by simp)
  -- a reply is written before what is in the outbox already
  have hmem : ∀ {i p}, p ∈ written (log ++ [.answered id event reply]) i ++ e.outbox i →
      p ∈ written log i ++ e.outbox i ∨ p ∈ (Exchange.answered id event reply).packetsTo i := by
    intro i p hp
    rw [written_append] at hp
    simp only [List.mem_append] at hp ⊢
    tauto
  exact {
    inOrder := h.inOrder
    pairwise := by
      intro i
      obtain ⟨hwritten, houtbox, hcross⟩ := List.pairwise_append.mp (h.pairwise i)
      rw [written_append]
      refine List.pairwise_append.mpr ⟨List.pairwise_append.mpr ⟨hwritten, ?_, ?_⟩, houtbox, ?_⟩
      · exact List.pairwise_of_forall_mem_list fun p hp q _ handle hends => absurd hends (hopen hp)
      · intro p hp q hq handle hends habout
        exact (hpackets hq habout).2 (h.spent (List.mem_append_left _ hp) hends)
      · intro p hp q hq handle hends
        rcases List.mem_append.mp hp with hp | hp
        · exact hcross p hp q hq handle hends
        · exact absurd hends (hopen hp)
    first := by
      intro i handle p hp
      rw [written_append, List.filter_append] at hp
      rcases mem_head?_append hp with hp | ⟨-, hp⟩
      · exact h.first i handle p hp
      · obtain ⟨hp, habout⟩ := List.mem_filter.mp hp
        exact (hpackets hp (by simpa using habout)).1
    created := h.created
    spent := by
      intro i p handle hp hends
      rcases hmem hp with hp | hp
      · exact h.spent hp hends
      · exact absurd hends (hopen hp)
    asked := by
      intro i p handle hp habout hcreated
      rcases hmem hp with hp | hp
      · exact (h.asked hp habout hcreated).mono _
      · exact absurd (hcreated.symm.trans (hpackets hp habout).1) (by simp)
    asked_of_waiter := fun hk hwaits => (h.asked_of_waiter hk hwaits).mono _ }

omit [JobStore σ] in
/-- The first packet of an outbox is written. -/
theorem Told.push (h : Told e log) {p : Packet} {ps : List Packet} (hps : e.outbox id = p :: ps) :
    Told (e.setOutbox id ps) (log ++ [.pushed id p]) := by
  have hpackets : ∀ i, (Exchange.pushed id p).packetsTo i = if i = id then [p] else [] := by
    intro i
    simp [Exchange.packetsTo, eq_comm]
  have hsame : ∀ i, written (log ++ [.pushed id p]) i ++ (e.setOutbox id ps).outbox i =
      written log i ++ e.outbox i := by
    intro i
    rw [written_append, hpackets, outbox_setOutbox hps]
    by_cases hi : i = id
    · subst hi
      simp [hps]
    · simp [hi]
  exact {
    inOrder := h.inOrder.setOutbox hps
    pairwise := fun i => hsame i ▸ h.pairwise i
    first := by
      intro i handle q hq
      rw [written_append, List.filter_append] at hq
      rcases mem_head?_append hq with hq | ⟨hfirst, hq⟩
      · exact h.first i handle q hq
      · -- the reply to a submission has been written before anything else about its job
        obtain ⟨hpushed, habout⟩ := List.mem_filter.mp hq
        have habout : q.about? = some handle := by simpa using habout
        rw [hpackets] at hpushed
        split at hpushed
        · next hi =>
          subst hi
          obtain rfl := List.mem_singleton.mp hpushed
          have hmem : q ∈ e.outbox i := hps ▸ List.mem_cons_self
          have hasked := h.asked (List.mem_append_right _ hmem) habout (h.created hmem)
          have hreply : .response (.jobCreated handle) ∈
              (written log i).filter (·.about? = some handle) :=
            List.mem_filter.mpr ⟨hasked.mem_written, by simp [Packet.about?, Packet.response]⟩
          rw [hfirst] at hreply
          exact absurd hreply List.not_mem_nil
        · exact absurd hpushed List.not_mem_nil
    created := by
      intro i q hq
      rw [outbox_setOutbox hps] at hq
      split at hq
      · exact h.created (hps ▸ List.mem_cons_of_mem _ hq)
      · exact h.created hq
    spent := fun hq hends => h.spent (hsame _ ▸ hq) hends
    asked := fun hq habout hcreated => (h.asked (hsame _ ▸ hq) habout hcreated).mono _
    asked_of_waiter := fun hk hwaits => (h.asked_of_waiter hk hwaits).mono _ }

/-- The handle that answers a submission is not one of a job that has ended. -/
theorem InOrder.not_spent_of_answer (he : e.InOrder) {j j' : Job} {client : Option SessionId}
    (ha : e.Legal (.submit j client)) (hroom : e.handles.last < e.handles.last + 1)
    (hanswer : (e.submit j client).1 = .ok j') : ¬ e.ledger.Spent j'.handle := by
  intro hspent
  obtain ⟨ms, hms, hpath, -⟩ := he.act ha hroom
  have hms : Submitted e.ledger j.background client (e.submit j client).1 ms := hms
  rw [hanswer] at hms
  cases hms with
  | joined hlive => exact absurd ((he.consistent.keys_handle hlive).symm.trans hspent.2) (by simp)
  | letIn =>
    cases hpath with
    | cons hm _ => exact hm.not_issued hspent.1

omit [JobStore σ] in
theorem legal_submit (hid : id ∈ e.connected) (j : Job) :
    e.Legal (.submit j (if j.background then none else some id)) := by
  split
  · trivial
  · exact hid

/-- A submission is answered, and its client waits if the job is in the foreground. -/
theorem Told.submit (h : Told e log) (hroom : e.handles.last < e.handles.last + 1)
    (hid : id ∈ e.connected) {event : Event} {j : Job} (hj : event.submission? = some j) :
    Told (e.answerSubmission id j).2 (log ++ [.answered id event
      ((e.answerSubmission id j).1.map fun b => Frame.packet (.response b)).toList]) := by
  rw [answerSubmission_eq]
  have ha := legal_submit hid j
  cases hanswer : (e.submit j (if j.background then none else some id)).1 with
  | error err =>
    refine (h.reply id event fun p hp handle habout => ?_).act ha hroom fun handle i henters => ?_
    · simp only [Option.map_some, Option.toList_some, List.mem_singleton, Frame.packet.injEq] at hp
      subst hp
      exact absurd habout (by simp [Packet.about?, Packet.response, refusal])
    · obtain ⟨-, -, j', hj', -⟩ := enters_submit.mp henters
      exact absurd (hanswer.symm.trans hj') (by simp)
  | ok j' =>
    refine (h.reply id event fun p hp handle habout => ?_).act ha hroom fun handle i henters => ?_
    · simp only [Option.map_some, Option.toList_some, List.mem_singleton, Frame.packet.injEq] at hp
      subst hp
      obtain rfl : j'.handle = handle := Option.some.inj habout
      exact ⟨rfl, h.inOrder.not_spent_of_answer ha hroom hanswer⟩
    · obtain ⟨hclient, hbackground, j'', hj'', rfl⟩ := enters_submit.mp henters
      obtain rfl := Except.ok.inj (hanswer.symm.trans hj'')
      obtain rfl : id = i := by simpa [hbackground] using hclient
      exact ⟨event, j, _, List.mem_append_right _ (List.mem_singleton_self _), hj, hbackground,
        by simp⟩

/-- Only submissions use up handles. -/
theorem InOrder.last_act (he : e.InOrder) (ha : e.Legal a)
    (hroom : e.handles.last < e.handles.last + 1) (hsubmit : a.submits = false) :
    (e.act a).handles.last = e.handles.last := by
  obtain ⟨ms, hms, hpath, -⟩ := he.act ha hroom
  have hnone : ms.countP Move.issues = 0 := by
    refine List.countP_eq_zero.mpr fun m hm hissues => ?_
    cases hms.cause hm with
    | waste | letIn => exact nomatch hsubmit
    | leave | requeue | ask | join | hand | advance | close =>
      exact absurd hissues (by simp [Move.issues])
  have hlast : (e.act a).handles.last.toNat = e.handles.last.toNat + ms.countP Move.issues :=
    hpath.last_eq
  exact UInt64.toNat_inj.mp (by omega)

/-- Whatever is done that submits nothing keeps what has been told, and uses up no handle. -/
theorem Told.works {e' : Engine σ} (h : Told e log) (hroom : e.handles.last < e.handles.last + 1)
    (hworks : Works e e') : Told e' log ∧ e'.handles.last = e.handles.last := by
  induction hworks with
  | refl => exact ⟨h, rfl⟩
  | tail _ hact ih =>
    obtain ⟨a, ha, hsubmit, rfl⟩ := hact
    obtain ⟨htold, hlast⟩ := ih
    rw [← hlast] at hroom
    refine ⟨htold.act ha hroom fun handle id henters => ?_, ?_⟩
    · obtain ⟨j, _, rfl, -⟩ := henters
      exact nomatch hsubmit
    · exact (htold.inOrder.last_act ha hroom hsubmit).trans hlast

/-- An exchange keeps what has been told, and uses up one handle at most. -/
theorem Told.emits {e' : Engine σ} {xs : List Exchange} (h : Told e log)
    (hroom : e.handles.last < e.handles.last + 1) (hemits : e.Emits xs e') :
    Told e' (log ++ xs) ∧ e'.handles.last.toNat ≤ e.handles.last.toNat + 1 := by
  cases hemits with
  | nothing => exact ⟨by simpa using h, Nat.le_succ _⟩
  | @reply id event frames habout =>
    refine ⟨h.reply id event fun p hp handle hp' => ?_, Nat.le_succ _⟩
    exact absurd ((habout p hp).symm.trans hp') (by simp)
  | @submit id event j hid hj =>
    refine ⟨h.submit hroom hid hj, ?_⟩
    obtain ⟨ms, hms, hpath, -⟩ := h.inOrder.act (legal_submit hid j) hroom
    rw [answerSubmission_eq]
    exact Nat.le_trans (Nat.le_of_eq hpath.last_eq) (Nat.add_le_add_left hms.issues_le _)
  | push hps => exact ⟨h.push hps, Nat.le_succ _⟩

omit [JobStore σ] in
theorem Told.course (h : Told e log) (id : SessionId) (handle : String) : Course log id handle where
  isCourse := by
    have hpairwise := (List.pairwise_append.mp (h.pairwise id)).1.filter (·.about? = some handle)
    have hfirst := h.first id handle
    have habout : ∀ p ∈ (written log id).filter (·.about? = some handle),
        p.about? = some handle := fun p hp => by simpa using (List.mem_filter.mp hp).2
    cases hps : (written log id).filter (·.about? = some handle) with
    | nil => exact .inl rfl
    | cons first ps =>
      rw [hps] at hpairwise hfirst habout
      obtain ⟨middle, last, rfl, hmiddle, hlast⟩ := exists_middle_last
        (fun p hp => habout p (List.mem_cons_of_mem _ hp)) (List.pairwise_cons.mp hpairwise).2
      exact .inr ⟨first, middle, last, rfl, hfirst first rfl, hmiddle, hlast⟩
  background := by
    intro hbackground p hp habout
    by_contra hcreated
    have hnone : p.created? = none := by
      cases hc : p.created? with
      | none => rfl
      | some handle' =>
        have hsame := Packet.about?_eq_some_iff.mpr (.inl hc)
        exact absurd (hc.trans (hsame.symm.trans habout)) hcreated
    obtain ⟨event, j, reply, hlog, hj, hforeground, hreply⟩ :=
      h.asked (List.mem_append_left _ hp) habout hnone
    exact absurd ((hbackground event j reply hlog hj hreply).symm.trans hforeground) (by simp)

end Engine

namespace Broker

variable {σ : Type} [JobStore σ] {b : Broker σ}

open Engine (Told)

theorem told_run (xs : List (Happening σ)) (hstep : b.InStep) {log : List Exchange}
    (h : Told b.engine log)
    (hissued : b.engine.handles.last.toNat + b.issued xs < UInt64.size - 1) :
    Told (b.run xs).2.engine (log ++ (b.run xs).1) := by
  induction xs generalizing b log with
  | nil => simpa [run] using h
  | cons x xs ih =>
    have hroom : b.engine.handles.last < b.engine.handles.last + 1 :=
      Engine.lt_add_one_of_toNat_lt (by omega)
    obtain ⟨e, hworks, hemits⟩ := happen_emits hstep x
    obtain ⟨htold, hlast⟩ := h.works hroom hworks
    obtain ⟨htold, hle⟩ := htold.emits (hlast ▸ hroom) hemits
    have hrest := ih (hstep.happen x) htold ?_
    · simpa only [run, List.append_assoc] using hrest
    · rw [hlast] at hle
      unfold issued at hissued
      split at hissued
      · next hsame =>
        rw [hsame]
        omega
      · omega

/-- A broker over an empty store starts without jobs and without connections. -/
theorem start_empty (settings : Settings) {store : σ} (now : Int64) (newId : Nat → String)
    (name : SessionId → String) (hempty : (JobStore.readAll store).1 = .ok []) :
    (start settings store now newId name).2.engine =
      Engine.start settings.engine (JobStore.readAll store).2 now newId false := by
  rcases hread : JobStore.readAll store with ⟨answer, store'⟩
  obtain rfl : answer = .ok [] := by simpa [hread] using hempty
  have hread : JobStore.readAll (Engine.new settings.engine store now newId).store =
      (.ok [], store') := hread
  simp only [start, new, Engine.load, hread, Engine.readRecords, Engine.restoreAll]
  rfl

/-- Before anything has happened nobody has been told anything. -/
theorem told_start (settings : Settings) {store : σ} (now : Int64) (newId : Nat → String)
    (name : SessionId → String) (hempty : (JobStore.readAll store).1 = .ok []) :
    Told (start settings store now newId name).2.engine [] := by
  rw [start_empty settings now newId name hempty]
  have hnone : ∀ handle, (Engine.start settings.engine (JobStore.readAll store).2 now
      newId false).live.keyOf? handle = none := fun _ => rfl
  exact {
    inOrder := Engine.start_inOrder _ _ _ _ _
    pairwise := fun _ => List.Pairwise.nil
    first := fun _ _ => nofun
    created := fun h => absurd h List.not_mem_nil
    spent := fun h => absurd h List.not_mem_nil
    asked := fun h => absurd h List.not_mem_nil
    asked_of_waiter := fun h => absurd h (by simp [hnone]) }

/-- What is written on a connection about a job, in whatever order frames are read and packets are
written. -/
theorem course_run (settings : Settings) (store : σ) (now : Int64) (newId : Nat → String)
    (name : SessionId → String) (hempty : (JobStore.readAll store).1 = .ok [])
    (xs : List (Happening σ))
    (hissued : (start settings store now newId name).2.issued xs < UInt64.size - 1)
    (id : SessionId) (handle : String) :
    Course ((start settings store now newId name).2.run xs).1 id handle := by
  have hengine := start_empty settings now newId name hempty
  have hstep : (start settings store now newId name).2.InStep := by
    intro i
    rw [hengine]
    exact iff_of_false nofun List.not_mem_nil
  have hbound : (start settings store now newId name).2.engine.handles.last.toNat +
      (start settings store now newId name).2.issued xs < UInt64.size - 1 := by
    rw [hengine]
    exact (Nat.zero_add _).symm ▸ hissued
  exact (told_run xs hstep (told_start settings now newId name hempty) hbound).course id handle

/-- A job is submitted by one client in the foreground, by another first in the background and then
in the foreground, while a worker works on it, and by a third in the background. -/
theorem course_run_three_clients :
    ∃ xs : List (Happening MemoryStore),
      (JobStore.readAll MemoryStore.empty).1 = .ok [] ∧
      (start .default MemoryStore.empty 0 decimal fun _ => "").2.issued xs < UInt64.size - 1 ∧
      written ((start .default MemoryStore.empty 0 decimal fun _ => "").2.run xs).1 1 =
        [.response (.jobCreated "H:localhost:1"), .response (.workStatus "H:localhost:1" 1 2),
          .response (.workComplete "H:localhost:1" [7])] ∧
      written ((start .default MemoryStore.empty 0 decimal fun _ => "").2.run xs).1 2 =
        [.response (.jobCreated "H:localhost:1"), .response (.jobCreated "H:localhost:1"),
          .response (.workComplete "H:localhost:1" [7])] ∧
      written ((start .default MemoryStore.empty 0 decimal fun _ => "").2.run xs).1 3 =
        [.response (.jobCreated "H:localhost:1")] ∧
      ∀ id handle,
        Course ((start .default MemoryStore.empty 0 decimal fun _ => "").2.run xs).1 id handle := by
  refine ⟨[.accept "1.1.1.1:1", .accept "1.1.1.1:2", .accept "1.1.1.1:3", .accept "1.1.1.1:4",
    .read 0 (.frame (.packet (.request (.canDo "f")))),
    .read 1 (.frame (.packet (.request (.submitJob .normal false "f" "u" [])))),
    .read 2 (.frame (.packet (.request (.submitJob .normal true "f" "u" [])))),
    .read 3 (.frame (.packet (.request (.submitJob .normal true "f" "u" [])))),
    .read 0 (.frame (.packet (.request .grabJob))),
    .read 0 (.frame (.packet (.request (.workStatus "H:localhost:1" 1 2)))),
    .read 2 (.frame (.packet (.request (.submitJob .normal false "f" "u" [])))),
    .push 1,
    .read 0 (.frame (.packet (.request (.workComplete "H:localhost:1" [7])))),
    .push 1, .push 2, .push 3], ?_, ?_, ?_, ?_, ?_, fun id handle =>
      course_run .default MemoryStore.empty 0 decimal (fun _ => "") ?_ _ ?_ id handle⟩ <;>
    decide +kernel

end Broker

end JobBroker
