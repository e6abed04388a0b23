import JobBroker.Proofs.Broker.Episodes
import JobBroker.Proofs.Engine.Deed
import JobBroker.Proofs.Frame.Units
import JobBroker.Proofs.Packet.Canonical

/-!
# What a broker writes can be read

A packet that was read holds a NUL in its last field at most, and a broker repeats texts of the
packets that it reads: the names of jobs in assignments, handles in reports. It repeats them in
front of other fields only where they stood in front of other fields, with one exception: whoever
asks for the status of a job names it in the last field, and is answered by a packet that has that
name first.

* `Engine.Legible` : no job that an engine has and no packet that it is about to send holds a NUL
  where a field ends at one. `Engine.Legible.act` : what is done about clean requests keeps it so.
* `legible_run` : what a broker writes is read back as what it was, unless the payload is too long
  for its header or the answer repeats a NUL of a question for a status.
-/

namespace JobBroker

open Text (decimal)

open RecordStore (record?)

/-! ### Texts without NUL -/

def HasNul (s : String) : Prop := '\x00' ∈ s.toList

instance (s : String) : Decidable (HasNul s) := inferInstanceAs (Decidable (_ ∈ _))

/-- No text but that of the last field holds a NUL. -/
def Body.IsClean (b : Body) : Prop := ∀ s ∈ b.innerTexts, ¬ HasNul s

/-- The packet is read back exactly when its header can hold the length of its payload and no text
is cut short. -/
theorem Packet.isClean_iff (p : Packet) : ofBytes p.toBytes = .ok p ↔
    p.body.payload.length < UInt32.size ∧ p.body.IsClean := by
  by_cases hsize : p.body.payload.length < UInt32.size
  · rw [ofBytes_toBytes hsize, Body.IsClean]
    simp only [HasNul, ← Body.ofPayload_payload_iff, hsize, true_and]
    obtain ⟨magic, body⟩ := p
    cases Body.ofPayload body.kind body.payload <;> simp [Except.map]
  · refine iff_of_false (fun h => hsize ?_) fun h => hsize h.1
    have hheader : header? p.toBytes = some (p.magic.code, p.body.kind.ordinal,
        (UInt32.ofNat p.body.payload.length).toNat, p.body.payload) := by
      simp [header?, toBytes]
    simp only [ofBytes, hheader] at h
    split at h
    · next hlength => exact hlength ▸ UInt32.toNat_lt _
    · simp at h

namespace Job

/-- No text of the job holds a NUL. -/
structure IsClean (j : Job) : Prop where
  functionName : ¬ HasNul j.functionName
  uniqueId : ¬ HasNul j.uniqueId
  handle : ¬ HasNul j.handle
  reducer : ¬ HasNul (j.reducer.getD "")

theorem isClean_renewed {j : Job} : j.renewed.IsClean ↔ j.IsClean :=
  ⟨fun h => { h with }, fun h => { h with }⟩

end Job

theorem JobError.not_hasNul_code (err : JobError) : ¬ HasNul err.code := by
  unfold code
  split <;> decide

theorem hasNul_append {s t : String} : HasNul (s ++ t) ↔ HasNul s ∨ HasNul t := by
  simp [HasNul]

theorem not_hasNul_render {host : String} (h : ¬ HasNul host) (n : UInt64) :
    ¬ HasNul (Handle.render host n) := by
  simp only [Handle.render, hasNul_append, not_or]
  exact ⟨⟨⟨by decide, h⟩, by decide⟩, Text.nul_not_mem_decimal _⟩

/-! ### Requests -/

/-- The name of the job or the unique id in a question for a status. -/
def Body.asked? : Body → Option String
  | .getStatus s | .getStatusUnique s => some s
  | _ => none

def Event.asked? : Event → Option String
  | .frame (.packet ⟨.request, body⟩) => body.asked?
  | _ => none

def Exchange.asked? : Exchange → Option String
  | answered _ event _ => event.asked?
  | pushed _ _ => none

/-- The event is one that is found in some stream. -/
def Event.IsRead (limits : Limits) (event : Event) : Prop :=
  ∃ bytes, event ∈ ((Decoder.new limits).feed bytes).drain.1

theorem Event.IsRead.isClean {limits : Limits} {p : Packet}
    (h : (Event.frame (.packet p)).IsRead limits) : p.body.IsClean := by
  obtain ⟨bytes, hbytes⟩ := h
  obtain ⟨magic, kind, payload, hp⟩ := Decoder.ofParts_of_drain hbytes
  exact Body.nul_not_mem_of_ofPayload (Packet.ofParts_eq_ok hp).2.2

variable {σ : Type} [JobStore σ] [RecordStore σ]

/-- A change of the store brings in no record with a NUL. -/
def KeepsClean (change : σ → σ) : Prop := ∀ s : σ, (∀ k j, record? s k = some j → j.IsClean) →
  ∀ k j, record? (change s) k = some j → j.IsClean

/-- What an action tells and what it brings in holds no NUL where it matters. -/
def Action.IsClean : Action σ → Prop
  | .submit j _ => ¬ HasNul j.functionName ∧ ¬ HasNul j.uniqueId ∧ ¬ HasNul (j.reducer.getD "")
  | .finish h (.complete _) | .finish h (.exception _) | .progress h _ _ | .data h _
  | .warning h _ => ¬ HasNul h
  | .alterStore change => KeepsClean change
  | _ => True

omit [JobStore σ] [RecordStore σ] in
/-- A submission has its data behind all texts. -/
theorem Body.IsClean.submission {body : Body} (h : body.IsClean) {j : Job}
    (hj : body.submission? = some j) :
    ¬ HasNul j.functionName ∧ ¬ HasNul j.uniqueId ∧ ¬ HasNul (j.reducer.getD "") := by
  have hnone : ¬ HasNul "" := by decide
  cases body with
  | submitJob priority background f u data =>
    obtain rfl := Option.some.inj hj
    have htexts : ∀ s ∈ [f, u], ¬ HasNul s := h
    exact ⟨htexts f (by simp), htexts u (by simp), hnone⟩
  | submitJobEpoch f u epoch data =>
    obtain rfl := Option.some.inj hj
    have htexts : ∀ s ∈ [f, u], ¬ HasNul s := h
    exact ⟨htexts f (by simp), htexts u (by simp), hnone⟩
  | submitReduceJob background f u reducer data =>
    obtain rfl := Option.some.inj hj
    have htexts : ∀ s ∈ [f, u, reducer], ¬ HasNul s := h
    exact ⟨htexts f (by simp), htexts u (by simp), htexts reducer (by simp)⟩
  | _ => exact nomatch hj

/-- What is done about a clean request is clean. -/
theorem Body.IsClean.action {body : Body} (h : body.IsClean) {id : SessionId} {a : Action σ}
    (ha : body.action? id = some a) : a.IsClean := by
  have hsubmit : (body.submission?.map fun j =>
      (.submit j (if j.background then none else some id) : Action σ)) = some a → a.IsClean := by
    intro ha
    obtain ⟨j, hj, rfl⟩ := Option.map_eq_some_iff.mp ha
    exact h.submission hj
  cases body with
  | submitJob | submitJobEpoch | submitReduceJob => exact hsubmit ha
  | workStatus | workData | workWarning | workComplete | workException =>
    obtain rfl := Option.some.inj ha
    exact h _ List.mem_cons_self
  | optionReq option =>
    simp only [Body.action?] at ha
    split at ha
    · exact Option.some.inj ha ▸ trivial
    · cases ha
  | canDo | canDoTimeout | cantDo | resetAbilities | preSleep | grabJob | grabJobUniq | grabJobAll
  | workFail | setClientId => exact Option.some.inj ha ▸ trivial
  | _ => cases ha

/-! ### Engines -/

namespace Engine

variable {e : Engine σ} {a : Action σ}

/-- Nothing that an engine may send holds a NUL where a field ends at one. -/
structure Legible (e : Engine σ) : Prop where
  host : ¬ HasNul e.handles.host
  newId : ∀ n, ¬ HasNul (e.newId n)
  jobs : e.core.Holds Job.IsClean
  mail : ∀ {id p}, p ∈ e.outbox id → p.body.IsClean

theorem Legible.tells (he : e.Legible) (ha : a.IsClean) {p : Packet} (h : e.Tells a p) :
    p.body.IsClean := by
  have hone : ∀ {handle : String}, ¬ HasNul handle → ∀ s ∈ [handle], ¬ HasNul s :=
    fun h => List.forall_mem_singleton.mpr h
  -- a failure has the handle in the last field
  have hfail : ∀ handle, (Body.workFail handle).IsClean := fun _ => List.forall_mem_nil _
  cases h with
  | bare hbare =>
    cases hbare with
    | noop => exact List.forall_mem_nil _
    | workFail handle => exact hfail handle
  | finish handle o s =>
    cases o with
    | complete data => exact hone ha
    | fail => exact hfail handle
    | exception data =>
      show (if s.wantsExceptions then _ else _ : Packet).body.IsClean
      split
      · exact hone ha
      · exact hfail handle
  | progress handle n d => exact hone ha
  | data handle data => exact hone ha
  | warning handle data => exact hone ha
  | heard _ hlive | settled _ hlive => exact hone (he.jobs.of_find? hlive).handle

omit [RecordStore σ] in
theorem host_act (e : Engine σ) (a : Action σ) : (e.act a).handles.host = e.handles.host := by
  rcases handles_act e a with h | h
  · rw [h]
  · rw [h]
    rfl

omit [JobStore σ] [RecordStore σ] in
theorem not_hasNul_identify (hids : ∀ n, ¬ HasNul (e.newId n)) {j : Job}
    (h : ¬ HasNul j.uniqueId) : ¬ HasNul (e.identify j).1.uniqueId := by
  unfold identify
  split
  · exact hids e.uniqueIds
  · exact h

theorem Legible.jobs_act (he : e.Legible) (ha : a.IsClean) : (e.act a).core.Holds Job.IsClean := by
  by_cases halter : ∃ change, a = .alterStore change
  · obtain ⟨change, rfl⟩ := halter
    have hrecords : ∀ k j, record? e.store k = some j → j.IsClean := fun _ _ hr =>
      Job.isClean_renewed.mp (he.jobs.record hr)
    exact ⟨he.jobs.live, fun {k j} hr => Job.isClean_renewed.mpr (ha e.store hrecords k j hr)⟩
  by_cases hsubmit : ∃ j client, a = .submit j client
  · obtain ⟨j, client, rfl⟩ := hsubmit
    obtain ⟨hf, hu, hr⟩ := ha
    have hsame : (e.identify j).1.functionName = j.functionName ∧
        (e.identify j).1.reducer = j.reducer := by
      unfold identify
      split <;> exact ⟨rfl, rfl⟩
    refine holds_submit he.jobs client fun _ _ => ?_
    exact {
      functionName := hsame.1 ▸ hf
      uniqueId := not_hasNul_identify he.newId hu
      handle := not_hasNul_render he.host _
      reducer := hsame.2 ▸ hr }
  · exact holds_act he.jobs (fun change h => halter ⟨change, h⟩)
      fun j client h => hsubmit ⟨j, client, h⟩

theorem Legible.act (he : e.Legible) (ha : a.IsClean) : (e.act a).Legible where
  host := by
    rw [host_act]
    exact he.host
  newId := by
    rw [newId_act]
    exact he.newId
  jobs := he.jobs_act ha
  mail := fun hp => (mem_outbox_act hp).elim he.mail (he.tells ha)

theorem Legible.setOutbox (he : e.Legible) {id : SessionId} {p : Packet} {ps : List Packet}
    (hps : e.outbox id = p :: ps) : (e.setOutbox id ps).Legible where
  host := he.host
  newId := he.newId
  jobs := he.jobs
  mail := by
    intro i q hq
    rw [outbox_setOutbox hps] at hq
    split at hq
    · have hold : q ∈ e.outbox id := hps ▸ List.mem_cons_of_mem p hq
      exact he.mail hold
    · exact he.mail hq

/-- A job is handed out with texts that are clean. -/
theorem Legible.assignment (he : e.Legible) {id : SessionId} {j : Job}
    (hj : (e.nextJob id).1 = some j) (g : Grab) : (g.assignment j).IsClean := by
  have hclean := holds_nextJob he.jobs hj
  have hhandle : ¬ HasNul j.handle := hclean.handle
  have hfunction : ¬ HasNul j.functionName := hclean.functionName
  have hunique : ¬ HasNul j.uniqueId := hclean.uniqueId
  have hreducer : ¬ HasNul (j.reducer.getD "") := hclean.reducer
  cases g with
  | plain =>
    have htexts : ∀ s ∈ [j.handle, j.functionName], ¬ HasNul s := by simp [*]
    exact htexts
  | unique =>
    have htexts : ∀ s ∈ [j.handle, j.functionName, j.uniqueId], ¬ HasNul s := by simp [*]
    exact htexts
  | all =>
    have htexts : ∀ s ∈ [j.handle, j.functionName, j.uniqueId, j.reducer.getD ""],
        ¬ HasNul s := by simp [*]
    exact htexts

/-- Only the answer to a question for a status may repeat a NUL. -/
theorem Legible.replies (he : e.Legible) {id : SessionId} {body b : Body}
    (hasked : body.asked? = none) (h : e.Replies id body b) : b.IsClean := by
  have hnothing : ∀ s ∈ ([] : List String), ¬ HasNul s := List.forall_mem_nil _
  have hcode : ∀ {code : String}, ¬ HasNul code → ∀ s ∈ [code], ¬ HasNul s :=
    fun h => List.forall_mem_singleton.mpr h
  cases h with
  | echo data => exact hnothing
  | option o => exact hnothing
  | created _ _ => exact hnothing
  | assigned g hj => exact he.assignment hj g
  | idle body => exact hnothing
  | status => exact nomatch hasked
  | statusOfUnique => exact nomatch hasked
  | refused body err => exact hcode err.not_hasNul_code
  | unsupported body text => exact hcode (by decide)
  | unknownOption body text => exact hcode (by decide)

omit [RecordStore σ] in
theorem isClean_of_asked {id : SessionId} {body b : Body} {s : String}
    (hasked : body.asked? = some s) (h : (e.answer id body).1 = some b) :
    b.IsClean ↔ ¬ HasNul s := by
  have hone : ∀ {b : Body}, b.innerTexts = [s] → (b.IsClean ↔ ¬ HasNul s) := fun h => by
    simp [Body.IsClean, h]
  cases body with
  | getStatus t =>
    obtain rfl := Option.some.inj hasked
    obtain rfl := Option.some.inj h
    exact hone rfl
  | getStatusUnique t =>
    obtain rfl := Option.some.inj hasked
    obtain rfl := Option.some.inj h
    exact hone rfl
  | _ => exact nomatch hasked

end Engine

/-! ### Runs of a broker -/

/-- What is read was found in some stream, and nothing that happens to the store brings in a record
with a NUL. -/
def Happening.IsClean (limits : Limits) : Happening σ → Prop
  | .read _ event => event.IsRead limits
  | .alterStore change => KeepsClean change
  | _ => True

theorem Event.IsRead.action {limits : Limits} {event : Event} (h : event.IsRead limits)
    {id : SessionId} {a : Action σ} (ha : event.action? id = some a) : a.IsClean := by
  rcases Event.request_of_action ha with ⟨body, rfl, ha⟩ | ⟨f, size, rfl⟩
  · exact h.isClean.action ha
  · trivial

theorem Happening.IsClean.action {limits : Limits} {x : Happening σ} (hx : x.IsClean limits)
    {a : Action σ} (h : x.Causes a) : a.IsClean := by
  cases h with
  | react ha => exact Event.IsRead.action hx ha
  | alterStore change => exact hx
  | _ => trivial

namespace Broker

variable {b : Broker σ} {limits : Limits} {x : Happening σ} {y : Exchange}

theorem legible_happen (hb : b.engine.Legible) (hx : x.IsClean limits) :
    (b.happen x).2.engine.Legible :=
  happen_of_act (fun _ _ hcauses he => he.act (hx.action hcauses))
    (fun _ _ _ _ hps => hb.setOutbox hps) hb

/-- What is written when something happens is read back, unless it repeats a NUL. -/
theorem isClean_of_happen (hb : b.engine.Legible) (hy : y ∈ (b.happen x).1) {p : Packet}
    (hp : .packet p ∈ y.frames) : p.body.IsClean ↔ ∀ s, y.asked? = some s → ¬ HasNul s := by
  rcases mem_happen hy with ⟨id, event, -, -, rfl⟩ | ⟨id, q, qs, -, hqs, rfl⟩
  · rcases Engine.mem_reply hp with ⟨body, b', rfl, rfl, hanswer⟩ | ⟨err, rfl, rfl⟩
    · cases hasked : body.asked? with
      | none =>
        refine iff_of_true (hb.replies hasked (Engine.replies_answer hanswer)) fun s hs => ?_
        exact absurd (hasked.symm.trans hs) (by simp)
      | some s =>
        refine (Engine.isClean_of_asked hasked hanswer).trans ⟨fun h t ht => ?_, fun h => ?_⟩
        · exact Option.some.inj (hasked.symm.trans ht) ▸ h
        · exact h s hasked
    · have hcode : ¬ HasNul "ERR_PROTOCOL" := by decide
      refine iff_of_true (fun s hs => ?_) fun s hs => nomatch hs
      exact List.mem_singleton.mp hs ▸ hcode
  · obtain rfl := Frame.packet.inj (List.mem_singleton.mp hp)
    exact iff_of_true (hb.mail (hqs ▸ List.mem_cons_self)) fun s hs => nomatch hs

/-- What is known of what is written holds over a run. -/
theorem isClean_of_run {xs : List (Happening σ)} (hb : b.engine.Legible)
    (hxs : ∀ x ∈ xs, x.IsClean limits) (hy : y ∈ (b.run xs).1) {p : Packet}
    (hp : .packet p ∈ y.frames) : p.body.IsClean ↔ ∀ s, y.asked? = some s → ¬ HasNul s := by
  induction xs generalizing b with
  | nil => exact absurd hy List.not_mem_nil
  | cons x xs ih =>
    rcases List.mem_append.mp hy with hy | hy
    · exact isClean_of_happen hb hy hp
    · exact ih (legible_happen hb (hxs x List.mem_cons_self))
        (fun x hx => hxs x (List.mem_cons_of_mem _ hx)) hy

theorem legible_start (settings : Settings) {store : σ} (now : Int64) (newId : Nat → String)
    (name : SessionId → String) (hhost : ¬ HasNul settings.engine.hostname)
    (hids : ∀ n, ¬ HasNul (newId n)) (hstore : ∀ k j, record? store k = some j → j.IsClean)
    (hread : record? (JobStore.readAll store).2 = record? store) :
    (start settings store now newId name).2.engine.Legible := by
  obtain ⟨hjobs, hhost'⟩ := holds_start now newId name
    (fun j n hj _ => { hj with handle := not_hasNul_render hhost n }) hread
    fun hr => Job.isClean_renewed.mpr (hstore _ _ hr)
  have hkept : (start settings store now newId name).2.engine.newId = newId :=
    congrArg Prod.snd (Engine.fixed_load (.new settings.engine store now newId))
  refine ⟨hhost'.symm ▸ hhost, hkept.symm ▸ hids, hjobs, fun {id p} hp => ?_⟩
  rw [outbox_start] at hp
  exact absurd hp List.not_mem_nil

/-- What a broker writes is read back as what it was when its header can hold the length of its
payload, unless it answers a question for a status that has a NUL in it. -/
theorem legible_run (settings : Settings) (store : σ) (now : Int64) (newId : Nat → String)
    (name : SessionId → String) (hhost : ¬ HasNul settings.engine.hostname)
    (hids : ∀ n, ¬ HasNul (newId n)) (hstore : ∀ k j, record? store k = some j → j.IsClean)
    (hread : record? (JobStore.readAll store).2 = record? store) (xs : List (Happening σ))
    (hxs : ∀ x ∈ xs, x.IsClean settings.server.limits) :
    ∀ y ∈ ((start settings store now newId name).2.run xs).1, ∀ p, .packet p ∈ y.frames →
      (Packet.ofBytes p.toBytes = .ok p ↔ p.body.payload.length < UInt32.size ∧
        ∀ s, y.asked? = some s → ¬ HasNul s) := by
  intro y hy p hp
  rw [p.isClean_iff]
  exact and_congr_right fun _ =>
    isClean_of_run (legible_start settings now newId name hhost hids hstore hread) hxs hy hp

/-- A worker grabs a job from the store, and two questions are asked, of which one has a NUL. -/
theorem legible_run_questions :
    ∃ (store : MemoryStore) (xs : List (Happening MemoryStore)),
      (∀ k j, record? store k = some j → j.IsClean) ∧
      (∀ x ∈ xs, x.IsClean Settings.default.server.limits) ∧
      ((start .default store 0 decimal fun _ => "").2.run xs).1.flatMap Exchange.frames =
        [.packet (.response (.jobAssign "H:localhost:7" "f" [0])),
          .packet (.response (.statusRes "H:localhost:7" true true 0 0)),
          .packet (.response (.statusRes "a\x00b" false false 0 0))] ∧
      ∀ y ∈ ((start .default store 0 decimal fun _ => "").2.run xs).1, ∀ p, .packet p ∈ y.frames →
        (Packet.ofBytes p.toBytes = .ok p ↔ p.body.payload.length < UInt32.size ∧
          ∀ s, y.asked? = some s → ¬ HasNul s) := by
  let j : Job := { Job.new "f" "u" [0] with handle := "H:localhost:7" }
  let requests : List Body :=
    [.canDo "f", .grabJob, .getStatus "H:localhost:7", .getStatus "a\x00b"]
  have hstore : ∀ k i, record? (MemoryStore.empty.insert j) k = some i → i.IsClean := by
    intro k i hi
    replace hi : (MemoryStore.empty.insert j).find? k = some i := hi
    rw [MemoryStore.find?_insert] at hi
    split at hi
    · exact Option.some.inj hi ▸ ⟨by decide, by decide, by decide, by decide⟩
    · exact nomatch hi
  let xs : List (Happening MemoryStore) :=
    .accept "1.1.1.1:1" :: requests.map fun body => .read 0 (.frame (.packet (.request body)))
  have hread : ∀ body ∈ requests, .frame (.packet (.request body)) ∈
      ((Decoder.new Settings.default.server.limits).feed
        (Packet.request body).toBytes).drain.1 := by
    decide +kernel
  have hxs : ∀ x ∈ xs, x.IsClean Settings.default.server.limits := by
    refine List.forall_mem_cons.mpr ⟨trivial, List.forall_mem_map.mpr fun body hbody => ?_⟩
    exact ⟨_, hread body hbody⟩
  refine ⟨_, xs, hstore, hxs, ?_, ?_⟩
  · decide +kernel
  · exact legible_run .default _ 0 decimal (fun _ => "") (by decide) Text.nul_not_mem_decimal
      hstore rfl _ hxs

/-- The handle is the last field of a question, where it may hold a NUL, and the first of the
answer. -/
theorem illegible_answer :
    let b := ((start .default MemoryStore.empty 0 decimal fun _ => "").2.accept "1.1.1.1:1").2
    let question := Packet.request (.getStatus "a\x00b")
    let answer := Packet.response (.statusRes "a\x00b" false false 0 0)
    Settings.default.problem? = none ∧ (b.receive 0 question.toBytes).1 = [.packet answer] ∧
      Packet.ofBytes answer.toBytes ≠ .ok answer := by
  decide +kernel

end Broker

end JobBroker
