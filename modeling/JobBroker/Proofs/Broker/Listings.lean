import JobBroker.Proofs.Broker.Course
import JobBroker.Proofs.Broker.Dialogue
import JobBroker.Proofs.Engine.Names
import JobBroker.Proofs.Engine.Statistics

/-!
# What operators read

A listing has a line for each known function or for each connected session, and a line with a full
stop at its end. A broker writes names as they came in. A packet may hold any text, so a name may
break its line and its column, and what an operator reads then is not what was listed.

* `Reads` : what the three listings are read back as. `Lists` : what they list, and just when they
  are read back as that.
* `Roster.happen` : the sessions with an open connection are those that are listed.
* `plain_happen` : as long as no text that comes in breaks a listing, none that is shown does.
* `lists_run` : both over whole runs.
-/

namespace JobBroker

open Text (decimal)

open AdminReply Text
open RecordStore (record?)

/-! ### Lines for sessions -/

/-- The texts that stand in a session's line, besides its name. -/
def Session.texts (s : Session) : List String := s.peer :: s.clientId.getD "-" :: s.abilities

theorem AdminReply.lineFeed_mem_workerLine {name : String} {s : Session} :
    '\n' ∈ (workerLine name s).toList ↔ ∃ t ∈ name :: s.texts, '\n' ∈ t.toList := by
  simp [workerLine, Session.texts, String.toList_join]

theorem Session.IsPlain.lineFeed_of_texts {s : Session} (h : s.IsPlain) :
    ∀ t ∈ s.texts, '\n' ∉ t.toList := by
  refine List.forall_mem_cons.mpr ⟨h.peer, List.forall_mem_cons.mpr ⟨?_, ?_⟩⟩
  · cases hi : s.clientId with
    | none => decide
    | some i => exact h.clientId i hi
  · exact fun f hf => (h.abilities f hf).lineFeed

/-! ### Listings of an engine -/

namespace Engine

variable {σ : Type}

/-- The functions that are known, as they are listed. -/
def functionNames (e : Engine σ) : List String := e.statistics.map (·.functionName)

theorem forall_functionNames {e : Engine σ} {P : String → Prop} :
    (∀ row ∈ e.statistics, P row.functionName) ↔ ∀ f, (e.workshop? f).isSome → P f := by
  refine List.forall_mem_map.symm.trans (forall_congr' fun f => ?_)
  rw [mem_map_functionName]

variable (e : Engine σ) (name : SessionId → String)

theorem isTable_status : IsTable 4 e.functionNames (e.runAdmin name .status).1.text ↔
    ∀ f, (e.workshop? f).isSome → IsPlain f :=
  (isTable_listing_iff (fun s : Statistics => [s.queued, s.running, s.workers])
    fun _ => rfl).trans forall_functionNames

theorem isTable_priorityStatus :
    IsTable 5 e.functionNames (e.runAdmin name .priorityStatus).1.text ↔
      ∀ f, (e.workshop? f).isSome → IsPlain f :=
  (isTable_listing_iff (fun s : Statistics => [s.high, s.normal, s.low, s.workers])
    fun _ => rfl).trans forall_functionNames

theorem isRoll_workers :
    IsRoll (e.connectedSessions.map fun s => workerLine (name s.1) s.2)
      (e.runAdmin name .workers).1.text ↔
      ∀ id s, (id, s) ∈ e.connectedSessions → ∀ t ∈ name id :: s.texts, '\n' ∉ t.toList := by
  refine isRoll_listing_iff.trans ?_
  simp only [List.forall_mem_map, lineFeed_mem_workerLine, Prod.forall, not_exists, not_and]

end Engine

/-! ### Texts that come in -/

theorem isPlain_of_not_isBlank {word : List Char} (h : ∀ c ∈ word, ¬ isBlank c) :
    IsPlain (String.ofList word) := by
  refine ⟨?_, ?_⟩ <;> rw [String.toList_ofList]
  · exact fun hc => h '\n' hc rfl
  · exact fun hc => h '\t' hc rfl

/-- A function that an operator names is a word of a line. -/
theorem AdminCommand.isPlain_of_parse {line f : String} {size : Option Nat}
    (h : parse line = .maxQueue f size) : IsPlain f := by
  have hwords := not_isBlank_of_mem_words line.toList
  unfold parse at h
  split at h
  · cases h
  · next command arguments hline =>
    rw [hline] at hwords
    have hplain : ∀ word ∈ arguments, IsPlain (String.ofList word) := fun word hword =>
      isPlain_of_not_isBlank (hwords word (List.mem_cons_of_mem _ hword))
    dsimp only at h
    repeat' split at h
    -- with a limit or without one, the function is the first word behind the command
    all_goals cases h
    · exact hplain _ List.mem_cons_self
    · exact hplain _ List.mem_cons_self

/-- No text that the request brings in breaks a listing. -/
def Body.IsPlain : Body → Prop
  | .canDo f | .canDoTimeout f _ => JobBroker.IsPlain f
  | .setClientId i => '\n' ∉ i.toList
  | body => ∀ j ∈ body.submission?, JobBroker.IsPlain j.functionName

def Event.IsPlain : Event → Prop
  | .frame (.packet ⟨.request, body⟩) => body.IsPlain
  | _ => True

def Happening.IsPlain {σ : Type} : Happening σ → Prop
  | .accept peer => '\n' ∉ peer.toList
  | .read _ event => event.IsPlain
  | _ => True

instance : DecidablePred Body.IsPlain := fun body => by
  unfold Body.IsPlain
  split <;> infer_instance

instance : DecidablePred Event.IsPlain := fun event => by
  unfold Event.IsPlain
  split <;> infer_instance

instance {σ : Type} : DecidablePred (Happening.IsPlain (σ := σ)) := fun x => by
  unfold Happening.IsPlain
  split <;> infer_instance

section Actions

variable {σ : Type} {a : Action σ} {id : SessionId}

theorem Body.IsPlain.action {body : Body} (h : body.IsPlain) (ha : body.action? id = some a) :
    a.IsPlain := by
  have hsubmit : (body.submission?.map fun j =>
      (.submit j (if j.background then none else some id) : Action σ)) = some a →
      (∀ j ∈ body.submission?, JobBroker.IsPlain j.functionName) → a.IsPlain := by
    intro ha h
    obtain ⟨j, hj, rfl⟩ := Option.map_eq_some_iff.mp ha
    exact h j hj
  cases body with
  | submitJob | submitJobEpoch | submitReduceJob => exact hsubmit ha h
  | canDo | canDoTimeout | setClientId => exact Option.some.inj ha ▸ h
  | optionReq option =>
    simp only [Body.action?] at ha
    split at ha
    · exact Option.some.inj ha ▸ trivial
    · cases ha
  | cantDo | resetAbilities | preSleep | grabJob | grabJobUniq | grabJobAll | workStatus | workData
  | workWarning | workComplete | workFail | workException => exact Option.some.inj ha ▸ trivial
  | _ => cases ha

theorem Event.IsPlain.action {event : Event} (h : event.IsPlain)
    (ha : event.action? id = some a) : a.IsPlain := by
  cases event with
  | error err => cases ha
  | frame frame =>
    cases frame with
    | packet p =>
      obtain ⟨_ | _, body⟩ := p
      · exact Body.IsPlain.action h ha
      · cases ha
    | text line =>
      simp only [Event.action?] at ha
      split at ha
      · next hparse => exact Option.some.inj ha ▸ AdminCommand.isPlain_of_parse hparse
      · cases ha

theorem Happening.IsPlain.action {x : Happening σ} (hx : x.IsPlain) (h : x.Causes a) :
    a.IsPlain := by
  cases h with
  | arrive peer => exact hx
  | react ha => exact Event.IsPlain.action hx ha
  | _ => trivial

end Actions

/-! ### What happens to a broker -/

variable {σ : Type} [JobStore σ]

namespace Engine

variable {e : Engine σ}

omit [JobStore σ] in
theorem Plain.setOutbox (he : e.Plain) (id : SessionId) (ps : List Packet) :
    (e.setOutbox id ps).Plain :=
  { he with toShown := he.modifySession id fun _ hs => hs.of_label rfl, filed := { he.filed with } }

/-- Crews agree with abilities, and queues with what is noted of them. -/
structure Staffed (e : Engine σ) : Prop where
  tended : e.watch.Tended
  crewed : e.Crewed

theorem Staffed.act (he : e.Staffed) {a : Action σ} (ha : e.Legal a) : (e.act a).Staffed :=
  ⟨tended_act he.tended a, he.crewed.act he.tended ha⟩

theorem Works.staffed {e' : Engine σ} (h : e.Works e') (he : e.Staffed) : e'.Staffed := by
  induction h with
  | refl => exact he
  | tail _ hstep ih =>
    obtain ⟨a, ha, -, rfl⟩ := hstep
    exact ih.act ha

theorem Staffed.emits {e' : Engine σ} {ys : List Exchange} (he : e.Staffed)
    (h : e.Emits ys e') : e'.Staffed := by
  cases h with
  | nothing | reply _ => exact he
  | submit hid _ =>
    rw [answerSubmission_eq]
    exact he.act (legal_submit hid _)
  | @push id _ ps _ =>
    have hsame : SameCrews e (e.setOutbox id ps) := .modifySession e id _ fun _ => rfl
    exact ⟨watch_setOutbox e id ps ▸ he.tended, he.crewed.of_same hsame⟩

end Engine

namespace Broker

variable {b : Broker σ}

/-- The open connections are those of the connected sessions, and the engine has these sessions. -/
structure Roster (b : Broker σ) : Prop where
  inStep : b.InStep
  staffed : b.engine.Staffed

theorem Roster.happen (hb : b.Roster) (x : Happening σ) : (b.happen x).2.Roster := by
  obtain ⟨e, hworks, hemits⟩ := happen_emits hb.inStep x
  exact ⟨hb.inStep.happen x, (hworks.staffed hb.staffed).emits hemits⟩

theorem Roster.run (hb : b.Roster) (xs : List (Happening σ)) : (b.run xs).2.Roster := by
  induction xs generalizing b with
  | nil => exact hb
  | cons x xs ih => exact ih (hb.happen x)

theorem plain_happen (hb : b.engine.Plain) {x : Happening σ} (hx : x.IsPlain) :
    (b.happen x).2.engine.Plain :=
  happen_of_act (fun _ _ hcauses he => he.act (hx.action hcauses))
    (fun id _ ps _ _ => hb.setOutbox id ps) hb

theorem plain_run (hb : b.engine.Plain) {xs : List (Happening σ)} (hxs : ∀ x ∈ xs, x.IsPlain) :
    (b.run xs).2.engine.Plain := by
  induction xs generalizing b with
  | nil => exact hb
  | cons x xs ih =>
    obtain ⟨hx, hxs⟩ := List.forall_mem_cons.mp hxs
    exact ih (plain_happen hb hx) hxs

/-! ### The names of sessions -/

theorem sessionName_close (b : Broker σ) (id : SessionId) :
    (b.close id).sessionName = b.sessionName := by
  unfold close
  split <;> rfl

theorem sessionName_stop (b : Broker σ) : b.stop.sessionName = b.sessionName := by
  suffices hids : ∀ (ids : List SessionId) (b : Broker σ),
      (ids.foldl close b).sessionName = b.sessionName from hids b.streams.keys b
  intro ids
  induction ids with
  | nil => exact fun _ => rfl
  | cons id ids ih => exact fun b => (ih (b.close id)).trans (sessionName_close b id)

theorem sessionName_happen (b : Broker σ) (x : Happening σ) :
    (b.happen x).2.sessionName = b.sessionName := by
  cases x with
  | read id event =>
    obtain ⟨r, engine, -, -, hreact⟩ := react_singleton b id event
    simp only [happen]
    split
    · rw [hreact]
      split
      · rw [sessionName_stop, sessionName_close]
      · split
        · rw [sessionName_close]
        · rfl
    · rfl
  | push id =>
    simp only [happen, push]
    split
    · split <;> rfl
    · rfl
  | hangUp id => exact sessionName_close b id
  | _ => rfl

theorem sessionName_run (b : Broker σ) (xs : List (Happening σ)) :
    (b.run xs).2.sessionName = b.sessionName := by
  induction xs generalizing b with
  | nil => rfl
  | cons x xs ih => exact (ih _).trans (sessionName_happen b x)

/-! ### What is listed -/

/-- What an admin command is answered. -/
def told (b : Broker σ) (command : AdminCommand) : String :=
  (b.engine.runAdmin b.sessionName command).1.text

/-- The lines of the sessions with an open connection. -/
def workerLines (b : Broker σ) : List String :=
  b.engine.connectedSessions.map fun s => workerLine (b.sessionName s.1) s.2

/-- Every listing is read back as what is listed. -/
structure Reads (b : Broker σ) : Prop where
  status : IsTable 4 b.engine.functionNames (b.told .status)
  priorityStatus : IsTable 5 b.engine.functionNames (b.told .priorityStatus)
  workers : IsRoll b.workerLines (b.told .workers)

/-- What is listed, and when it is read back as that. -/
structure Lists (b : Broker σ) : Prop where
  answered : ∀ id line, b.isOpen id = true → (b.happen (.read id (.frame (.text line)))).1 =
    [.answered id (.frame (.text line)) [.text (b.told (.parse line))]]
  /-- The functions are listed once each, in the order of the octets of their names. -/
  rising : b.engine.functionNames.Pairwise fun f g => Utf8.encode f < Utf8.encode g
  known : ∀ f, f ∈ b.engine.functionNames ↔ (b.engine.workshop? f).isSome
  nodup : (b.engine.connectedSessions.map Prod.fst).Nodup
  connected : ∀ id, id ∈ b.engine.connectedSessions.map Prod.fst ↔ b.isOpen id = true
  status : IsTable 4 b.engine.functionNames (b.told .status) ↔
    ∀ f, (b.engine.workshop? f).isSome → IsPlain f
  priorityStatus : IsTable 5 b.engine.functionNames (b.told .priorityStatus) ↔
    ∀ f, (b.engine.workshop? f).isSome → IsPlain f
  workers : IsRoll b.workerLines (b.told .workers) ↔
    ∀ id s, b.engine.session? id = some s → b.isOpen id = true →
      ∀ t ∈ b.sessionName id :: s.texts, '\n' ∉ t.toList

theorem Roster.lists (hb : b.Roster) : b.Lists where
  answered := fun id line hid => happen_read hid (.frame (.text line))
  rising := Engine.rising_functionName b.engine
  known := fun f => Engine.mem_map_functionName
  nodup := (List.filter_sublist.map _).nodup b.engine.sessions.nodup
  connected := by
    intro id
    rw [hb.inStep id]
    constructor
    · intro hid
      obtain ⟨⟨i, s⟩, hs, rfl⟩ := List.mem_map.mp hid
      exact (Engine.mem_connectedSessions.mp hs).2
    · intro hid
      obtain ⟨s, hs⟩ := Option.isSome_iff_exists.mp (hb.staffed.crewed.isSome_of_connected hid)
      exact List.mem_map.mpr ⟨(id, s), Engine.mem_connectedSessions.mpr ⟨hs, hid⟩, rfl⟩
  status := Engine.isTable_status b.engine b.sessionName
  priorityStatus := Engine.isTable_priorityStatus b.engine b.sessionName
  workers := by
    refine (Engine.isRoll_workers b.engine b.sessionName).trans ?_
    simp only [Engine.mem_connectedSessions, ← hb.inStep _, and_imp]

/-- When no text breaks a listing, all are read back. -/
theorem Lists.reads (h : b.Lists) (hb : b.engine.Shown)
    (hname : ∀ id, '\n' ∉ (b.sessionName id).toList) : b.Reads where
  status := h.status.mpr hb.known
  priorityStatus := h.priorityStatus.mpr hb.known
  workers := h.workers.mpr fun id s hs _ =>
    List.forall_mem_cons.mpr ⟨hname id, (hb.session id s hs).lineFeed_of_texts⟩

/-! ### Whole runs -/

theorem roster_start (settings : Settings) (store : σ) (now : Int64) (newId : Nat → String)
    (name : SessionId → String) : (start settings store now newId name).2.Roster where
  inStep := by
    intro id
    have hnone : (start settings store now newId name).2.engine.connected = [] :=
      (Engine.Calm.load (Engine.start settings.engine store now newId false)).connected
    rw [hnone]
    exact iff_of_false Bool.false_ne_true List.not_mem_nil
  staffed := {
    tended := tended_start settings store now newId name
    crewed := (Engine.Crewed.start settings.engine store now newId false).of_same
      (Engine.Calm.load _).sameCrews }

variable [RecordStore σ]

theorem plain_start (settings : Settings) {store : σ} (now : Int64) (newId : Nat → String)
    (name : SessionId → String) (hread : ∀ s : σ, record? (JobStore.readAll s).2 = record? s)
    (hstore : ∀ k j, record? store k = some j → IsPlain j.functionName) :
    (start settings store now newId name).2.engine.Plain := by
  have hnew : (Engine.start settings.engine store now newId false).Plain :=
    { known := fun f hf => absurd hf Bool.false_ne_true
      session := fun id s hs => absurd hs.symm (Option.some_ne_none s)
      filed := .start settings.engine store now newId false
      key := fun handle k hk => absurd hk.symm (Option.some_ne_none k) }
  exact hnew.load hread hstore

/-- What is listed after a run, and when it is read back as that: at any rate when no text that came
in can break a listing. -/
theorem lists_run (settings : Settings) (store : σ) (now : Int64) (newId : Nat → String)
    (name : SessionId → String)
    (hread : ∀ s : σ, record? (JobStore.readAll s).2 = record? s) (xs : List (Happening σ)) :
    let b := ((start settings store now newId name).2.run xs).2
    b.Lists ∧ ((∀ id, '\n' ∉ (name id).toList) →
      (∀ k j, record? store k = some j → IsPlain j.functionName) →
      (∀ x ∈ xs, x.IsPlain) → b.Reads) := by
  intro b
  have hlists : b.Lists := ((roster_start settings store now newId name).run xs).lists
  refine ⟨hlists, fun hname hstore hxs => ?_⟩
  have hplain : b.engine.Plain := plain_run (plain_start settings now newId name hread hstore) hxs
  have hnames : b.sessionName = name := sessionName_run _ xs
  exact hlists.reads hplain.toShown (hnames ▸ hname)

/-- One function is known from the store, one from a worker, one from a client and one from an
operator, and two sessions are connected. -/
theorem lists_run_four_functions :
    ∃ (store : MemoryStore) (xs : List (Happening MemoryStore)),
      (∀ k j, record? store k = some j → IsPlain j.functionName) ∧ (∀ x ∈ xs, x.IsPlain) ∧
      let b := ((start .default store 0 decimal decimal).2.run xs).2
      b.told .status = "f\t0\t1\t1\ng\t1\t0\t0\nh\t0\t0\t0\nold\t1\t0\t0\n.\n" ∧
      b.told .priorityStatus =
        "f\t0\t0\t0\t1\ng\t0\t1\t0\t0\nh\t0\t0\t0\t0\nold\t0\t1\t0\t0\n.\n" ∧
      b.told .workers = "0 1.1.1.1:1 worker 7 : f\n1 1.1.1.1:2 - :\n.\n" ∧ b.Lists ∧ b.Reads := by
  let request (id : SessionId) (body : Body) : Happening MemoryStore :=
    .read id (.frame (.packet (.request body)))
  let store := MemoryStore.empty.insert { Job.new "old" "u" [] with handle := "H:localhost:7" }
  let xs : List (Happening MemoryStore) :=
    [.accept "1.1.1.1:1", .accept "1.1.1.1:2", request 0 (.setClientId "worker 7"),
      request 0 (.canDo "f"), request 1 (.submitJob .normal false "f" "u" []), request 0 .grabJob,
      request 1 (.submitJob .normal false "g" "u" []), .read 1 (.frame (.text "maxqueue h 3"))]
  have hstore : ∀ k j, record? store k = some j → IsPlain j.functionName := by
    intro k j hj
    replace hj : store.find? k = some j := hj
    rw [MemoryStore.find?_insert] at hj
    split at hj
    · exact Option.some.inj hj ▸ by decide
    · cases hj
  have hname : ∀ id, '\n' ∉ (decimal id).toList := by
    intro id
    rw [decimal, String.toList_ofList]
    exact not_mem_digits rfl id
  have hxs : ∀ x ∈ xs, x.IsPlain := by decide +kernel
  have hlists := lists_run .default store 0 decimal decimal (fun _ => rfl) xs
  exact ⟨store, xs, hstore, hxs, by decide +kernel, by decide +kernel, by decide +kernel, hlists.1,
    hlists.2 hname hstore hxs⟩

/-- A worker may give a function a name of two lines. -/
theorem unreadable_status :
    let b := ((start .default MemoryStore.empty 0 decimal decimal).2.accept "1.1.1.1:1").2
    let b' := (b.receive 0 (Packet.request (.canDo "a\nb")).toBytes).2
    b'.told .status = "a\nb\t0\t0\t1\n.\n" ∧ b'.engine.functionNames = ["a\nb"] ∧
      ¬ IsTable 4 b'.engine.functionNames (b'.told .status) := by
  intro b b'
  refine ⟨by decide +kernel, by decide +kernel, fun h => ?_⟩
  have hplain := (Engine.isTable_status b'.engine b'.sessionName).mp h "a\nb" (by decide +kernel)
  exact absurd hplain (by decide)

end Broker

end JobBroker
