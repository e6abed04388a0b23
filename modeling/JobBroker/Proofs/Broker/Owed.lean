import JobBroker.Proofs.Broker.Steps
import JobBroker.Proofs.Engine.ByHandle

/-!
# What is owed for a unit of a stream

Peers match replies to requests by their position, so for each unit of its stream a connection has
to write as many replies as the unit calls for: one or none.

* `Engine.Answers` : the answer that is owed for a request. `Engine.Owed` : the replies that are
  owed for any unit.
* `owed_react` : what is owed is written.
* `react_of_isInert` : units that the broker does nothing about leave it as it is.
-/

namespace JobBroker

/-- The request that is a grab of some sort. -/
def Grab.request : Grab → Body
  | plain => .grabJob
  | unique => .grabJobUniq
  | all => .grabJobAll

namespace Body

/-- The handle and the report in a report of a worker. -/
def reportOn? : Body → Option (String × Report)
  | .workStatus handle n d => some (handle, .progress n d)
  | .workData handle data => some (handle, .data data)
  | .workWarning handle data => some (handle, .warning data)
  | .workComplete handle data => some (handle, .finish (.complete data))
  | .workFail handle => some (handle, .finish .fail)
  | .workException handle data => some (handle, .finish (.exception data))
  | _ => none

/-- As a request the body is of a type that the broker serves. -/
def isServed : Body → Bool
  | .canDo _ | .canDoTimeout .. | .cantDo _ | .resetAbilities | .preSleep
  | .grabJob | .grabJobUniq | .grabJobAll
  | .submitJob .. | .submitJobEpoch .. | .submitReduceJob .. | .submitJobSched ..
  | .workStatus .. | .workData .. | .workWarning .. | .workComplete .. | .workFail _
  | .workException .. | .getStatus _ | .getStatusUnique _ | .echoReq _ | .setClientId _
  | .optionReq _ => true
  | .noop | .jobCreated _ | .noJob | .jobAssign .. | .jobAssignUniq .. | .jobAssignAll ..
  | .echoRes _ | .error .. | .statusRes .. | .statusResUnique .. | .allYours | .optionRes _ => false

/-- The request is one that is served without a reply, or none that is served. -/
def isSilent : Body → Bool
  | .canDo _ | .canDoTimeout .. | .cantDo _ | .resetAbilities | .preSleep | .setClientId _ => true
  | body => !body.isServed

end Body

/-- The unit could be read but not understood, claims to be a response, or is a request of a type
that is not served. -/
def Event.isInert : Event → Bool
  | .error err => !err.isFatal
  | .frame (.packet ⟨.response, _⟩) => true
  | .frame (.packet ⟨.request, body⟩) => !body.isServed
  | .frame (.text _) => false

namespace Engine

variable {σ : Type} [JobStore σ] {e : Engine σ} {id : SessionId}

/-- The answer that is owed for a request of a session. -/
inductive Answers (e : Engine σ) (id : SessionId) : Body → Option Body → Prop
  | echo (data : Bytes) : Answers e id (.echoReq data) (some (.echoRes data))
  | assigned (g : Grab) {j : Job} : (e.nextJob id).1 = some j →
    Answers e id g.request (some (g.assignment j))
  | noJob (g : Grab) : (e.nextJob id).1 = none → Answers e id g.request (some .noJob)
  | created {body : Body} {j j' : Job} : body.submission? = some j →
    (e.submit j (if j.background then none else some id)).1 = .ok j' →
    Answers e id body (some (.jobCreated j'.handle))
  | notCreated {body : Body} {j : Job} {err : JobError} : body.submission? = some j →
    (e.submit j (if j.background then none else some id)).1 = .error err →
    Answers e id body (some (.error err.code err.message))
  | notSupported (f u : String) (schedule : Schedule) (data : Bytes) :
    Answers e id (.submitJobSched f u schedule data)
      (some (.error "ERR_NOT_SUPPORTED" "Recurring jobs are not supported"))
  | accepted {body : Body} {handle : String} {r : Report} : body.reportOn? = some (handle, r) →
    (e.report handle r).1 = .ok () → Answers e id body none
  | refused {body : Body} {handle : String} {r : Report} {err : JobError} :
    body.reportOn? = some (handle, r) → (e.report handle r).1 = .error err →
    Answers e id body (some (.error err.code err.message))
  | status (handle : String) : Answers e id (.getStatus handle)
      (some (.statusRes handle (e.status handle).isKnown (e.status handle).isRunning
        (e.status handle).numerator (e.status handle).denominator))
  | statusOfUnique (u : String) {s : JobStatus} {waiting : Nat} :
    e.statusOfUnique u = (s, waiting) → Answers e id (.getStatusUnique u)
      (some (.statusResUnique u s.isKnown s.isRunning s.numerator s.denominator
        (UInt32.ofNat (min waiting (UInt32.size - 1)))))
  | option : Answers e id (.optionReq "exceptions") (some (.optionRes "exceptions"))
  | unknownOption {option : String} : option ≠ "exceptions" → Answers e id (.optionReq option)
      (some (.error "ERR_UNKNOWN_OPTION" ("Unknown option: " ++ option)))
  | silent {body : Body} : body.isSilent = true → Answers e id body none

/-- The replies that are owed for a unit that is read from the stream of a session. -/
inductive Owed (e : Engine σ) (name : SessionId → String) (id : SessionId) :
    Event → List Frame → Prop
  | answer {body b : Body} : e.Answers id body (some b) →
    Owed e name id (.frame (.packet (.request body))) [.packet (.response b)]
  | nothing {body : Body} : e.Answers id body none →
    Owed e name id (.frame (.packet (.request body))) []
  | response (body : Body) : Owed e name id (.frame (.packet (.response body))) []
  | malformed {err : ProtocolError} : err.isFatal = false →
    Owed e name id (.error err) [.packet (.response (.error "ERR_PROTOCOL" err.message))]
  /-- The connection is closed at once. -/
  | fatal {err : ProtocolError} : err.isFatal = true → Owed e name id (.error err) []
  | line (line : String) : Owed e name id (.frame (.text line))
      [.text (e.runAdmin name (.parse line)).1.text]

/-! ### What is owed is written -/

theorem answers_of_submission {body : Body} {j : Job} (hj : body.submission? = some j) :
    e.Answers id body (e.answer id body).1 := by
  rw [answer_of_submission hj, answerSubmission_eq]
  cases hsubmit : (e.submit j (if j.background then none else some id)).1 with
  | ok j' => exact .created hj hsubmit
  | error err => exact .notCreated hj hsubmit

theorem answers_of_grab (g : Grab) : e.Answers id g.request (e.answerGrab id g).1 := by
  unfold answerGrab
  split
  · next j _ hj => exact .assigned g (congrArg Prod.fst hj)
  · next hnone => exact .noJob g (congrArg Prod.fst hnone)

/-- Whatever a report gives to the broker, the worker is told only that it is refused. -/
theorem answers_of_report {α : Type} {body : Body} {handle : String} {r : Report}
    (hr : body.reportOn? = some (handle, r)) {result : Except JobError α × Engine σ}
    (hresult : (e.report handle r).1 = result.1.map fun _ => ()) :
    e.Answers id body (answerReport result).1 := by
  obtain ⟨answer, e'⟩ := result
  cases answer with
  | ok a => exact .accepted hr hresult
  | error err => exact .refused hr hresult

theorem answers_answer (e : Engine σ) (id : SessionId) (body : Body) :
    e.Answers id body (e.answer id body).1 := by
  have hunit : ∀ {handle : String} {r : Report} {result : Except JobError Unit × Engine σ},
      e.report handle r = result → (e.report handle r).1 = result.1.map fun _ => () := by
    rintro handle r ⟨_ | _, e'⟩ h <;> exact congrArg Prod.fst h
  cases body with
  | submitJob | submitJobEpoch | submitReduceJob => exact answers_of_submission rfl
  | grabJob => exact answers_of_grab .plain
  | grabJobUniq => exact answers_of_grab .unique
  | grabJobAll => exact answers_of_grab .all
  | workStatus | workData | workWarning => exact answers_of_report rfl (hunit rfl)
  | workComplete | workFail | workException => exact answers_of_report rfl rfl
  | echoReq data => exact .echo data
  | submitJobSched f u schedule data => exact .notSupported f u schedule data
  | getStatus handle => exact .status handle
  | getStatusUnique u => exact .statusOfUnique u rfl
  | optionReq option =>
    by_cases ho : option = "exceptions"
    · subst ho
      exact .option
    · simp only [answer, if_neg ho]
      exact .unknownOption ho
  | _ => exact .silent rfl

theorem owed_react (e : Engine σ) (name : SessionId → String) (id : SessionId) (event : Event) :
    e.Owed name id event (e.react name id event).1.reply.toList := by
  cases event with
  | error err =>
    by_cases hfatal : err.isFatal = true
    · simp only [react, if_pos hfatal]
      exact .fatal hfatal
    · simp only [react, if_neg hfatal]
      exact .malformed (Bool.not_eq_true _ ▸ hfatal)
  | frame frame =>
    cases frame with
    | text line => exact .line line
    | packet p =>
      obtain ⟨_ | _, body⟩ := p
      · have hanswer := answers_answer e id body
        show e.Owed name id (.frame (.packet (.request body)))
          (((e.answer id body).1.map fun b => Frame.packet (.response b)).toList)
        cases hreply : (e.answer id body).1 with
        | none => exact .nothing (hreply ▸ hanswer)
        | some b => exact .answer (hreply ▸ hanswer)
      · exact .response body

/-! ### What closes a connection, and what does nothing -/

/-- A connection is closed for an error that is fatal, and with the whole broker. -/
theorem react_closes (e : Engine σ) (name : SessionId → String) (id : SessionId) (event : Event) :
    ((e.react name id event).1.closes = true ↔
      event.isFatal = true ∨ (e.react name id event).1.stops = true) := by
  cases event with
  | error err =>
    by_cases hfatal : err.isFatal = true
    · simp [react, Event.isFatal, hfatal]
    · simp [react, Event.isFatal, hfatal]
  | frame frame =>
    cases frame with
    | text line => simp [react, Event.isFatal]
    | packet p =>
      obtain ⟨_ | _, body⟩ := p <;> simp [react, Event.isFatal]

theorem react_of_isInert {event : Event} (h : event.isInert = true) (e : Engine σ)
    (name : SessionId → String) (id : SessionId) :
    (e.react name id event).2 = e ∧ (e.react name id event).1.closes = false ∧
      (e.react name id event).1.stops = false := by
  cases event with
  | error err =>
    have hfatal : err.isFatal = false := by simpa [Event.isInert] using h
    simp [react, hfatal]
  | frame frame =>
    cases frame with
    | text line => cases h
    | packet p =>
      obtain ⟨_ | _, body⟩ := p
      · have hnone : (body.action? id : Option (Action σ)) = none := by
          cases body <;> first | rfl | cases h
        refine ⟨?_, rfl, rfl⟩
        rw [react_snd]
        show (body.action? id).elim e e.act = e
        rw [hnone]
        rfl
      · exact ⟨rfl, rfl, rfl⟩

end Engine

namespace Broker

variable {σ : Type} [JobStore σ] {b : Broker σ} {id : SessionId} {event : Event}

theorem owed_react (b : Broker σ) (id : SessionId) (event : Event) :
    b.engine.Owed b.sessionName id event (b.react id [event]).1 := by
  obtain ⟨r, engine, hreact, hreply, -⟩ := react_singleton b id event
  rw [hreply]
  have howed := Engine.owed_react b.engine b.sessionName id event
  rwa [hreact] at howed

theorem react_of_isInert (h : event.isInert = true) (b : Broker σ) (id : SessionId) :
    (b.react id [event]).2 = b := by
  obtain ⟨r, engine, hreact, -, hb⟩ := react_singleton b id event
  have hinert := Engine.react_of_isInert h b.engine b.sessionName id
  rw [hreact] at hinert
  obtain ⟨rfl, hcloses, hstops⟩ : engine = b.engine ∧ r.closes = false ∧ r.stops = false := hinert
  simp [hb, hcloses, hstops]

/-- An error that is fatal closes the connection. -/
theorem not_isOpen_of_isFatal (h : event.isFatal = true) :
    (b.react id [event]).2.isOpen id ≠ true := by
  obtain ⟨r, engine, hreact, -, hb⟩ := react_singleton b id event
  have hcloses : r.closes = true := by
    have hiff := Engine.react_closes b.engine b.sessionName id event
    rw [hreact] at hiff
    exact hiff.mpr (.inl h)
  have hclosed : ¬ ({ b with engine }.close id).isOpen id = true := fun hopen =>
    ((isOpen_close _ id id).mp hopen).2 rfl
  rw [hb, if_pos hcloses]
  split
  · exact fun hopen => hclosed (isOpen_of_stop hopen)
  · exact hclosed

end Broker

end JobBroker
