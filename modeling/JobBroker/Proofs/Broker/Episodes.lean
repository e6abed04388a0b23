import JobBroker.Proofs.Broker.Steps
import JobBroker.Proofs.Engine.Holdings

/-!
# Brokers that are started again

What happens to a broker, and to those that take its place one after the other, each over the store
that the one before has left.

* `passAll` : what passes over the connections of them all.
* `admitted` : the handles of the jobs that they let in.
* `holds_happen`, `holds_start` : what is true of all jobs stays true, if it is true of the job that
  is let in.
-/

namespace JobBroker

open RecordStore (record?)

variable {σ : Type}

/-- Something happens to a broker, or another one takes its place and takes up its store. -/
inductive Episode (σ : Type)
  | happen (x : Happening σ)
  | restart (settings : Settings) (now : Int64) (newId : Nat → String) (name : SessionId → String)

variable [JobStore σ]

/-- The handle that a job is let in under, when it is, and does not join a live one. -/
def Engine.admission? (e : Engine σ) (j : Job) (client : Option SessionId) : Option String :=
  if (e.live.find? (e.identify j).1.key).isSome then none
  else (e.submit j client).1.toOption.map Job.handle

namespace Broker

def pass (b : Broker σ) : Episode σ → List Exchange × Broker σ
  | .happen x => b.happen x
  | .restart settings now newId name => ([], (start settings b.engine.store now newId name).2)

/-- What passes over the connections, and the broker that is there in the end. -/
def passAll (b : Broker σ) : List (Episode σ) → List Exchange × Broker σ
  | [] => ([], b)
  | x :: xs =>
    let (ys, b) := b.pass x
    let (zs, b) := b.passAll xs
    (ys ++ zs, b)

def admission? (b : Broker σ) : Episode σ → Option String
  | .happen (.read id event) =>
    if b.isOpen id then
      event.submission?.bind fun j => b.engine.admission? j (if j.background then none else some id)
    else none
  | _ => none

/-- The handles of the jobs that are let in. -/
def admitted (b : Broker σ) : List (Episode σ) → List String
  | [] => []
  | x :: xs => (b.admission? x).toList ++ (b.pass x).2.admitted xs

variable {b : Broker σ}

theorem passAll_append (b : Broker σ) (es fs : List (Episode σ)) :
    b.passAll (es ++ fs) =
      ((b.passAll es).1 ++ ((b.passAll es).2.passAll fs).1, ((b.passAll es).2.passAll fs).2) := by
  induction es generalizing b with
  | nil => rfl
  | cons x es ih => simp only [List.cons_append, passAll, ih, List.append_assoc]

theorem passAll_concat (b : Broker σ) (es : List (Episode σ)) (x : Episode σ) :
    b.passAll (es ++ [x]) =
      ((b.passAll es).1 ++ ((b.passAll es).2.pass x).1, ((b.passAll es).2.pass x).2) := by
  rw [passAll_append]
  simp only [passAll, List.append_nil]

theorem admitted_append (b : Broker σ) (es fs : List (Episode σ)) :
    b.admitted (es ++ fs) = b.admitted es ++ (b.passAll es).2.admitted fs := by
  induction es generalizing b with
  | nil => rfl
  | cons x es ih => simp only [List.cons_append, admitted, passAll, ih, List.append_assoc]

/-! ### Jobs -/

variable {x : Happening σ} {id : SessionId}

theorem admission?_of_submit {event : Event} {j j' : Job} (hid : b.isOpen id = true)
    (hj : event.submission? = some j)
    (hfree : b.engine.live.find? (b.engine.identify j).1.key = none)
    (hok : (b.engine.submit j (if j.background then none else some id)).1 = .ok j') :
    b.admission? (.happen (.read id event)) = some j'.handle := by
  simp [admission?, hid, hj, Engine.admission?, hfree, hok, Except.toOption]

variable [RecordStore σ] {P : Job → Prop}

/-- All jobs keep what is true of them, and a job that is let in is answered with its handle. -/
theorem holds_happen (h : b.engine.core.Holds P) (halter : ∀ change, x ≠ .alterStore change)
    (hnew : ∀ id event j handle, x = .read id event → event.submission? = some j →
      handle = b.engine.handles.next.1 → b.admission? (.happen x) = some handle →
      .answered id event [.packet (.response (.jobCreated handle))] ∈ (b.happen x).1 →
      P { (b.engine.identify j).1.renewed with handle }) :
    (b.happen x).2.engine.core.Holds P := by
  cases hj : x.submission? with
  | none =>
    refine happen_of_act (P := fun e => e.core.Holds P) (fun e a hcauses he => ?_)
      (fun _ _ _ _ _ => h) h
    refine Engine.holds_act he ?_ ?_
    · rintro change rfl
      exact halter change (Happening.eq_alterStore_of_causes hcauses)
    · rintro j client rfl
      cases hj.symm.trans (Happening.submission?_of_causes hcauses)
  | some j =>
    cases x with
    | read id event =>
      by_cases hid : b.isOpen id = true
      · have hhappen := happen_of_submission hid hj
        rw [hhappen]
        refine Engine.holds_submit h _ fun hfree hok => ?_
        refine hnew id event j _ rfl hj rfl (admission?_of_submit hid hj hfree hok) ?_
        rw [hhappen, hok]
        exact List.mem_singleton_self _
      · simpa only [happen, if_neg hid] using h
    | _ => cases hj

/-- A broker starts with the jobs of its store. -/
theorem holds_start {settings : Settings} (now : Int64) (newId : Nat → String)
    (name : SessionId → String) {store : σ} (hfresh : ∀ j n, P j → j.handle = "" →
      P { j with handle := Handle.render settings.engine.hostname n })
    (hread : record? (JobStore.readAll store).2 = record? store)
    (hstore : ∀ {k j}, record? store k = some j → P j.renewed) :
    (start settings store now newId name).2.engine.core.Holds P ∧
      (start settings store now newId name).2.engine.handles.host = settings.engine.hostname :=
  Engine.holds_load hfresh (Engine.holds_new settings.engine now newId hstore) hread rfl

omit [RecordStore σ] in
theorem outbox_start (settings : Settings) (store : σ) (now : Int64) (newId : Nat → String)
    (name : SessionId → String)
    (id : SessionId) : (start settings store now newId name).2.engine.outbox id = [] := by
  show Sessions.outbox (Engine.load _).2.sessions id = []
  rw [Engine.sessions_load]
  rfl

end Broker

end JobBroker
