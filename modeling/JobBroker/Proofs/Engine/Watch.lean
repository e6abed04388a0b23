import JobBroker.Proofs.Engine.Action
import JobBroker.Proofs.Queue.Readiness
import Mathlib.Logic.Relation

/-!
# The watch over the queues

Which sessions can do what, which of them sleep, which are woken when a job comes in, and what is
queued. Clients, handles, live jobs, packets and the store are no part of it.

* `Watch.Turn` : all that happens to a watch while the clock stands, but for what a session learns.
* `watch_sleep`, `watch_wake`, `watch_wakeCrew` : what becomes of the sleeping sessions.
* `watch_addAbility`, `watch_removeAbility`, `watch_resetAbilities`, `watch_depart` : what becomes
  of what they can do.
-/

namespace JobBroker

open Function (update update_apply)
open Relation (ReflTransGen)

@[simp] theorem Table.keys_modify {κ α : Type} [DecidableEq κ] (t : Table κ α) (k : κ) (f : α → α) :
    (t.modify k f).keys = t.keys := by
  simp only [keys, modify, List.map_map]
  refine List.map_congr_left fun entry _ => ?_
  simp only [Function.comp_apply]
  split <;> rfl

structure Watch where
  now : Int64
  /-- Every session so far. -/
  roll : List SessionId
  able : SessionId → String → Prop
  asleep : SessionId → Prop
  /-- Who is woken when a job of a function comes in. -/
  listed : String → SessionId → Prop
  queues : String → Queue

namespace Watch

/-- A session begins. It can do nothing yet. -/
def arrive (w : Watch) : Watch := { w with roll := w.roll ++ [w.roll.length] }

def learn (w : Watch) (id : SessionId) (f : String) : Watch :=
  { w with able := fun i g => w.able i g ∨ i = id ∧ g = f }

/-- A session can no longer do some functions, and is not woken for them. -/
def forget (w : Watch) (id : SessionId) (which : String → Prop) : Watch :=
  { w with
    able := fun i f => w.able i f ∧ ¬ (i = id ∧ which f)
    listed := fun f i => w.listed f i ∧ ¬ (i = id ∧ which f) }

/-- A session falls asleep, to be woken for all it can do. -/
def doze (w : Watch) (id : SessionId) : Watch :=
  { w with
    asleep := fun i => w.asleep i ∨ i = id
    listed := fun f i => w.listed f i ∨ i = id ∧ w.able id f }

def rouse (w : Watch) (id : SessionId) : Watch :=
  { w with
    asleep := fun i => w.asleep i ∧ i ≠ id
    listed := fun f i => w.listed f i ∧ ¬ (i = id ∧ w.able id f) }

/-- All that are listed for a function are woken, and listed for it no more. -/
def alarm (w : Watch) (f : String) : Watch :=
  { w with
    asleep := fun i => w.asleep i ∧ ¬ w.listed f i
    listed := fun g i => w.listed g i ∧ g ≠ f }

def setQueue (w : Watch) (f : String) (q : Queue) : Watch :=
  { w with queues := update w.queues f q }

/-- Two watches are the same when each part says the same. -/
theorem eq_of_iff {w w' : Watch} (hnow : w.now = w'.now) (hroll : w.roll = w'.roll)
    (hable : ∀ i f, w.able i f ↔ w'.able i f) (hasleep : ∀ i, w.asleep i ↔ w'.asleep i)
    (hlisted : ∀ f i, w.listed f i ↔ w'.listed f i) (hqueues : ∀ f, w.queues f = w'.queues f) :
    w = w' := by
  obtain ⟨now, roll, able, asleep, listed, queues⟩ := w
  obtain rfl : now = w'.now := hnow
  obtain rfl : roll = w'.roll := hroll
  obtain rfl : able = w'.able := funext fun i => funext fun f => propext (hable i f)
  obtain rfl : asleep = w'.asleep := funext fun i => propext (hasleep i)
  obtain rfl : listed = w'.listed := funext fun f => funext fun i => propext (hlisted f i)
  obtain rfl : queues = w'.queues := funext hqueues
  rfl

/-- One thing that happens at a time. -/
inductive Turn (w : Watch) : Watch → Prop
  | arrive : Turn w w.arrive
  /-- A session falls asleep that has nothing to do. -/
  | doze {id : SessionId} : (∀ f, w.able id f → (w.queues f).hasReady w.now = false) →
    Turn w (w.doze id)
  | rouse {id : SessionId} : Turn w (w.rouse id)
  | forget {id : SessionId} {which : String → Prop} : Turn w (w.forget id which)
  /-- Whatever comes into a queue, its alarm is given. -/
  | supply {f : String} {q : Queue} : ((w.queues f).Orderly → q.Orderly) →
    Turn w ((w.setQueue f q).alarm f)
  | withdraw {f : String} {q : Queue} : q.Within (w.queues f) → Turn w (w.setQueue f q)

theorem rouse_doze (w : Watch) (id : SessionId) : (w.doze id).rouse id = w.rouse id :=
  eq_of_iff rfl rfl (fun _ _ => .rfl) (fun i => by simp only [rouse, doze]; tauto)
    (fun f i => by simp only [rouse, doze]; tauto) fun _ => rfl

end Watch

namespace Engine

variable {σ : Type} {e e' : Engine σ}

def watch (e : Engine σ) : Watch where
  now := e.now
  roll := e.sessions.keys
  able id f := f ∈ e.abilities id
  asleep id := e.sessions.isAsleep id
  listed f id := id ∈ (e.workshop f).crew.sleepers
  queues f := (e.workshop f).queue

/-! ### Workshops -/

@[simp] theorem watch_establish (e : Engine σ) (f : String) : (e.establish f).watch = e.watch :=
  Watch.eq_of_iff rfl rfl (fun _ _ => .rfl) (fun _ => .rfl)
    (fun g i => by simp only [watch, workshop_establish]) fun g => by
      simp only [watch, workshop_establish]

/-- What is done to the wait lists of a function. -/
theorem watch_modifyWorkshop (e : Engine σ) (f : String) {change : Workshop → Workshop}
    (hcrew : ∀ w, (change w).crew = w.crew) (hqueue : ∀ w, (change w).queue = w.queue) :
    (e.modifyWorkshop f change).watch = e.watch :=
  Watch.eq_of_iff rfl rfl (fun _ _ => .rfl) (fun _ => .rfl)
    (fun g i => by
      simp only [watch, workshop_modifyWorkshop_of_eq Workshop.crew hcrew e f g])
    (workshop_modifyWorkshop_of_eq Workshop.queue hqueue e f)

@[simp] theorem watch_releaseWaiters (e : Engine σ) (k : JobKey) :
    (e.releaseWaiters k).watch = e.watch :=
  watch_modifyWorkshop e _ (fun _ => rfl) fun _ => rfl

@[simp] theorem watch_await (e : Engine σ) (j : Job) (client : Option SessionId) :
    (e.await j client).watch = e.watch := by
  unfold await
  split
  · rfl
  · split
    · rfl
    · exact watch_modifyWorkshop e _ (fun _ => rfl) fun _ => rfl

theorem watch_modifyQueue {f : String} (hf : (e.workshop? f).isSome) (change : Queue → Queue) :
    (e.modifyWorkshop f fun w => { w with queue := change w.queue }).watch =
      e.watch.setQueue f (change (e.workshop f).queue) := by
  refine Watch.eq_of_iff rfl rfl (fun _ _ => .rfl) (fun _ => .rfl) (fun g i => ?_) fun g => ?_
  · show i ∈ Crew.sleepers _ ↔ i ∈ Crew.sleepers _
    have hcrew : ∀ w : Workshop, { w with queue := change w.queue }.crew = w.crew := fun _ => rfl
    rw [workshop_modifyWorkshop_of_eq Workshop.crew hcrew e f g]
  · show Workshop.queue _ = update e.watch.queues f _ g
    rw [workshop_modifyWorkshop hf, update_apply]
    by_cases h : f = g
    · simp [h]
    · simp [h, Ne.symm h, watch]

theorem watch_setQueue {f : String} (hf : (e.workshop? f).isSome) (q : Queue) :
    (e.setQueue f q).watch = e.watch.setQueue f q :=
  watch_modifyQueue hf fun _ => q

theorem watch_setQueue_self (e : Engine σ) (f : String) :
    (e.setQueue f (e.workshop f).queue).watch = e.watch :=
  Watch.eq_of_iff rfl rfl (fun _ _ => .rfl) (fun _ => .rfl)
    (fun g i => by simp only [watch, workshop_setQueue_self]) fun g => by
      simp only [watch, workshop_setQueue_self]

/-! ### Crews -/

theorem workshop_modifyWorkshop_of_none {f : String} (hf : e.workshop? f = none) (g : String)
    (change : Workshop → Workshop) : (e.modifyWorkshop f change).workshop g = e.workshop g := by
  show Option.getD ((e.modifyWorkshop f change).workshop? g) _ = Option.getD (e.workshop? g) _
  rw [workshop?_modifyWorkshop]
  split
  · next h => rw [← h, hf]; rfl
  · rfl

/-- A crew that is changed is known, or was empty and stays so. -/
theorem watch_modifyCrew (e : Engine σ) (f : String) {change : Crew → Crew}
    (stays : SessionId → Prop → Prop)
    (hchange : ∀ c i, i ∈ (change c).sleepers ↔ stays i (i ∈ c.sleepers))
    (hf : (e.workshop? f).isSome ∨ ∀ i, ¬ stays i False) :
    (e.modifyCrew f change).watch =
      { e.watch with
        listed := fun g i =>
          if g = f then stays i (e.watch.listed g i) else e.watch.listed g i } := by
  have hqueue : ∀ w : Workshop, { w with crew := change w.crew }.queue = w.queue := fun _ => rfl
  refine Watch.eq_of_iff rfl rfl (fun _ _ => .rfl) (fun _ => .rfl) (fun g i => ?_)
    (workshop_modifyWorkshop_of_eq Workshop.queue hqueue e f)
  show i ∈ Crew.sleepers _ ↔ if g = f then stays i (i ∈ Crew.sleepers _) else i ∈ Crew.sleepers _
  cases hw : e.workshop? f with
  | none =>
    have hempty := hf.resolve_left (by simp [hw])
    rw [modifyCrew, workshop_modifyWorkshop_of_none hw]
    split
    · next h => subst h; simp [workshop, hw, Workshop.new, Crew.empty, hempty]
    · exact .rfl
  | some w =>
    rw [modifyCrew, workshop_modifyWorkshop (by simp [hw])]
    by_cases h : f = g
    · simp [h, hchange]
    · simp [h, Ne.symm h]

/-- A session leaves some crews, or the sleepers of some crews. -/
theorem watch_leave {change : Crew → Crew} (id : SessionId)
    (hchange : ∀ c i, i ∈ (change c).sleepers ↔ i ∈ c.sleepers ∧ i ≠ id) (fs : List String)
    (e : Engine σ) : (fs.foldl (fun e f => e.modifyCrew f change) e).watch =
      { e.watch with listed := fun g i => e.watch.listed g i ∧ ¬ (i = id ∧ g ∈ fs) } := by
  induction fs generalizing e with
  | nil => simp
  | cons f fs ih =>
    rw [List.foldl_cons, ih, watch_modifyCrew e f (fun i h => h ∧ i ≠ id) hchange
      (.inr fun i h => h.1)]
    refine Watch.eq_of_iff rfl rfl (fun _ _ => .rfl) (fun _ => .rfl) (fun g i => ?_) fun _ => rfl
    by_cases h : g = f
    · simp [h]
      tauto
    · simp [h]

/-- A session joins the sleepers of some crews. -/
theorem watch_addSleeper (id : SessionId) (fs : List String) (e : Engine σ) :
    (fs.foldl (fun e f => (e.establish f).modifyCrew f (·.addSleeper id)) e).watch =
      { e.watch with listed := fun g i => e.watch.listed g i ∨ i = id ∧ g ∈ fs } := by
  have hchange : ∀ (c : Crew) i, i ∈ (c.addSleeper id).sleepers ↔ i ∈ c.sleepers ∨ i = id := by
    intro c i
    unfold Crew.addSleeper
    split
    · next h => exact ⟨.inl, fun hi => hi.elim (fun hi => hi) fun hi => hi ▸ h⟩
    · simp
  induction fs generalizing e with
  | nil => simp
  | cons f fs ih =>
    rw [List.foldl_cons, ih, watch_modifyCrew _ f (fun i h => h ∨ i = id) hchange
      (.inl (isSome_establish e f)), watch_establish]
    refine Watch.eq_of_iff rfl rfl (fun _ _ => .rfl) (fun _ => .rfl) (fun g i => ?_) fun _ => rfl
    by_cases h : g = f
    · simp [h]
      tauto
    · simp [h]

/-! ### Sessions -/

theorem session?_modifySession (e : Engine σ) (id i : SessionId) (change : Session → Session) :
    (e.modifySession id change).session? i =
      if id = i then (e.session? id).map change else e.session? i := by
  refine (Table.get?_modify _ _ _ _).trans ?_
  split
  · next h => rw [h]; rfl
  · rfl

theorem isAsleep_eq (e : Engine σ) (id : SessionId) :
    e.sessions.isAsleep id = (e.session? id).any Session.isAsleep := rfl

/-- What becomes of the abilities and the sleep of the sessions when one of them changes. -/
theorem watch_modifySession (e : Engine σ) (id : SessionId) (change : Session → Session) :
    (e.modifySession id change).watch =
      { e.watch with
        able := fun i f =>
          if i = id then ∃ s, e.session? id = some s ∧ f ∈ (change s).abilities
          else e.watch.able i f
        asleep := fun i =>
          if i = id then ∃ s, e.session? id = some s ∧ (change s).isAsleep
          else e.watch.asleep i } := by
  refine Watch.eq_of_iff rfl (Table.keys_modify _ _ _) (fun i f => ?_) (fun i => ?_)
    (fun _ _ => .rfl) fun _ => rfl
  · show f ∈ (Option.map _ ((e.modifySession id change).session? i)).getD [] ↔
      if i = id then _ else f ∈ (Option.map _ (e.session? i)).getD []
    rw [session?_modifySession]
    by_cases h : i = id
    · subst h
      cases e.session? i <;> simp
    · simp [h, Ne.symm h]
  · show ((e.modifySession id change).session? i).any Session.isAsleep = true ↔
      if i = id then _ else (e.session? i).any Session.isAsleep = true
    rw [session?_modifySession]
    by_cases h : i = id
    · subst h
      cases e.session? i <;> simp
    · simp [h, Ne.symm h]

/-- A change of a session that is no matter of abilities or sleep. -/
theorem watch_modifySession_of_eq (e : Engine σ) (id : SessionId) {change : Session → Session}
    (hable : ∀ s, (change s).abilities = s.abilities)
    (hasleep : ∀ s, (change s).isAsleep = s.isAsleep) :
    (e.modifySession id change).watch = e.watch := by
  rw [watch_modifySession]
  refine Watch.eq_of_iff rfl rfl (fun i f => ?_) (fun i => ?_) (fun _ _ => .rfl) fun _ => rfl
  · by_cases h : i = id
    · subst h
      simp only [if_true, hable, watch, abilities]
      cases e.session? i <;> simp
    · simp [h]
  · by_cases h : i = id
    · subst h
      simp only [if_true, hasleep, watch, Sessions.isAsleep]
      show _ ↔ (e.session? i).any _ = true
      cases e.session? i <;> simp
    · simp [h]

theorem watch_sendTo (e : Engine σ) (id : SessionId) (packet : Session → Packet) :
    (e.modifySession id fun s => s.send (packet s)).watch = e.watch := by
  refine watch_modifySession_of_eq e id (fun s => ?_) fun s => ?_ <;>
  · unfold Session.send
    split <;> rfl

@[simp] theorem watch_send (e : Engine σ) (ids : List SessionId) (packet : Session → Packet) :
    (e.send ids packet).watch = e.watch := by
  induction ids generalizing e with
  | nil => rfl
  | cons id ids ih =>
    exact (ih (e.modifySession id fun s => s.send (packet s))).trans (watch_sendTo e id packet)

@[simp] theorem watch_dismiss (e : Engine σ) (k : JobKey) (packet : Session → Packet) :
    (e.dismiss k packet).watch = e.watch :=
  (watch_send _ _ packet).trans (watch_releaseWaiters e k)

@[simp] theorem watch_publish (e : Engine σ) (event : PeerEvent) :
    (e.publish event).watch = e.watch := by
  unfold publish
  split <;> rfl

theorem session?_newSession (e : Engine σ) (peer : String) (i : SessionId) :
    (e.newSession peer).2.session? i =
      if e.sessions.size = i then some (.new peer) else e.session? i :=
  Table.get?_insert _ _ _ _

/-- The number of the next session is not given yet. -/
theorem session?_size (hroll : ∀ i ∈ e.watch.roll, i < e.watch.roll.length) :
    e.session? e.sessions.size = none := by
  have hsize : e.watch.roll.length = e.sessions.size := List.length_map ..
  refine Option.eq_none_iff_forall_ne_some.mpr fun s hs => ?_
  exact absurd (hroll _ (Table.mem_keys.mpr ⟨s, hs⟩)) (by rw [hsize]; exact Nat.lt_irrefl _)

theorem watch_newSession (hroll : ∀ i ∈ e.watch.roll, i < e.watch.roll.length) (peer : String) :
    (e.newSession peer).2.watch = e.watch.arrive := by
  have hnone := session?_size hroll
  refine Watch.eq_of_iff rfl ?_ (fun i f => ?_) (fun i => ?_) (fun _ _ => .rfl) fun _ => rfl
  · show (e.sessions.insert e.sessions.size (.new peer)).keys =
      e.sessions.keys ++ [e.sessions.keys.length]
    rw [Table.keys, Table.entries_insert_of_get?_eq_none (show e.sessions.get? _ = none from hnone)]
    simp [Table.keys, Table.size]
  · show f ∈ (Option.map _ ((e.newSession peer).2.session? i)).getD [] ↔
      f ∈ (Option.map _ (e.session? i)).getD []
    rw [session?_newSession]
    split
    · next h => simp [← h, hnone, Session.new]
    · rfl
  · show ((e.newSession peer).2.session? i).any Session.isAsleep = true ↔
      (e.session? i).any Session.isAsleep = true
    rw [session?_newSession]
    split
    · next h => simp [← h, hnone, Session.new, Session.isAsleep]
    · rfl

/-! ### Abilities -/

/-- Only a session that has begun can learn anything. -/
theorem watch_addAbility (e : Engine σ) (id : SessionId) (f : String) (timeout : Option UInt32) :
    (e.addAbility id f timeout).watch =
      if (e.session? id).isSome then e.watch.learn id f else e.watch := by
  have hadd : ∀ c : Crew, (c.add id).sleepers = c.sleepers := by
    intro c
    unfold Crew.add
    split <;> rfl
  have hable : ∀ (s : Session) g, g ∈ (s.addAbility f timeout).abilities ↔
      g ∈ s.abilities ∨ g = f := by
    intro s g
    simp only [Session.addAbility, Session.canDo, List.contains_iff_mem]
    split
    · next h => exact ⟨.inl, fun hg => hg.elim (fun hg => hg) fun hg => hg ▸ h⟩
    · simp
  have hasleep : ∀ s : Session, (s.addAbility f timeout).isAsleep = s.isAsleep := fun _ => rfl
  rw [addAbility, watch_modifyCrew _ f (fun _ h => h) (fun c i => by rw [hadd])
    (.inl (isSome_establish _ f)), watch_establish, watch_modifySession]
  simp only [hable, hasleep]
  cases hs : e.session? id with
  | none =>
    refine Watch.eq_of_iff rfl rfl (fun i g => ?_) (fun i => ?_) (fun g i => by simp) fun _ => rfl
    · by_cases h : i = id <;> simp [h, watch, abilities, hs]
    · by_cases h : i = id <;> simp [h, watch, isAsleep_eq, hs]
  | some s =>
    refine Watch.eq_of_iff rfl rfl (fun i g => ?_) (fun i => ?_) (fun g i => by simp [Watch.learn])
      fun _ => rfl
    · by_cases h : i = id <;> simp [h, Watch.learn, watch, abilities, hs]
    · by_cases h : i = id <;> simp [h, Watch.learn, watch, isAsleep_eq, hs]

theorem watch_clearAbilities (e : Engine σ) (id : SessionId) (change : Session → Session)
    (hable : ∀ s, (change s).abilities = []) (hasleep : ∀ s, (change s).isAsleep = s.isAsleep) :
    (e.modifySession id change).watch =
      { e.watch with able := fun i f => e.watch.able i f ∧ i ≠ id } := by
  rw [watch_modifySession]
  simp only [hable, hasleep]
  refine Watch.eq_of_iff rfl rfl (fun i g => ?_) (fun i => ?_) (fun _ _ => .rfl) fun _ => rfl
  · by_cases h : i = id <;> simp [h]
  · by_cases h : i = id
    · subst h
      cases hs : e.session? i <;> simp [watch, isAsleep_eq, hs]
    · simp [h]

theorem mem_sleepers_remove (id : SessionId) (c : Crew) (i : SessionId) :
    i ∈ (c.remove id).sleepers ↔ i ∈ c.sleepers ∧ i ≠ id := by
  simp [Crew.remove]

theorem watch_removeAbility (e : Engine σ) (id : SessionId) (f : String) :
    (e.removeAbility id f).watch = e.watch.forget id (· = f) := by
  have hleave :=
    watch_leave id (mem_sleepers_remove id) [f] (e.modifySession id (·.removeAbility f))
  rw [removeAbility]
  refine hleave.trans ?_
  rw [watch_modifySession]
  have hasleep : ∀ s : Session, (s.removeAbility f).isAsleep = s.isAsleep := fun _ => rfl
  simp only [hasleep]
  refine Watch.eq_of_iff rfl rfl (fun i g => ?_) (fun i => ?_) (fun g i => by simp [Watch.forget])
    fun _ => rfl
  · by_cases h : i = id
    · subst h
      cases hs : e.session? i <;> simp [Watch.forget, Session.removeAbility, watch, abilities, hs]
    · simp [Watch.forget, h]
  · by_cases h : i = id
    · subst h
      cases hs : e.session? i <;> simp [Watch.forget, watch, isAsleep_eq, hs]
    · simp [Watch.forget, h]

theorem watch_resetAbilities (e : Engine σ) (id : SessionId) :
    (e.resetAbilities id).watch = e.watch.forget id (e.watch.able id) := by
  refine (watch_leave id (mem_sleepers_remove id) (e.abilities id) _).trans ?_
  rw [watch_clearAbilities e id Session.clearAbilities (fun _ => rfl) fun _ => rfl]
  refine Watch.eq_of_iff rfl rfl (fun i f => ?_) (fun _ => .rfl) (fun _ _ => .rfl) fun _ => rfl
  by_cases h : i = id <;> simp [Watch.forget, h]

/-- A session that disconnects leaves all crews. -/
theorem watch_depart (e : Engine σ) (id : SessionId) :
    (e.depart id).watch = e.watch.forget id fun _ => True := by
  rw [depart, watch_clearAbilities _ id (fun s => { s.clearAbilities with assigned := [] })
    (fun _ => rfl) fun _ => rfl]
  refine Watch.eq_of_iff rfl rfl (fun i f => ?_) (fun _ => .rfl) (fun f i => ?_) fun f => ?_
  · simp [Watch.forget, watch, abilities, session?]
  · show i ∈ (Option.getD (Table.get? _ f) _ : Workshop).crew.sleepers ↔
      i ∈ (Option.getD (e.workshops.get? f) _ : Workshop).crew.sleepers ∧ _
    rw [Table.get?_filterMap]
    cases e.workshops.get? f <;> simp [Workshop.leave, Crew.remove, Workshop.new, Crew.empty]
  · show (Option.getD (Table.get? _ f) _ : Workshop).queue =
      (Option.getD (e.workshops.get? f) _ : Workshop).queue
    rw [Table.get?_filterMap]
    cases e.workshops.get? f <;> rfl

/-! ### Sleep -/

theorem watch_wakeSession (e : Engine σ) (id : SessionId) :
    (e.modifySession id Session.wake).watch =
      { e.watch with asleep := fun i => e.watch.asleep i ∧ i ≠ id } := by
  have hwake : ∀ s : Session, s.wake.abilities = s.abilities ∧ s.wake.isAsleep = false := by
    intro s
    unfold Session.wake Session.send
    split
    · split <;> exact ⟨rfl, rfl⟩
    · next h => exact ⟨rfl, Bool.not_eq_true _ ▸ h⟩
  rw [watch_modifySession]
  simp only [fun s => (hwake s).1, fun s => (hwake s).2]
  refine Watch.eq_of_iff rfl rfl (fun i f => ?_) (fun i => ?_) (fun _ _ => .rfl) fun _ => rfl
  · by_cases h : i = id
    · subst h
      cases hs : e.session? i <;> simp [watch, abilities, hs]
    · simp [h]
  · by_cases h : i = id <;> simp [h]

theorem watch_wakeSessions (ids : List SessionId) (e : Engine σ) :
    ({ e with sessions := e.sessions.wake ids } : Engine σ).watch =
      { e.watch with asleep := fun i => e.watch.asleep i ∧ i ∉ ids } := by
  induction ids generalizing e with
  | nil =>
    exact Watch.eq_of_iff rfl rfl (fun _ _ => .rfl) (fun i => by simp [Sessions.wake, watch])
      (fun _ _ => .rfl) fun _ => rfl
  | cons id ids ih =>
    refine (ih (e.modifySession id Session.wake)).trans ?_
    rw [watch_wakeSession]
    exact Watch.eq_of_iff rfl rfl (fun _ _ => .rfl) (fun i => by simp [and_assoc])
      (fun _ _ => .rfl) fun _ => rfl

theorem watch_wakeCrew (e : Engine σ) (f : String) : (e.wakeCrew f).watch = e.watch.alarm f := by
  unfold wakeCrew
  split
  · next hw =>
    have hnone : ∀ i, ¬ e.watch.listed f i := by
      simp [watch, workshop, hw, Workshop.new, Crew.empty]
    refine Watch.eq_of_iff rfl rfl (fun _ _ => .rfl) (fun i => ?_) (fun g i => ?_) fun _ => rfl
    · simp [Watch.alarm, hnone]
    · exact ⟨fun h => ⟨h, fun hg => hnone i (hg ▸ h)⟩, And.left⟩
  · next w hw =>
    have hlisted : ∀ i, e.watch.listed f i ↔ i ∈ w.crew.sleepers := fun i => by
      simp [watch, workshop, hw]
    refine (watch_wakeSessions w.crew.sleepers (e.modifyCrew f _)).trans ?_
    rw [watch_modifyCrew e f (fun _ _ => False) (fun c i => by simp)
      (.inr fun _ => id)]
    refine Watch.eq_of_iff rfl rfl (fun _ _ => .rfl) (fun i => ?_) (fun g i => ?_) fun _ => rfl
    · simp [Watch.alarm, hlisted]
    · by_cases h : g = f <;> simp [Watch.alarm, h]

theorem watch_wake (e : Engine σ) (id : SessionId) : (e.wake id).watch = e.watch.rouse id := by
  refine (watch_wakeSession _ id).trans ?_
  rw [watch_leave id (fun c i => by simp [Crew.removeSleeper])]
  exact Watch.eq_of_iff rfl rfl (fun _ _ => .rfl) (fun _ => .rfl) (fun _ _ => .rfl) fun _ => rfl

theorem watch_dozeOff {id : SessionId} (hid : (e.session? id).isSome) (second : Nat) :
    ((e.abilities id).foldl (fun e f => (e.establish f).modifyCrew f (·.addSleeper id))
      (e.modifySession id (·.sleepUntil second))).watch = e.watch.doze id := by
  obtain ⟨s, hs⟩ := Option.isSome_iff_exists.mp hid
  have hable : ∀ s : Session, (s.sleepUntil second).abilities = s.abilities := fun _ => rfl
  rw [watch_addSleeper, watch_modifySession]
  refine Watch.eq_of_iff rfl rfl (fun i f => ?_) (fun i => ?_) (fun _ _ => .rfl) fun _ => rfl
  · by_cases h : i = id <;> simp [h, hable, Watch.doze, watch, abilities, hs]
  · by_cases h : i = id <;> simp [h, Watch.doze, hs, Session.isAsleep, Session.sleepUntil]

/-- A session falls asleep, and is woken at once when there is something for it to do. -/
theorem watch_sleep (e : Engine σ) {id : SessionId} (hid : (e.session? id).isSome) :
    (e.sleep id).watch =
      if (e.abilities id).any fun f => (e.workshop f).queue.hasReady e.now then e.watch.rouse id
      else e.watch.doze id := by
  have hdoze := watch_dozeOff hid (e.uptime + e.settings.longPollSeconds)
  simp only [sleep]
  generalize (e.abilities id).foldl (fun e f => (e.establish f).modifyCrew f (·.addSleeper id))
    (e.modifySession id (·.sleepUntil (e.uptime + e.settings.longPollSeconds))) = e₁ at hdoze ⊢
  have hready : ∀ f, (e₁.workshop f).queue.hasReady e₁.now = (e.workshop f).queue.hasReady e.now :=
    fun f => congrArg (fun w : Watch => (w.queues f).hasReady w.now) hdoze
  simp only [hready]
  split
  · rw [watch_wake, hdoze, Watch.rouse_doze]
  · exact hdoze

theorem sleep_of_none {id : SessionId} (hid : e.session? id = none) :
    (e.sleep id).watch = e.watch := by
  have hnone : e.abilities id = [] := by simp [abilities, hid]
  simp only [sleep, hnone, List.foldl_nil, List.any_nil, Bool.false_eq_true, if_false]
  rw [watch_modifySession]
  refine Watch.eq_of_iff rfl rfl (fun i f => ?_) (fun i => ?_) (fun _ _ => .rfl) fun _ => rfl
  · by_cases h : i = id <;> simp [h, watch, hnone, hid]
  · by_cases h : i = id <;> simp [h, watch, isAsleep_eq, hid]

end Engine

end JobBroker
