import JobBroker.Proofs.Engine.Calm
import JobBroker.Proofs.Engine.Wakefulness

/-!
# Crews and abilities

What a session can do is noted twice: in the session, and in the crew of each function. Both are
written when a session says what it can do or departs, and by nothing else.

* `SameCrews` : what changes neither, and forgets no function. `SameCrews.act` : all that happens to
  jobs is of this kind.
* `Crewed.act` : a legal action leaves the two in agreement.
* `known_act` : a function that is known stays known.
-/

namespace JobBroker

namespace Engine

variable {σ : Type} {e e' : Engine σ}

/-- The same sessions are connected, can do the same things and are in the same crews, and all
functions that were known still are. -/
structure SameCrews (e e' : Engine σ) : Prop where
  connected : e'.connected = e.connected
  able : ∀ id, (e'.session? id).map Session.abilities = (e.session? id).map Session.abilities
  workers : ∀ f, (e'.workshop f).crew.workers = (e.workshop f).crew.workers
  known : ∀ f, (e.workshop? f).isSome → (e'.workshop? f).isSome

theorem Calm.sameCrews (h : Calm e e') : SameCrews e e' :=
  ⟨h.connected, h.able, fun f => congrArg Crew.workers (h.crew f), h.known⟩

namespace SameCrews

theorem refl (e : Engine σ) : SameCrews e e := ⟨rfl, fun _ => rfl, fun _ => rfl, fun _ => id⟩

theorem after {e'' : Engine σ} (h' : SameCrews e' e'') (h : SameCrews e e') : SameCrews e e'' :=
  ⟨h'.connected.trans h.connected, fun id => (h'.able id).trans (h.able id),
    fun f => (h'.workers f).trans (h.workers f), fun f hf => h'.known f (h.known f hf)⟩

theorem abilities (h : SameCrews e e') (id : SessionId) : e'.abilities id = e.abilities id := by
  rw [Engine.abilities, h.able, Engine.abilities]

theorem modifyCrew (e : Engine σ) (f : String) (change : Crew → Crew)
    (h : ∀ c, (change c).workers = c.workers) : SameCrews e (e.modifyCrew f change) :=
  { refl e with
    workers := workshop_modifyWorkshop_of_eq (·.crew.workers) (fun w => h w.crew) e f
    known := fun g hg => (isSome_modifyWorkshop e f g _).trans hg }

theorem modifySession (e : Engine σ) (id : SessionId) (change : Session → Session)
    (h : ∀ s, (change s).abilities = s.abilities) : SameCrews e (e.modifySession id change) :=
  { refl e with able := able_modifySession e id h }

theorem foldl {α : Type} {op : Engine σ → α → Engine σ} (hop : ∀ e a, SameCrews e (op e a))
    (as : List α) (e : Engine σ) : SameCrews e (as.foldl op e) := by
  induction as generalizing e with
  | nil => exact refl e
  | cons a as ih => exact (ih _).after (hop e a)

/-! ### Sleep -/

theorem abilities_wake (s : Session) : s.wake.abilities = s.abilities := by
  unfold Session.wake
  split
  · exact Calm.abilities_send _ _
  · rfl

theorem wakeSessions (e : Engine σ) (ids : List SessionId) :
    SameCrews e { e with sessions := e.sessions.wake ids } := by
  induction ids generalizing e with
  | nil => exact refl e
  | cons id ids ih => exact (ih _).after (modifySession e id _ abilities_wake)

theorem wakeCrew (e : Engine σ) (f : String) : SameCrews e (e.wakeCrew f) := by
  unfold Engine.wakeCrew
  split
  · exact refl e
  · next w hw =>
    have hcrew : SameCrews e (e.modifyCrew f fun _ => (w.crew.wakeAll e.sessions).2.1) :=
      { refl e with
        workers := fun g => by
          rw [Engine.modifyCrew, workshop_modifyWorkshop (by rw [hw]; rfl)]
          split
          · next hg =>
            subst hg
            rw [workshop, hw, Option.getD_some]
            rfl
          · rfl
        known := fun g hg => (isSome_modifyWorkshop e f g _).trans hg }
    exact (wakeSessions (e.modifyCrew f _) w.crew.sleepers).after hcrew

theorem wake (e : Engine σ) (id : SessionId) : SameCrews e (e.wake id) :=
  (modifySession _ id _ abilities_wake).after
    (foldl (fun e f => modifyCrew e f (·.removeSleeper id) fun _ => rfl) (e.abilities id) e)

theorem sleep (e : Engine σ) (id : SessionId) : SameCrews e (e.sleep id) := by
  have hadd : ∀ c : Crew, (c.addSleeper id).workers = c.workers := fun c => by
    unfold Crew.addSleeper
    split <;> rfl
  have hasleep := (foldl
    (fun (e : Engine σ) f => (modifyCrew _ f _ hadd).after (Calm.establish e f).sameCrews)
    (e.abilities id) _).after (modifySession e id
      (·.sleepUntil (e.uptime + e.settings.longPollSeconds)) fun _ => rfl)
  simp only [Engine.sleep]
  split
  · exact (wake _ id).after hasleep
  · exact hasleep

/-! ### Jobs -/

/-- Rings are no matter of who can do what. -/
theorem of_stir {o : Option String} (h : Stir e e' o) : SameCrews e e' := by
  cases h with
  | calm h => exact h.sameCrews
  | ring h h' => exact h'.sameCrews.after ((wakeCrew _ _).after h.sameCrews)

theorem requeue (e : Engine σ) (handle : String) : SameCrews e (e.requeue handle) :=
  of_stir (stir_requeue e handle)

variable [JobStore σ]

theorem abandonAll (handles : List String) (e : Engine σ) :
    SameCrews e (handles.foldl abandon e) := by
  refine foldl (fun e handle => ?_) handles e
  unfold abandon
  split
  · exact requeue e handle
  · exact (Calm.finish e handle .fail).sameCrews

/-- All other actions leave the crews alone. -/
theorem act (e : Engine σ) {a : Action σ} (ha : a.staffs = false) : SameCrews e (e.act a) := by
  cases hrests : a.rests with
  | false => exact of_stir (stir_act e ha hrests)
  | true =>
    cases a with
    | sleep id => exact sleep e id
    | wake id => exact wake e id
    | _ => exact absurd hrests Bool.false_ne_true

end SameCrews

/-! ### What sessions learn and forget -/

theorem abilities_modifySession (e : Engine σ) (id i : SessionId) (change : Session → Session) :
    (e.modifySession id change).abilities i =
      if id = i then ((e.session? id).map fun s => (change s).abilities).getD []
      else e.abilities i := by
  rw [abilities, session?_modifySession]
  split
  · rw [Option.map_map]
    rfl
  · rfl

theorem isSome_modifySession (e : Engine σ) (id i : SessionId) (change : Session → Session) :
    ((e.modifySession id change).session? i).isSome = (e.session? i).isSome := by
  rw [session?_modifySession]
  split
  · next h => rw [Option.isSome_map, h]
  · rfl

theorem workers_remove (e : Engine σ) (id : SessionId) (f g : String) :
    ((e.modifyCrew f (·.remove id)).workshop g).crew.workers =
      if f = g then (e.workshop g).crew.workers.filter (· ≠ id)
      else (e.workshop g).crew.workers := by
  cases hf : e.workshop? f with
  | none =>
    rw [modifyCrew, workshop_modifyWorkshop_of_none hf]
    split
    · next h =>
      subst h
      rw [workshop, hf]
      rfl
    · rfl
  | some w =>
    rw [modifyCrew, workshop_modifyWorkshop (by rw [hf]; rfl)]
    split <;> rfl

theorem workers_leaveCrews (id : SessionId) (fs : List String) (e : Engine σ) (g : String) :
    ((e.leaveCrews id fs).workshop g).crew.workers =
      if g ∈ fs then (e.workshop g).crew.workers.filter (· ≠ id)
      else (e.workshop g).crew.workers := by
  induction fs generalizing e with
  | nil => rfl
  | cons f fs ih =>
    refine (ih _).trans ?_
    rw [workers_remove]
    by_cases hf : f = g
    · subst hf
      simp
    · simp [hf, Ne.symm hf]

theorem sessions_leaveCrews (id : SessionId) (fs : List String) (e : Engine σ) :
    (e.leaveCrews id fs).sessions = e.sessions ∧
      (e.leaveCrews id fs).connected = e.connected := by
  induction fs generalizing e with
  | nil => exact ⟨rfl, rfl⟩
  | cons f fs ih => exact ih (e.modifyCrew f (·.remove id))

theorem workers_add (e : Engine σ) (id : SessionId) (f g : String) :
    (((e.establish f).modifyCrew f (·.add id)).workshop g).crew.workers =
      if f = g ∧ id ∉ (e.workshop g).crew.workers then (e.workshop g).crew.workers ++ [id]
      else (e.workshop g).crew.workers := by
  rw [modifyCrew, workshop_modifyWorkshop (isSome_establish e f), workshop_establish]
  by_cases hf : f = g
  · simp only [hf, if_true, true_and, Crew.add]
    split <;> simp [*]
  · simp [hf]

theorem workers_depart (e : Engine σ) (id : SessionId) (f : String) :
    ((e.depart id).workshop f).crew.workers =
      (e.workshop f).crew.workers.filter (· ≠ id) := by
  rw [workshop, workshop?_depart, workshop]
  cases e.workshop? f <;> rfl

theorem abilities_depart (e : Engine σ) (id i : SessionId) :
    (e.depart id).abilities i = if id = i then [] else e.abilities i := by
  refine (abilities_modifySession _ id i _).trans ?_
  split
  · show (Option.map (fun _ => []) (e.session? id)).getD [] = []
    cases e.session? id <;> rfl
  · rfl

theorem abilities_addAbility (e : Engine σ) (id : SessionId) (f : String)
    (timeout : Option UInt32) (i : SessionId) : (e.addAbility id f timeout).abilities i =
      if id = i ∧ (e.session? id).isSome ∧ f ∉ e.abilities id then e.abilities i ++ [f]
      else e.abilities i := by
  refine (abilities_modifySession e id i _).trans ?_
  by_cases hi : id = i
  · subst hi
    cases hs : e.session? id with
    | none => simp [abilities, hs]
    | some s =>
      by_cases hf : f ∈ s.abilities <;> simp [abilities, hs, Session.addAbility, Session.canDo, hf]
  · simp [hi]

theorem abilities_removeAbility (e : Engine σ) (id : SessionId) (f : String) (i : SessionId) :
    (e.removeAbility id f).abilities i =
      if id = i then (e.abilities i).filter (· ≠ f) else e.abilities i := by
  refine (abilities_modifySession e id i _).trans ?_
  split
  · next hi =>
    subst hi
    cases hs : e.session? id <;> simp [abilities, hs, Session.removeAbility]
  · rfl

theorem abilities_resetAbilities (e : Engine σ) (id i : SessionId) :
    (e.resetAbilities id).abilities i = if id = i then [] else e.abilities i := by
  have hsession : (e.resetAbilities id).session? i =
      (e.modifySession id Session.clearAbilities).session? i :=
    congrArg (Table.get? · i) (sessions_leaveCrews id _ _).1
  rw [abilities, hsession]
  refine (abilities_modifySession e id i _).trans ?_
  split
  · cases e.session? id <;> rfl
  · rfl

theorem abilities_disconnect [JobStore σ] (e : Engine σ) (id i : SessionId) :
    (e.disconnect id).abilities i = if id = i then [] else e.abilities i := by
  rw [disconnect_eq, (SameCrews.abandonAll _ _).abilities, abilities_depart]

/-! ### Crews and abilities agree -/

/-- Who is in the crew of a function can do it and is connected, and both are noted once. -/
structure Crewed (e : Engine σ) : Prop where
  mem_workers : ∀ {f i}, i ∈ (e.workshop f).crew.workers ↔ f ∈ e.abilities i
  nodup_workers : ∀ f, (e.workshop f).crew.workers.Nodup
  nodup_abilities : ∀ i, (e.abilities i).Nodup
  connected_of_able : ∀ {f i}, f ∈ e.abilities i → i ∈ e.connected
  isSome_of_connected : ∀ {i}, i ∈ e.connected → (e.session? i).isSome

theorem SameCrews.isSome_session? (h : SameCrews e e') (i : SessionId) :
    (e'.session? i).isSome = (e.session? i).isSome := by
  simpa only [Option.isSome_map] using congrArg Option.isSome (h.able i)

namespace Crewed

theorem of_same (he : e.Crewed) (h : SameCrews e e') : e'.Crewed where
  mem_workers := by
    intro f i
    rw [h.workers, h.abilities]
    exact he.mem_workers
  nodup_workers f := h.workers f ▸ he.nodup_workers f
  nodup_abilities i := h.abilities i ▸ he.nodup_abilities i
  connected_of_able hf := h.connected ▸ he.connected_of_able (h.abilities _ ▸ hf)
  isSome_of_connected hi := h.isSome_session? _ ▸ he.isSome_of_connected (h.connected ▸ hi)

/-- A session forgets some functions and leaves their crews. It may leave altogether when it has
forgotten everything. -/
theorem forget (he : e.Crewed) (id : SessionId) (keep : String → Bool)
    (hable : ∀ i, e'.abilities i = if id = i then (e.abilities i).filter keep else e.abilities i)
    (hworkers : ∀ f, (e'.workshop f).crew.workers =
      if keep f then (e.workshop f).crew.workers
      else (e.workshop f).crew.workers.filter (· ≠ id))
    (hsub : ∀ i ∈ e'.connected, i ∈ e.connected)
    (hstay : ∀ i ∈ e.connected, i ∈ e'.connected ∨ id = i ∧ ∀ f, keep f = false)
    (hsome : ∀ i, (e'.session? i).isSome = (e.session? i).isSome) : e'.Crewed where
  mem_workers := by
    intro f i
    rw [hworkers, hable]
    by_cases hi : id = i
    · subst hi
      cases hf : keep f <;> simp [hf, he.mem_workers]
    · cases hf : keep f <;> simp [hi, Ne.symm hi, he.mem_workers]
  nodup_workers f := by
    rw [hworkers]
    split
    · exact he.nodup_workers f
    · exact (he.nodup_workers f).filter _
  nodup_abilities i := by
    rw [hable]
    split
    · exact (he.nodup_abilities i).filter _
    · exact he.nodup_abilities i
  connected_of_able := by
    intro f i hf
    have hkept : f ∈ e.abilities i ∧ (id = i → keep f) := by
      rw [hable] at hf
      split at hf
      · next hi => exact ⟨(List.mem_filter.mp hf).1, fun _ => (List.mem_filter.mp hf).2⟩
      · next hi => exact ⟨hf, fun h => absurd h hi⟩
    refine (hstay i (he.connected_of_able hkept.1)).resolve_right fun ⟨hi, hnone⟩ => ?_
    exact Bool.false_ne_true ((hnone f).symm.trans (hkept.2 hi))
  isSome_of_connected hi := hsome _ ▸ he.isSome_of_connected (hsub _ hi)

theorem addAbility (he : e.Crewed) {id : SessionId} (hid : id ∈ e.connected) (f : String)
    (timeout : Option UInt32) : (e.addAbility id f timeout).Crewed := by
  obtain ⟨s, hs⟩ := Option.isSome_iff_exists.mp (he.isSome_of_connected hid)
  have hable : ∀ i, (e.addAbility id f timeout).abilities i =
      if id = i ∧ f ∉ e.abilities i then e.abilities i ++ [f] else e.abilities i := by
    intro i
    rw [abilities_addAbility]
    by_cases hi : id = i
    · subst hi
      simp [hs]
    · simp [hi]
  have hworkers : ∀ g, ((e.addAbility id f timeout).workshop g).crew.workers =
      if f = g ∧ f ∉ e.abilities id then (e.workshop g).crew.workers ++ [id]
      else (e.workshop g).crew.workers := by
    intro g
    refine (workers_add (e.modifySession id (·.addAbility f timeout)) id f g).trans ?_
    by_cases hg : f = g
    · subst hg
      simp only [← he.mem_workers]
      rfl
    · simp only [hg, false_and]
      rfl
  refine ⟨fun {g i} => ?_, fun g => ?_, fun i => ?_, fun {g i} hg => ?_, fun {i} hi => ?_⟩
  · rw [hworkers, hable]
    by_cases hi : id = i
    · subst hi
      by_cases hnew : f ∈ e.abilities id
      · simp [hnew, he.mem_workers]
      · by_cases hg : f = g
        · subst hg
          simp [hnew]
        · simp [hnew, hg, Ne.symm hg, he.mem_workers]
    · simp only [hi, false_and, if_false]
      split <;> simp [Ne.symm hi, he.mem_workers]
  · rw [hworkers]
    split
    · next h =>
      refine List.nodup_append.mpr ⟨he.nodup_workers g, List.nodup_singleton _, ?_⟩
      rintro i hi j hj rfl
      obtain rfl := List.mem_singleton.mp hj
      exact h.2 (h.1 ▸ he.mem_workers.mp hi)
    · exact he.nodup_workers g
  · rw [hable]
    split
    · next h =>
      refine List.nodup_append.mpr ⟨he.nodup_abilities i, List.nodup_singleton _, ?_⟩
      rintro g hg g' hg' rfl
      obtain rfl := List.mem_singleton.mp hg'
      exact h.2 hg
    · exact he.nodup_abilities i
  · rw [hable] at hg
    split at hg
    · next h => exact h.1 ▸ hid
    · exact he.connected_of_able hg
  · exact (isSome_modifySession e id i _).trans (he.isSome_of_connected hi)

theorem removeAbility (he : e.Crewed) (id : SessionId) (f : String) :
    (e.removeAbility id f).Crewed := by
  refine he.forget id (· ≠ f) (fun i => ?_) (fun g => ?_) (fun _ hi => hi)
    (fun _ => .inl) fun i => isSome_modifySession e id i _
  · exact abilities_removeAbility e id f i
  · refine (workers_remove _ id f g).trans ?_
    by_cases hg : f = g
    · simp [hg]
      rfl
    · simp [hg, Ne.symm hg]
      rfl

theorem resetAbilities (he : e.Crewed) (id : SessionId) : (e.resetAbilities id).Crewed := by
  obtain ⟨hsessions, hconnected⟩ : (e.resetAbilities id).sessions =
      (e.modifySession id Session.clearAbilities).sessions ∧
        (e.resetAbilities id).connected = e.connected := sessions_leaveCrews id _ _
  have hsession : (e.resetAbilities id).session? =
      (e.modifySession id Session.clearAbilities).session? :=
    funext fun i => congrArg (Table.get? · i) hsessions
  refine he.forget id (fun _ => false) (fun i => ?_) (fun f => ?_) (fun _ hi => hconnected ▸ hi)
    (fun _ hi => .inl (hconnected ▸ hi)) fun i => hsession ▸ isSome_modifySession e id i _
  · rw [abilities_resetAbilities, List.filter_eq_nil_iff.mpr (by simp)]
  · refine (workers_leaveCrews id _ _ f).trans ?_
    split
    · rfl
    · next hf =>
      -- who cannot do a function is not in its crew
      refine (List.filter_eq_self.mpr fun i hi => ?_).symm
      exact decide_eq_true fun h => hf (he.mem_workers.mp (h ▸ hi))

theorem disconnect [JobStore σ] (he : e.Crewed) (id : SessionId) : (e.disconnect id).Crewed := by
  rw [disconnect_eq]
  refine of_same ?_ (.abandonAll _ _)
  refine he.forget id (fun _ => false) (fun i => ?_) (workers_depart e id) (fun i hi => ?_)
    (fun i hi => ?_) fun i => isSome_modifySession _ id i _
  · rw [abilities_depart, List.filter_eq_nil_iff.mpr (by simp)]
  · exact (List.mem_filter.mp hi).1
  · by_cases h : id = i
    · exact .inr ⟨h, fun _ => rfl⟩
    · exact .inl (List.mem_filter.mpr ⟨hi, by simpa using Ne.symm h⟩)

theorem connect (he : e.Crewed) {id : SessionId} (hid : (e.session? id).isSome) :
    (e.connect id).Crewed := by
  unfold Engine.connect
  split
  · exact he
  · refine { he with connected_of_able := fun hf => ?_, isSome_of_connected := fun hi => ?_ }
    · exact List.mem_append_left _ (he.connected_of_able hf)
    · rcases List.mem_append.mp hi with hi | hi
      · exact he.isSome_of_connected hi
      · exact List.mem_singleton.mp hi ▸ hid

theorem newSession (he : e.Crewed) (htended : e.watch.Tended) (peer : String) :
    (e.newSession peer).2.Crewed := by
  have hnone := session?_size htended.roll_lt
  have hable : ∀ i, (e.newSession peer).2.abilities i = e.abilities i := fun i => by
    rw [abilities, abilities, session?_newSession]
    split
    · next hi => rw [← hi, hnone]; rfl
    · rfl
  refine ⟨fun {f i} => ?_, he.nodup_workers, fun i => hable i ▸ he.nodup_abilities i,
    fun {f i} hf => he.connected_of_able (hable i ▸ hf), fun {i} hi => ?_⟩
  · rw [hable]
    exact he.mem_workers
  · rw [session?_newSession]
    split
    · rfl
    · exact he.isSome_of_connected hi

/-- A legal action leaves the crews and the abilities in agreement. -/
theorem act [JobStore σ] (he : e.Crewed) (htended : e.watch.Tended) {a : Action σ}
    (ha : e.Legal a) : (e.act a).Crewed := by
  cases hstaffs : a.staffs with
  | false => exact he.of_same (.act e hstaffs)
  | true =>
    cases a with
    | arrive peer => exact he.newSession htended peer
    | connect id => exact he.connect ha
    | disconnect id => exact he.disconnect id
    | canDo id f timeout => exact he.addAbility ha f timeout
    | cantDo id f => exact he.removeAbility id f
    | resetAbilities id => exact he.resetAbilities id
    | _ => exact absurd hstaffs Bool.false_ne_true

theorem start (settings : EngineSettings) (store : σ) (now : Int64) (newId : Nat → String)
    (isLinked : Bool) : (start settings store now newId isLinked).Crewed where
  mem_workers := ⟨fun h => absurd h List.not_mem_nil, fun h => absurd h List.not_mem_nil⟩
  nodup_workers _ := List.nodup_nil
  nodup_abilities _ := List.nodup_nil
  connected_of_able h := absurd h List.not_mem_nil
  isSome_of_connected h := absurd h List.not_mem_nil

theorem run [JobStore σ] (he : e.Crewed) (htended : e.watch.Tended) {as : List (Action σ)}
    (h : e.LegalRun as) : (e.run as).Crewed := by
  induction as generalizing e with
  | nil => exact he
  | cons a as ih => exact ih (he.act htended h.1) (tended_act htended a) h.2

end Crewed

/-- No function is forgotten. -/
theorem known_act [JobStore σ] (e : Engine σ) (a : Action σ) {f : String}
    (hf : (e.workshop? f).isSome) : ((e.act a).workshop? f).isSome := by
  cases hstaffs : a.staffs with
  | false => exact (SameCrews.act e hstaffs).known f hf
  | true =>
    cases a with
    | arrive peer => exact hf
    | connect id =>
      show ((e.connect id).workshop? f).isSome
      unfold connect
      split <;> exact hf
    | disconnect id =>
      have hdepart : ((e.depart id).workshop? f).isSome := by
        rw [workshop?_depart, Option.isSome_map]
        exact hf
      exact (SameCrews.abandonAll _ _).known f hdepart
    | canDo id g timeout => exact (undisturbed_addAbility e id g timeout).known f hf
    | cantDo id g => exact (undisturbed_removeAbility e id g).known f hf
    | resetAbilities id => exact (undisturbed_resetAbilities e id).known f hf
    | _ => exact absurd hstaffs Bool.false_ne_true

end Engine

end JobBroker
