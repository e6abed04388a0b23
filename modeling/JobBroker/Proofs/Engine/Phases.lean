import JobBroker.Proofs.Engine.Deed

/-!
# The phases of deeds

What happens to an engine, one thing at a time. A session that disconnects first departs, and then
gives up its jobs one after the other; all other deeds are done at once.

* `undergoAll_phasesAll` : the phases of some deeds come to the same as the deeds.
* `stir_undergo` : a phase is calm, or rings for the function it brings a job to (`supplies?`),
  unless sessions come, go, learn, forget, begin to sleep or are woken by themselves.
* `rest?_of_rouses`, `rest?_of_not_rouses` : whom a phase calls.
* `listed_undergo` : who is still listed for a function.
-/

namespace JobBroker

inductive Phase (σ : Type)
  /-- When the deed is that a session disconnects, this is its departure only. -/
  | deed (d : Deed σ)
  /-- The work on a job is given up. -/
  | abandon (handle : String)

namespace Phase

variable {σ : Type}

abbrev sleep (id : SessionId) : Phase σ := .deed (.act (.sleep id))

/-- The long poll of a session is over. -/
abbrev wake (id : SessionId) : Phase σ := .deed (.act (.wake id))

def staffs : Phase σ → Bool
  | .deed (.act a) => a.staffs
  | _ => false

def rests : Phase σ → Bool
  | .deed (.act a) => a.rests
  | _ => false

theorem sleep_or_wake {p : Phase σ} (h : p.rests) : (∃ i, p = .sleep i) ∨ ∃ i, p = .wake i := by
  rcases p with ⟨a | _⟩ | handle
  · cases a with
    | sleep i => exact .inl ⟨i, rfl⟩
    | wake i => exact .inr ⟨i, rfl⟩
    | _ => exact absurd h Bool.false_ne_true
  · exact absurd h Bool.false_ne_true
  · exact absurd h Bool.false_ne_true

theorem exists_act_of_staffs {p : Phase σ} (h : p.staffs) :
    ∃ a : Action σ, p = .deed (.act a) ∧ a.staffs := by
  rcases p with ⟨a | _⟩ | handle
  · exact ⟨a, rfl, h⟩
  · exact absurd h Bool.false_ne_true
  · exact absurd h Bool.false_ne_true

end Phase

namespace Engine

variable {σ : Type} {e e' : Engine σ} {p : Phase σ} {id : SessionId} {f : String}

/-! ### What rings do -/

theorem Calm.able_iff (h : Calm e e') : e'.watch.able id f ↔ e.watch.able id f := by
  show f ∈ e'.abilities id ↔ f ∈ e.abilities id
  rw [h.sameCrews.abilities]

theorem Calm.listed_iff (h : Calm e e') : e'.watch.listed f id ↔ e.watch.listed f id := by
  show id ∈ (e'.workshop f).crew.sleepers ↔ id ∈ (e.workshop f).crew.sleepers
  rw [h.crew]

/-- Of the listed, the sleepers are called. -/
theorem Stir.rest?_eq (h : Stir e e' (some f)) (id : SessionId) : e'.rest? id =
    if id ∈ (e.workshop f).crew.sleepers then (e.rest? id).map Session.Rest.wake
    else e.rest? id := by
  cases h with
  | ring h h' => rw [h'.rest, rest?_wakeCrew, h.crew, h.rest]

theorem Stir.listed_iff (h : Stir e e' (some f)) (g : String) (id : SessionId) :
    e'.watch.listed g id ↔ e.watch.listed g id ∧ g ≠ f := by
  cases h with
  | ring h h' =>
    rw [h'.listed_iff, watch_wakeCrew]
    exact and_congr_left' h.listed_iff

theorem Stir.able_iff {o : Option String} (h : Stir e e' o) (g : String) (id : SessionId) :
    e'.watch.able id g ↔ e.watch.able id g := by
  show g ∈ e'.abilities id ↔ g ∈ e.abilities id
  rw [(SameCrews.of_stir h).abilities]

/-! ### One phase after the other -/

variable [JobStore σ]

def undergo (e : Engine σ) : Phase σ → Engine σ
  | .deed (.act (.disconnect id)) => e.depart id
  | .deed d => e.perform d
  | .abandon handle => e.abandon handle

def undergoAll (e : Engine σ) (ps : List (Phase σ)) : Engine σ := ps.foldl undergo e

/-- What a deed consists of. -/
def phases (e : Engine σ) (d : Deed σ) : List (Phase σ) :=
  match d with
  | .act (.disconnect id) => .deed d :: (e.assigned id).map .abandon
  | _ => [.deed d]

def phasesAll (e : Engine σ) : List (Deed σ) → List (Phase σ)
  | [] => []
  | d :: ds => e.phases d ++ (e.perform d).phasesAll ds

theorem undergoAll_append (e : Engine σ) (ps ps' : List (Phase σ)) :
    e.undergoAll (ps ++ ps') = (e.undergoAll ps).undergoAll ps' :=
  List.foldl_append

theorem undergoAll_concat (e : Engine σ) (ps : List (Phase σ)) (p : Phase σ) :
    e.undergoAll (ps ++ [p]) = (e.undergoAll ps).undergo p :=
  undergoAll_append e ps [p]

theorem undergoAll_abandons (handles : List String) (e : Engine σ) :
    e.undergoAll (handles.map .abandon) = handles.foldl abandon e := by
  induction handles generalizing e with
  | nil => rfl
  | cons handle handles ih => exact ih (e.abandon handle)

theorem undergoAll_phases (e : Engine σ) (d : Deed σ) :
    e.undergoAll (e.phases d) = e.perform d := by
  cases d with
  | load => rfl
  | act a =>
    cases a with
    | disconnect id => exact (undergoAll_abandons (e.assigned id) (e.depart id)).trans rfl
    | _ => rfl

theorem undergoAll_phasesAll (ds : List (Deed σ)) (e : Engine σ) :
    e.undergoAll (e.phasesAll ds) = e.performAll ds := by
  induction ds generalizing e with
  | nil => rfl
  | cons d ds ih =>
    rw [phasesAll, undergoAll_append, undergoAll_phases, ih]
    rfl

theorem phasesAll_concat (ds : List (Deed σ)) (d : Deed σ) (e : Engine σ) :
    e.phasesAll (ds ++ [d]) = e.phasesAll ds ++ (e.performAll ds).phases d := by
  induction ds generalizing e with
  | nil => exact List.append_nil _
  | cons c ds ih =>
    rw [List.cons_append, phasesAll, ih, phasesAll, List.append_assoc]
    rfl

theorem tended_undergo (he : e.watch.Tended) (p : Phase σ) : (e.undergo p).watch.Tended := by
  cases p with
  | abandon handle => exact he.turns (turns_abandonAll [handle] e)
  | deed d =>
    cases d with
    | load => exact tended_load he
    | act a =>
      cases a with
      | disconnect id =>
        have hleave : e.watch.Turn (e.depart id).watch := watch_depart e id ▸ .forget
        exact he.turn hleave
      | _ => exact tended_act he _

theorem settings_undergo (e : Engine σ) (p : Phase σ) : (e.undergo p).settings = e.settings := by
  cases p with
  | abandon handle => exact (steady_abandon e handle).settings
  | deed d =>
    cases d with
    | load => exact congrArg Prod.fst (fixed_load e)
    | act a =>
      cases a with
      | disconnect id => rfl
      | _ => exact settings_act e _

theorem settings_undergoAll (e : Engine σ) (ps : List (Phase σ)) :
    (e.undergoAll ps).settings = e.settings := by
  induction ps generalizing e with
  | nil => rfl
  | cons p ps ih => exact (ih (e.undergo p)).trans (settings_undergo e p)

/-- The function to which something that happens brings a job. -/
def supplies? (e : Engine σ) : Phase σ → Option String
  | .deed (.act a) => e.supplied? a
  | .deed .load => none
  | .abandon handle =>
    match e.settings.disconnectPolicy with
    | .requeue => e.requeued? handle
    | .fail => none

theorem stir_undergo (e : Engine σ) {p : Phase σ} (hstaffs : p.staffs = false)
    (hrests : p.rests = false) : Stir e (e.undergo p) (e.supplies? p) := by
  cases p with
  | abandon handle =>
    unfold undergo abandon supplies?
    cases e.settings.disconnectPolicy with
    | requeue => exact stir_requeue e handle
    | fail => exact .calm (.finish e handle .fail)
  | deed d =>
    cases d with
    | load => exact .calm (.load e)
    | act a =>
      have hact : Stir e (e.act a) (e.supplied? a) := stir_act e hstaffs hrests
      cases a with
      | disconnect id => exact absurd hstaffs.symm Bool.false_ne_true
      | _ => exact hact

theorem job_of_supplies (h : e.supplies? p = some f) : p.staffs = false ∧ p.rests = false := by
  rcases p with ⟨a | _⟩ | handle
  · cases a with
    | submit j client | hear event => exact ⟨rfl, rfl⟩
    | _ => exact absurd h (by simp [supplies?, supplied?])
  · exact ⟨rfl, rfl⟩
  · exact ⟨rfl, rfl⟩

/-- What brings a job to a function. -/
theorem stir_of_supplies (h : e.supplies? p = some f) : Stir e (e.undergo p) (some f) :=
  h ▸ stir_undergo e (job_of_supplies h).1 (job_of_supplies h).2

/-! ### Sessions that come, go, learn or forget -/

/-- Nobody is called, and only a session that comes begins to rest. -/
theorem rest?_of_staffs (htended : e.watch.Tended) (hp : p.staffs) (id : SessionId) :
    (e.undergo p).rest? id = e.rest? id ∨
      e.rest? id = none ∧ ∃ peer, (e.undergo p).rest? id = some (Session.new peer).rest := by
  obtain ⟨a, rfl, ha⟩ := Phase.exists_act_of_staffs hp
  cases a with
  | arrive peer =>
    have hsession := session?_newSession e peer id
    by_cases hid : e.sessions.size = id
    · have hnone : e.session? id = none := hid ▸ session?_size htended.roll_lt
      rw [if_pos hid] at hsession
      exact .inr ⟨congrArg (Option.map Session.rest) hnone, peer,
        congrArg (Option.map Session.rest) hsession⟩
    · rw [if_neg hid] at hsession
      exact .inl (congrArg (Option.map Session.rest) hsession)
  | connect i =>
    refine .inl ?_
    show (e.connect i).rest? id = _
    unfold connect
    split <;> rfl
  | disconnect i => exact .inl (rest?_modifySession_of_eq _ i id fun _ => rfl)
  | canDo i f timeout => exact .inl (rest?_modifySession_of_eq e i id fun _ => rfl)
  | cantDo i f => exact .inl (rest?_modifySession_of_eq e i id fun _ => rfl)
  | resetAbilities i =>
    have hleave := rest?_foldl (fun e f => e.modifyCrew f (·.remove i)) (fun _ _ => rfl)
      (e.abilities i) (e.modifySession i Session.clearAbilities)
    exact .inl ((congrFun hleave id).trans (rest?_modifySession_of_eq e i id fun _ => rfl))
  | _ => exact absurd ha Bool.false_ne_true

/-- Who forgets a function is no longer listed for it. -/
theorem listed_iff_of_staffs (htended : e.watch.Tended) (hp : p.staffs) (f : String)
    (id : SessionId) : (e.undergo p).watch.listed f id ↔
      e.watch.listed f id ∧ (e.undergo p).watch.able id f := by
  have hable : e.watch.listed f id → e.watch.able id f := htended.able_of_listed
  have hforget : ∀ {e' : Engine σ} {i which}, e'.watch = e.watch.forget i which →
      (e'.watch.listed f id ↔ e.watch.listed f id ∧ e'.watch.able id f) := by
    intro e' i which h
    rw [h]
    exact ⟨fun h => ⟨h.1, hable h.1, h.2⟩, fun h => ⟨h.1, h.2.2⟩⟩
  obtain ⟨a, rfl, ha⟩ := Phase.exists_act_of_staffs hp
  cases a with
  | arrive peer =>
    rw [show (e.undergo (.deed (.act (.arrive peer)))).watch = _ from
      watch_newSession htended.roll_lt peer]
    exact ⟨fun h => ⟨h, hable h⟩, And.left⟩
  | connect i =>
    rw [show (e.undergo (.deed (.act (.connect i)))).watch = _ from watch_connect e i]
    exact ⟨fun h => ⟨h, hable h⟩, And.left⟩
  | disconnect i => exact hforget (watch_depart e i)
  | canDo i g timeout =>
    rw [show (e.undergo (.deed (.act (.canDo i g timeout)))).watch = _ from
      watch_addAbility e i g timeout]
    split
    · exact ⟨fun h => ⟨h, .inl (hable h)⟩, And.left⟩
    · exact ⟨fun h => ⟨h, hable h⟩, And.left⟩
  | cantDo i g => exact hforget (watch_removeAbility e i g)
  | resetAbilities i => exact hforget (watch_resetAbilities e i)
  | _ => exact absurd ha Bool.false_ne_true

/-! ### Whom a phase rouses -/

/-- The session is called in this phase if it sleeps. Whether one is called that has just gone to
sleep is another matter. -/
def Rouses (e : Engine σ) (p : Phase σ) (id : SessionId) : Prop :=
  p = .wake id ∨ ∃ f, e.supplies? p = some f ∧ e.watch.listed f id

theorem rest?_of_rouses (h : e.Rouses p id) :
    (e.undergo p).rest? id = (e.rest? id).map Session.Rest.wake := by
  rcases h with rfl | ⟨f, hf, hlisted⟩
  · exact (rest?_wake e id id).trans (if_pos rfl)
  · exact ((stir_of_supplies hf).rest?_eq id).trans (if_pos hlisted)

/-- Who is not roused rests as before, but for a session that comes. -/
theorem rest?_of_not_rouses (htended : e.watch.Tended) (hp : p ≠ .sleep id)
    (h : ¬ e.Rouses p id) : (e.undergo p).rest? id = e.rest? id ∨
      e.rest? id = none ∧ ∃ peer, (e.undergo p).rest? id = some (Session.new peer).rest := by
  cases hstaffs : p.staffs with
  | true => exact rest?_of_staffs htended hstaffs id
  | false =>
    refine .inl ?_
    cases hrests : p.rests with
    | true =>
      rcases Phase.sleep_or_wake hrests with ⟨i, rfl⟩ | ⟨i, rfl⟩
      · exact (rest?_sleep e i id).trans (if_neg fun hi => hp (congrArg _ hi))
      · exact (rest?_wake e i id).trans (if_neg fun hi => h (.inl (congrArg _ hi)))
    | false =>
      have hstir := stir_undergo e hstaffs hrests
      cases hf : e.supplies? p with
      | none =>
        rw [hf] at hstir
        cases hstir with
        | calm hcalm => exact hcalm.rest id
      | some f =>
        rw [hf] at hstir
        exact (hstir.rest?_eq id).trans (if_neg fun hlisted => h (.inr ⟨f, hf, hlisted⟩))

omit [JobStore σ] in
theorem listed_sleep_of_ne {i : SessionId} (hi : i ≠ id) (f : String) :
    (e.sleep i).watch.listed f id ↔ e.watch.listed f id := by
  cases hs : e.session? i with
  | none => rw [sleep_of_none hs]
  | some s =>
    rw [watch_sleep e (Option.isSome_of_eq_some hs)]
    split
    · exact and_iff_left fun hid => hi hid.1.symm
    · exact or_iff_left fun hid => hi hid.1.symm

/-- A session is listed as long as it can do the function, until its long poll is over or the
function is supplied. -/
theorem listed_undergo (htended : e.watch.Tended) (hp : p ≠ .sleep id) (f : String) :
    (e.undergo p).watch.listed f id ↔ e.watch.listed f id ∧ (e.undergo p).watch.able id f ∧
      p ≠ .wake id ∧ e.supplies? p ≠ some f := by
  have hable : e.watch.listed f id → e.watch.able id f := htended.able_of_listed
  cases hstaffs : p.staffs with
  | true =>
    rw [listed_iff_of_staffs htended hstaffs]
    refine and_congr_right fun _ => (and_iff_left ⟨?_, fun h => ?_⟩).symm
    · rintro rfl
      exact Bool.false_ne_true hstaffs
    · exact Bool.false_ne_true ((job_of_supplies h).1.symm.trans hstaffs)
  | false =>
    cases hrests : p.rests with
    | true =>
      rcases Phase.sleep_or_wake hrests with ⟨i, rfl⟩ | ⟨i, rfl⟩
      · have hi : i ≠ id := fun hi => hp (congrArg _ hi)
        have hsame : (e.sleep i).watch.able id f ↔ e.watch.able id f := by
          show f ∈ (e.sleep i).abilities id ↔ f ∈ e.abilities id
          rw [(SameCrews.sleep e i).abilities]
        refine (listed_sleep_of_ne hi f).trans ⟨fun h => ?_, And.left⟩
        exact ⟨h, hsame.mpr (hable h), by simp, by simp [supplies?, supplied?]⟩
      · show (e.wake i).watch.listed f id ↔ e.watch.listed f id ∧ (e.wake i).watch.able id f ∧ _
        rw [watch_wake]
        refine ⟨fun h => ⟨h.1, hable h.1, fun hi => ?_, by simp [supplies?, supplied?]⟩,
          fun h => ⟨h.1, fun hi => h.2.2.1 (congrArg _ hi.1.symm)⟩⟩
        obtain rfl : i = id := by simpa using hi
        exact h.2 ⟨rfl, hable h.1⟩
    | false =>
      have hwake : p ≠ .wake id := by
        rintro rfl
        exact Bool.false_ne_true hrests.symm
      have hstir := stir_undergo e hstaffs hrests
      rw [hstir.able_iff]
      cases hf : e.supplies? p with
      | none =>
        rw [hf] at hstir
        cases hstir with
        | calm hcalm =>
          rw [hcalm.listed_iff]
          exact ⟨fun h => ⟨h, hable h, hwake, by simp⟩, And.left⟩
      | some g =>
        rw [hf] at hstir
        rw [hstir.listed_iff]
        refine ⟨fun h => ⟨h.1, hable h.1, hwake, fun hg => h.2 (Option.some.inj hg).symm⟩,
          fun h => ⟨h.1, fun hg => h.2.2.2 (hg ▸ rfl)⟩⟩

end Engine

end JobBroker
