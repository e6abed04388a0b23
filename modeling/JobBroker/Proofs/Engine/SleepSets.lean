import JobBroker.Proofs.Engine.Statistics
import JobBroker.Proofs.Engine.WakeUps

/-!
# Who counts as sleeping

A worker that goes to sleep is put on the list of each of its functions. It leaves all lists when it
is called by itself, but only the list of the function when it is called for what a function was
supplied with. On the other lists it stays, awake, and is counted among those that sleep.

* `listed_iff` : who is on the list of a function.
* `awake_iff` : who is on a list and awake, was called for another function.
* `noted_performAll` : the lists of sleepers, and what is counted, after whatever was done.
* `counted_awake` : not all that are counted as sleeping sleep.
-/

namespace JobBroker.Engine

open Text (decimal)

variable {σ : Type} {e e' : Engine σ} {id : SessionId} {f g : String} {p : Phase σ}
  {ps past later : List (Phase σ)}

/-! ### Each list holds a session once -/

def Distinct (e : Engine σ) : Prop := ∀ f, (e.workshop f).crew.sleepers.Nodup

namespace Distinct

theorem of_calm (he : e.Distinct) (h : Calm e e') : e'.Distinct := fun f => h.crew f ▸ he f

theorem modifySession (he : e.Distinct) (id : SessionId) (change : Session → Session) :
    (e.modifySession id change).Distinct := he

theorem modifyCrew (he : e.Distinct) (f : String) {change : Crew → Crew}
    (h : ∀ c, c.sleepers.Nodup → (change c).sleepers.Nodup) : (e.modifyCrew f change).Distinct := by
  intro g
  cases hf : e.workshop? f with
  | none =>
    rw [Engine.modifyCrew, workshop_modifyWorkshop_of_none hf]
    exact he g
  | some w =>
    rw [Engine.modifyCrew, workshop_modifyWorkshop (Option.isSome_of_eq_some hf)]
    split
    · exact h _ (he g)
    · exact he g

theorem foldl {op : Engine σ → String → Engine σ} (hop : ∀ e f, e.Distinct → (op e f).Distinct)
    (fs : List String) (he : e.Distinct) : (fs.foldl op e).Distinct := by
  induction fs generalizing e with
  | nil => exact he
  | cons f fs ih => exact ih (hop e f he)

theorem remove (he : e.Distinct) (id : SessionId) (f : String) :
    (e.modifyCrew f (·.remove id)).Distinct :=
  he.modifyCrew f fun _ h => h.filter _

theorem connect (he : e.Distinct) (id : SessionId) : (e.connect id).Distinct := by
  unfold Engine.connect
  split <;> exact he

theorem depart (he : e.Distinct) (id : SessionId) : (e.depart id).Distinct := by
  intro f
  have hf := he f
  rw [workshop] at hf
  rw [workshop, workshop?_depart]
  cases hw : e.workshop? f with
  | none => exact List.nodup_nil
  | some w =>
    rw [hw] at hf
    exact hf.filter _

theorem addAbility (he : e.Distinct) (id : SessionId) (f : String) (timeout : Option UInt32) :
    (e.addAbility id f timeout).Distinct := by
  have hadd : ∀ c : Crew, (c.add id).sleepers = c.sleepers := fun c => by
    unfold Crew.add
    split <;> rfl
  exact ((he.modifySession id _).of_calm (.establish _ f)).modifyCrew f fun c hc =>
    (hadd c).symm ▸ hc

theorem removeAbility (he : e.Distinct) (id : SessionId) (f : String) :
    (e.removeAbility id f).Distinct :=
  (he.modifySession id _).remove id f

theorem resetAbilities (he : e.Distinct) (id : SessionId) : (e.resetAbilities id).Distinct :=
  foldl (fun _ f h => h.remove id f) (e.abilities id) (he.modifySession id Session.clearAbilities)

theorem wakeCrew (he : e.Distinct) (f : String) : (e.wakeCrew f).Distinct := by
  unfold Engine.wakeCrew
  split
  · exact he
  · next w _ =>
    have hnone : (w.crew.wakeAll e.sessions).2.1.sleepers.Nodup := List.nodup_nil
    exact he.modifyCrew f fun _ _ => hnone

theorem wake (he : e.Distinct) (id : SessionId) : (e.wake id).Distinct :=
  foldl (fun _ f h => h.modifyCrew f fun _ hc => hc.filter _) (e.abilities id) he

theorem sleep (he : e.Distinct) (id : SessionId) : (e.sleep id).Distinct := by
  have hadd : ∀ c : Crew, c.sleepers.Nodup → (c.addSleeper id).sleepers.Nodup := by
    intro c hc
    unfold Crew.addSleeper
    split
    · exact hc
    · next hnot =>
      refine List.nodup_append.mpr ⟨hc, List.nodup_singleton _, fun i hi j hj => ?_⟩
      rintro rfl
      exact hnot (List.mem_singleton.mp hj ▸ hi)
  have hdozing : ((e.abilities id).foldl
      (fun e f => (e.establish f).modifyCrew f (·.addSleeper id))
      (e.modifySession id (·.sleepUntil (e.uptime + e.settings.longPollSeconds)))).Distinct :=
    foldl (fun e f h => (h.of_calm (.establish e f)).modifyCrew f hadd) (e.abilities id) he
  simp only [Engine.sleep]
  split
  · exact hdozing.wake id
  · exact hdozing

end Distinct

section Runs

variable [JobStore σ]

theorem Distinct.undergo (he : e.Distinct) (p : Phase σ) : (e.undergo p).Distinct := by
  cases hstaffs : p.staffs with
  | true =>
    obtain ⟨a, rfl, ha⟩ := Phase.exists_act_of_staffs hstaffs
    cases a with
    | arrive peer => exact he
    | connect i => exact he.connect i
    | disconnect i => exact he.depart i
    | canDo i f timeout => exact he.addAbility i f timeout
    | cantDo i f => exact he.removeAbility i f
    | resetAbilities i => exact he.resetAbilities i
    | _ => exact absurd ha Bool.false_ne_true
  | false =>
    cases hrests : p.rests with
    | true =>
      rcases Phase.sleep_or_wake hrests with ⟨i, rfl⟩ | ⟨i, rfl⟩
      · exact he.sleep i
      · exact he.wake i
    | false =>
      have hstir := stir_undergo e hstaffs hrests
      generalize e.supplies? p = o at hstir
      cases hstir with
      | calm h => exact he.of_calm h
      | ring h h' => exact ((he.of_calm h).wakeCrew _).of_calm h'

theorem Distinct.undergoAll (he : e.Distinct) (ps : List (Phase σ)) :
    (e.undergoAll ps).Distinct := by
  induction ps generalizing e with
  | nil => exact he
  | cons p ps ih => exact ih (he.undergo p)

/-! ### Who is on a list -/

/-- The session has last gone to sleep with nothing to do, and since then neither its long poll was
over nor was the function supplied. -/
def Uncalled (e : Engine σ) (ps : List (Phase σ)) (id : SessionId) (f : String) : Prop :=
  ∃ past later, LastSlept ps id past later ∧
    (¬ ∃ g ∈ (e.undergoAll past).abilities id, (e.undergoAll past).Offers g) ∧
    ∀ before p, before ++ [p] <+: later →
      p ≠ .wake id ∧ (e.undergoAll (past ++ .sleep id :: before)).supplies? p ≠ some f

theorem uncalled_concat_self : e.Uncalled (ps ++ [.sleep id]) id f ↔
    ¬ ∃ g ∈ (e.undergoAll ps).abilities id, (e.undergoAll ps).Offers g := by
  constructor
  · rintro ⟨past, later, hlast, hidle, -⟩
    obtain ⟨rfl, rfl⟩ := lastSlept_concat_self.mp hlast
    exact hidle
  · intro hidle
    exact ⟨ps, [], lastSlept_concat_self.mpr ⟨rfl, rfl⟩, hidle, fun before p h =>
      absurd (List.prefix_nil.mp h) (by simp)⟩

theorem uncalled_concat (hp : p ≠ .sleep id) : e.Uncalled (ps ++ [p]) id f ↔
    e.Uncalled ps id f ∧ p ≠ .wake id ∧ (e.undergoAll ps).supplies? p ≠ some f := by
  constructor
  · rintro ⟨past, later, hlast, hidle, hnone⟩
    obtain ⟨before, rfl, hbefore⟩ := (lastSlept_concat hp).mp hlast
    refine ⟨⟨past, before, hbefore, hidle, fun b q h => hnone b q ?_⟩, ?_⟩
    · exact h.trans (List.prefix_append _ _)
    · rw [hbefore.1]
      exact hnone before p (List.prefix_refl _)
  · rintro ⟨⟨past, later, hlast, hidle, hnone⟩, hlater⟩
    refine ⟨past, later ++ [p], (lastSlept_concat hp).mpr ⟨later, rfl, hlast⟩, hidle, ?_⟩
    intro before q h
    rcases List.prefix_concat_iff.mp h with h | h
    · obtain ⟨rfl, rfl⟩ : before = later ∧ q = p := by simpa using h
      rwa [hlast.1] at hlater
    · exact hnone before q h

omit [JobStore σ] in
/-- Who goes to sleep with nothing to do is on the list of each of its functions. -/
theorem listed_sleep (htended : e.watch.Tended) : (e.sleep id).watch.listed f id ↔
    f ∈ (e.sleep id).abilities id ∧ ¬ ∃ g ∈ e.abilities id, e.Offers g := by
  have hable : e.watch.listed f id → f ∈ e.abilities id := htended.able_of_listed
  rw [(SameCrews.sleep e id).abilities, ← any_hasReady_iff htended]
  cases hs : e.session? id with
  | none =>
    rw [sleep_of_none hs]
    have hnone : e.abilities id = [] := by simp [abilities, hs]
    rw [hnone] at hable ⊢
    exact ⟨fun h => absurd (hable h) List.not_mem_nil, fun h => absurd h.1 List.not_mem_nil⟩
  | some s =>
    rw [watch_sleep e (Option.isSome_of_eq_some hs)]
    split
    · next hready =>
      refine ⟨fun h => absurd ⟨rfl, hable h.1⟩ h.2, fun h => absurd hready h.2⟩
    · next hidle =>
      exact ⟨fun h => ⟨h.elim hable And.right, hidle⟩, fun h => .inr ⟨rfl, h.1⟩⟩

/-- A session is on the list of a function if it could always do the function since it has last gone
to sleep, and was not called since for this function or by itself. -/
theorem listed_iff (he : ∀ ps, e.Attended ps) (hnone : ∀ f id, ¬ e.watch.listed f id)
    (ps : List (Phase σ)) (f : String) (id : SessionId) :
    (e.undergoAll ps).watch.listed f id ↔ e.AbleSince ps id f ∧ e.Uncalled ps id f := by
  induction ps using List.reverseRecOn with
  | nil =>
    refine ⟨fun h => absurd h (hnone f id), ?_⟩
    rintro ⟨⟨past, later, hlast, -⟩, -⟩
    exact absurd hlast.1 (by simp)
  | append_singleton ps p ih =>
    by_cases hp : p = .sleep id
    · subst hp
      rw [ableSince_concat_self, uncalled_concat_self, undergoAll_concat]
      exact listed_sleep (he ps).tended
    · rw [ableSince_concat hp, uncalled_concat hp, undergoAll_concat,
        listed_undergo (he ps).tended hp, ih]
      exact ⟨fun ⟨⟨hs, hu⟩, ha, h⟩ => ⟨⟨hs, ha⟩, hu, h⟩,
        fun ⟨⟨hs, ha⟩, hu, h⟩ => ⟨⟨hs, hu⟩, ha, h⟩⟩

/-! ### Who is on a list and awake -/

/-- When it slept for two functions, the session was called for the second one, and it has not gone
to sleep since. -/
def CalledBeside (e : Engine σ) (ps : List (Phase σ)) (id : SessionId) (f g : String) : Prop :=
  ∃ past p later, ps = past ++ p :: later ∧ .sleep id ∉ p :: later ∧
    (e.undergoAll past).sessions.isAsleep id ∧ e.AbleSince past id f ∧ e.AbleSince past id g ∧
    (e.undergoAll past).supplies? p = some g ∧ g ≠ f

theorem not_calledBeside_concat_self : ¬ e.CalledBeside (ps ++ [.sleep id]) id f g := by
  rintro ⟨past, p, later, hsplit, hnot, -⟩
  refine hnot ?_
  have hlast := congrArg List.getLast? hsplit
  rw [List.getLast?_concat, List.getLast?_append_cons] at hlast
  exact List.mem_of_getLast? hlast.symm

theorem calledBeside_concat (hp : p ≠ .sleep id) : e.CalledBeside (ps ++ [p]) id f g ↔
    e.CalledBeside ps id f g ∨
      (e.undergoAll ps).sessions.isAsleep id ∧ e.AbleSince ps id f ∧ e.AbleSince ps id g ∧
        (e.undergoAll ps).supplies? p = some g ∧ g ≠ f := by
  constructor
  · rintro ⟨past, q, later, hsplit, hnot, hcalled⟩
    rcases List.eq_nil_or_concat' later with rfl | ⟨later, r, rfl⟩
    · obtain ⟨rfl, rfl⟩ : ps = past ∧ p = q := by simpa using hsplit
      exact .inr hcalled
    · rw [← List.cons_append, ← List.append_assoc] at hsplit
      obtain ⟨rfl, -⟩ := List.append_inj' hsplit rfl
      exact .inl ⟨past, q, later, rfl, fun h => hnot (List.mem_append_left [r] h), hcalled⟩
  · rintro (⟨past, q, later, rfl, hnot, hcalled⟩ | hcalled)
    · refine ⟨past, q, later ++ [p], by simp, ?_, hcalled⟩
      rw [← List.cons_append, List.mem_append, List.mem_singleton]
      exact fun h => h.elim hnot hp.symm
    · exact ⟨ps, p, [], rfl, fun h => hp (List.mem_singleton.mp h).symm, hcalled⟩

/-- Unless it begins to sleep, a session is awake if it was before, or is roused. -/
theorem awake_undergo_iff (he : e.Attended ps) (hp : p ≠ .sleep id) :
    ((e.undergoAll ps).undergo p).sessions.isAsleep id = false ↔
      (e.undergoAll ps).sessions.isAsleep id = false ∨ (e.undergoAll ps).Rouses p id := by
  constructor
  · refine fun hawake => or_iff_not_imp_right.mpr fun hrouses => ?_
    exact (spared he.tended he.listens hp fun _ => hrouses).2.symm.trans hawake
  · rintro (hawake | hrouses)
    · refine (spared he.tended he.listens hp fun hasleep => ?_).2.trans hawake
      exact absurd (hawake.symm.trans hasleep) Bool.false_ne_true
    · exact not_asleep_of_woken (rest?_of_rouses hrouses)

/-- Of those that are on the list of a function, the ones that do not sleep were called for another
function. -/
theorem awake_iff (he : ∀ ps, e.Attended ps) (hnone : ∀ f id, ¬ e.watch.listed f id)
    (ps : List (Phase σ)) (h : (e.undergoAll ps).watch.listed f id) :
    (e.undergoAll ps).sessions.isAsleep id = false ↔ ∃ g, e.CalledBeside ps id f g := by
  induction ps using List.reverseRecOn with
  | nil => exact absurd h (hnone f id)
  | append_singleton ps p ih =>
    rw [undergoAll_concat] at h ⊢
    by_cases hp : p = .sleep id
    · subst hp
      obtain ⟨hable, hidle⟩ := (listed_sleep (he ps).tended).mp h
      have hasleep : ((e.undergoAll ps).sleep id).sessions.isAsleep id :=
        (sleep_of_idle (he ps).tended hidle).2.trans
          (isSome_of_able ((SameCrews.sleep _ id).abilities id ▸ hable))
      refine iff_of_false (fun hawake => ?_) fun ⟨g, hg⟩ => not_calledBeside_concat_self hg
      exact absurd (hawake.symm.trans hasleep) Bool.false_ne_true
    · obtain ⟨hlisted, -, hwake, hother⟩ := (listed_undergo (he ps).tended hp f).mp h
      simp only [calledBeside_concat hp, exists_or, ← ih hlisted, awake_undergo_iff (he ps) hp]
      cases hasleep : (e.undergoAll ps).sessions.isAsleep id with
      | false => exact ⟨fun _ => .inl rfl, fun _ => .inl rfl⟩
      | true =>
        have hable := ((he ps).listed_iff id f hasleep).mp hlisted
        refine or_congr_right ⟨fun hrouses => ?_, fun ⟨g, _, _, hg, hsupplies, _⟩ => ?_⟩
        · obtain ⟨g, hsupplies, hg⟩ := hrouses.resolve_left hwake
          refine ⟨g, rfl, hable, ((he ps).listed_iff id g hasleep).mp hg, hsupplies, ?_⟩
          rintro rfl
          exact hother hsupplies
        · exact .inr ⟨g, hsupplies, ((he ps).listed_iff id g hasleep).mpr hg⟩

/-- Only who had two functions at once is called beside one. -/
theorem CalledBeside.one_lt_length (h : e.CalledBeside ps id f g) :
    ∃ past, past <+: ps ∧ 1 < ((e.undergoAll past).abilities id).length := by
  obtain ⟨past, p, later, rfl, -, -, hf, hg, -, hne⟩ := h
  refine ⟨past, List.prefix_append _ _, ?_⟩
  by_contra hle
  have hf := hf.able
  have hg := hg.able
  rcases habilities : (e.undergoAll past).abilities id with _ | ⟨a, _ | ⟨b, as⟩⟩
  · exact List.not_mem_nil (habilities ▸ hf)
  · rw [habilities, List.mem_singleton] at hf hg
    exact hne (hg.trans hf.symm)
  · exact hle (by simp [habilities])

/-! ### Runs -/

/-- The lists of sleepers and their lengths in the statistics. -/
structure Noted (e : Engine σ) (ps : List (Phase σ)) : Prop where
  mem_sleepers : ∀ f id, id ∈ ((e.undergoAll ps).workshop f).crew.sleepers ↔
    e.AbleSince ps id f ∧ e.Uncalled ps id f
  mem_of_asleep : ∀ f id, (e.undergoAll ps).sessions.isAsleep id → e.AbleSince ps id f →
    id ∈ ((e.undergoAll ps).workshop f).crew.sleepers
  awake_iff : ∀ f, ∀ id ∈ ((e.undergoAll ps).workshop f).crew.sleepers,
    (e.undergoAll ps).sessions.isAsleep id = false ↔ ∃ g, e.CalledBeside ps id f g
  asleep_of_single : ∀ f, ∀ id ∈ ((e.undergoAll ps).workshop f).crew.sleepers,
    (∀ past, past <+: ps → ((e.undergoAll past).abilities id).length ≤ 1) →
      (e.undergoAll ps).sessions.isAsleep id
  sleeping : ∀ row ∈ (e.undergoAll ps).statistics, ∃ ids : List SessionId, ids.Nodup ∧
    (∀ id, id ∈ ids ↔ e.AbleSince ps id row.functionName ∧ e.Uncalled ps id row.functionName) ∧
    row.sleeping = ids.length

theorem noted (he : ∀ ps, e.Attended ps) (hdistinct : e.Distinct)
    (hnone : ∀ f id, ¬ e.watch.listed f id) (ps : List (Phase σ)) : e.Noted ps where
  mem_sleepers f id := listed_iff he hnone ps f id
  mem_of_asleep f id hasleep := ((he ps).listed_iff id f hasleep).mpr
  awake_iff f id h := awake_iff he hnone ps h
  asleep_of_single := by
    intro f id h hsingle
    by_contra hawake
    obtain ⟨g, hg⟩ := (awake_iff he hnone ps h).mp (Bool.eq_false_iff.mpr hawake)
    obtain ⟨past, hpast, htwo⟩ := hg.one_lt_length
    exact absurd htwo (Nat.not_lt.mpr (hsingle past hpast))
  sleeping := by
    intro row hrow
    obtain ⟨f, w, hw, rfl⟩ := mem_statistics.mp hrow
    obtain rfl : (e.undergoAll ps).workshop f = w := by rw [workshop, hw, Option.getD_some]
    exact ⟨_, hdistinct.undergoAll ps f, listed_iff he hnone ps f, rfl⟩

/-- Over any store, and whatever is done to an engine since it starts. -/
theorem noted_performAll (settings : EngineSettings) (store : σ) (now : Int64)
    (newId : Nat → String) (isLinked : Bool) (ds : List (Deed σ)) :
    let e := start settings store now newId isLinked
    e.undergoAll (e.phasesAll ds) = e.performAll ds ∧
      ∀ ps, ps <+: e.phasesAll ds → e.Noted ps :=
  ⟨undergoAll_phasesAll ds _, fun ps _ =>
    noted (attended_undergoAll (attended_start settings store now newId isLinked))
      (fun _ => List.nodup_nil) (unmanned_start settings store now newId isLinked).not_listed ps⟩

end Runs

/-- A worker that slept for two functions has been called for the first one. It is awake, and
counted among those that sleep for the second one. -/
theorem counted_awake :
    let as : List (Action MemoryStore) :=
      [.arrive "1.1.1.1:1", .connect 0, .canDo 0 "f" none, .canDo 0 "g" none, .sleep 0,
        .submit (.new "f" "u" []) none]
    let e := (start .default MemoryStore.empty 0 decimal false).performAll (as.map .act)
    (start .default MemoryStore.empty 0 decimal false).LegalRun as ∧
      0 ∈ (e.workshop "g").crew.sleepers ∧ e.sessions.isAsleep 0 = false ∧
      e.statistics.map (fun row => (row.functionName, row.sleeping)) = [("f", 0), ("g", 1)] := by
  decide +kernel

end JobBroker.Engine
