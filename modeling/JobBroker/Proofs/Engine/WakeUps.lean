import JobBroker.Proofs.Engine.Matching
import JobBroker.Proofs.Engine.Phases

/-!
# Wake-ups

A worker that sleeps is noted once for each of its functions, but it is called once. What a function
is supplied with calls those that sleep and have been able to do the function since they fell
asleep; a worker that begins to sleep beside a job is called at once; and nothing else calls anybody
before the long poll is over.

* `Attended`, `attended_undergoAll` : who sleeps is listed for what it has been able to do since,
  has not been called since, and its long poll is set.
* `Attended.reckons` : whom one phase calls.
* `reckoned_performAll` : all calls of a run, each behind a sleep of its own.
-/

namespace JobBroker.Engine

open Text (decimal)

variable {σ : Type} {e e' : Engine σ} {id : SessionId} {f : String} {p : Phase σ}
  {ps past later : List (Phase σ)}

theorem isSome_of_able (h : f ∈ e.abilities id) : (e.session? id).isSome := by
  cases hs : e.session? id with
  | none => exact absurd h (by simp [abilities, hs])
  | some s => rfl

/-! ### A session that begins to sleep -/

theorem any_hasReady_iff (htended : e.watch.Tended) (fs : List String) :
    (fs.any fun f => (e.workshop f).queue.hasReady e.now) ↔ ∃ f ∈ fs, e.Offers f := by
  simp only [List.any_eq_true]
  exact exists_congr fun f => and_congr_right fun _ => (htended.orderly f).hasReady_iff

/-- A session that sleeps after it has begun to. -/
theorem dozing (hasleep : (e.sleep id).sessions.isAsleep id) :
    (e.sleep id).watch = e.watch.doze id ∧ (e.sleep id).calls id = e.calls id ∧
      (e.sleep id).deadline? id = some (e.uptime + e.settings.longPollSeconds) := by
  have hrest := rest?_sleep e id id
  rw [if_pos rfl] at hrest
  obtain ⟨r, hr⟩ : ∃ r, e.rest? id = some r := by
    rw [asleep_eq, hrest] at hasleep
    exact Option.ne_none_iff_exists'.mp fun h => by simp [h] at hasleep
  have hsome : (e.session? id).isSome := by
    rw [rest?] at hr
    exact Option.isSome_map .. ▸ Option.isSome_of_eq_some hr
  have hwatch := watch_sleep e hsome
  rw [hr, Option.map_some] at hrest
  dsimp only at hrest
  split at hrest
  · rw [asleep_eq, hrest] at hasleep
    exact absurd ((Session.Rest.isAsleep_wake _).symm.trans hasleep) Bool.false_ne_true
  · next hnone =>
    refine ⟨hwatch.trans (if_neg hnone), ?_, ?_⟩
    · rw [calls_eq, hrest, calls_eq, hr]
      rfl
    · rw [deadline?_eq, hrest]
      rfl

/-! ### Sessions that are called, and others -/

/-- All sessions take the packets that they are sent. -/
def Listens (e : Engine σ) : Prop := ∀ i r, e.rest? i = some r → r.hungUp = false

/-- The session is called, once, and sleeps no more. -/
def Roused (e : Engine σ) (id : SessionId) (e' : Engine σ) : Prop :=
  e'.calls id = e.calls id + 1 ∧ e'.sessions.isAsleep id = false

/-- The session is not called, and sleeps if it did. -/
def Spared (e : Engine σ) (id : SessionId) (e' : Engine σ) : Prop :=
  e'.calls id = e.calls id ∧ e'.sessions.isAsleep id = e.sessions.isAsleep id

/-- The session is woken for nothing. -/
def Unlisted (e : Engine σ) (id : SessionId) : Prop :=
  ∀ f, id ∉ (e.workshop f).crew.sleepers

theorem spared_of_rest? (h : e'.rest? id = e.rest? id) : Spared e id e' :=
  ⟨calls_congr h, asleep_congr h⟩

theorem roused_of_woken (he : e.Listens) (hasleep : e.sessions.isAsleep id)
    (h : e'.rest? id = (e.rest? id).map Session.Rest.wake) : Roused e id e' := by
  refine ⟨?_, not_asleep_of_woken h⟩
  rw [calls_of_woken h (he id), hasleep, if_pos rfl]

theorem spared_of_woken (he : e.Listens) (hawake : e.sessions.isAsleep id = false)
    (h : e'.rest? id = (e.rest? id).map Session.Rest.wake) : Spared e id e' := by
  refine ⟨?_, (not_asleep_of_woken h).trans hawake.symm⟩
  rw [calls_of_woken h (he id), hawake, if_neg Bool.false_ne_true, Nat.add_zero]

theorem unlisted_of_rouse (htended : e.watch.Tended)
    (h : e'.watch = e.watch.rouse id) : Unlisted e' id := by
  intro f hlisted
  have hlisted : e'.watch.listed f id := hlisted
  rw [h] at hlisted
  exact hlisted.2 ⟨rfl, htended.able_of_listed hlisted.1⟩

/-- A session that begins to sleep beside a job. -/
theorem roused_of_offers (htended : e.watch.Tended) (he : e.Listens)
    (h : ∃ f ∈ e.abilities id, e.Offers f) :
    Roused e id (e.sleep id) ∧ Unlisted (e.sleep id) id := by
  have hready := (any_hasReady_iff htended (e.abilities id)).mpr h
  obtain ⟨s, hs⟩ := Option.isSome_iff_exists.mp (isSome_of_able h.choose_spec.1)
  have hrest := rest?_sleep e id id
  have hhung : s.rest.hungUp = false := he id s.rest (by rw [rest?, hs]; rfl)
  simp only [if_pos hready, rest?, hs, Option.map_some] at hrest
  refine ⟨⟨?_, ?_⟩, unlisted_of_rouse htended ?_⟩
  · rw [calls_eq, rest?, hrest, calls_eq, rest?, hs]
    simp [Session.Rest.wake, Session.Rest.isAsleep, hhung]
  · rw [asleep_eq, rest?, hrest]
    exact Session.Rest.isAsleep_wake _
  · rw [watch_sleep e (Option.isSome_of_eq_some hs), if_pos hready]

/-- A session that begins to sleep with nothing to do. -/
theorem sleep_of_idle (htended : e.watch.Tended) (h : ¬ ∃ f ∈ e.abilities id, e.Offers f) :
    (e.sleep id).calls id = e.calls id ∧
      (e.sleep id).sessions.isAsleep id = (e.session? id).isSome := by
  have hidle := mt (any_hasReady_iff htended (e.abilities id)).mp h
  have hrest := rest?_sleep e id id
  simp only [if_neg hidle] at hrest
  rw [calls_eq, asleep_eq, calls_eq, hrest, rest?]
  cases e.session? id <;> exact ⟨rfl, rfl⟩

/-! ### Since a session fell asleep -/

/-- The session has last gone to sleep after `past`, and what has come `later` ends the run. -/
def LastSlept (ps : List (Phase σ)) (id : SessionId) (past later : List (Phase σ)) : Prop :=
  ps = past ++ .sleep id :: later ∧ .sleep id ∉ later

theorem lastSlept_concat_self :
    LastSlept (ps ++ [.sleep id]) id past later ↔ past = ps ∧ later = [] := by
  constructor
  · rintro ⟨hsplit, hnot⟩
    rcases List.eq_nil_or_concat' later with rfl | ⟨later, p, rfl⟩
    · exact ⟨(List.append_inj_left' hsplit rfl).symm, rfl⟩
    · rw [← List.cons_append, ← List.append_assoc] at hsplit
      obtain rfl : Phase.sleep id = p := by simpa using List.append_inj_right' hsplit rfl
      exact absurd (by simp) hnot
  · rintro ⟨rfl, rfl⟩
    exact ⟨rfl, List.not_mem_nil⟩

theorem lastSlept_concat (hp : p ≠ .sleep id) : LastSlept (ps ++ [p]) id past later ↔
    ∃ before, later = before ++ [p] ∧ LastSlept ps id past before := by
  constructor
  · rintro ⟨hsplit, hnot⟩
    rcases List.eq_nil_or_concat' later with rfl | ⟨later, q, rfl⟩
    · exact absurd (by simpa using List.append_inj_right' hsplit rfl) hp
    · rw [← List.cons_append, ← List.append_assoc] at hsplit
      obtain rfl : p = q := by simpa using List.append_inj_right' hsplit rfl
      exact ⟨later, rfl, List.append_inj_left' hsplit rfl, fun h =>
        hnot (List.mem_append_left _ h)⟩
  · rintro ⟨before, rfl, rfl, hnot⟩
    refine ⟨by simp, fun h => ?_⟩
    rcases List.mem_append.mp h with h | h
    · exact hnot h
    · exact hp (List.mem_singleton.mp h).symm

variable [JobStore σ]

/-- The session can do the function, and could at any time since it has last gone to sleep. -/
def AbleSince (e : Engine σ) (ps : List (Phase σ)) (id : SessionId) (f : String) : Prop :=
  ∃ past later, LastSlept ps id past later ∧ ∀ n ≤ later.length,
    f ∈ (e.undergoAll (past ++ .sleep id :: later.take n)).abilities id

theorem ableSince_concat_self : e.AbleSince (ps ++ [.sleep id]) id f ↔
    f ∈ (e.undergoAll (ps ++ [.sleep id])).abilities id := by
  constructor
  · rintro ⟨past, later, hlast, hable⟩
    obtain ⟨rfl, rfl⟩ := lastSlept_concat_self.mp hlast
    exact hable 0 (Nat.zero_le _)
  · intro hable
    refine ⟨ps, [], lastSlept_concat_self.mpr ⟨rfl, rfl⟩, fun n _ => ?_⟩
    rw [List.take_nil]
    exact hable

theorem ableSince_concat (hp : p ≠ .sleep id) : e.AbleSince (ps ++ [p]) id f ↔
    e.AbleSince ps id f ∧ f ∈ (e.undergoAll (ps ++ [p])).abilities id := by
  constructor
  · rintro ⟨past, later, hlast, hable⟩
    obtain ⟨before, rfl, hbefore⟩ := (lastSlept_concat hp).mp hlast
    refine ⟨⟨past, before, hbefore, fun n hn => ?_⟩, ?_⟩
    · have hable := hable n (by rw [List.length_append]; omega)
      rwa [List.take_append_of_le_length hn] at hable
    · have hnow := hable _ le_rfl
      rwa [List.take_length, ← hlast.1] at hnow
  · rintro ⟨⟨past, later, hlast, hable⟩, hnow⟩
    refine ⟨past, later ++ [p], (lastSlept_concat hp).mpr ⟨later, rfl, hlast⟩, fun n hn => ?_⟩
    rcases Nat.lt_or_ge later.length n with hlt | hle
    · rw [List.take_of_length_le (by rw [List.length_append]; exact hlt)]
      rwa [hlast.1, List.append_assoc] at hnow
    · rw [List.take_append_of_le_length hle]
      exact hable n hle

theorem AbleSince.able (h : e.AbleSince ps id f) : f ∈ (e.undergoAll ps).abilities id := by
  obtain ⟨past, later, hlast, hable⟩ := h
  have hnow := hable later.length le_rfl
  rwa [List.take_length, ← hlast.1] at hnow

/-! ### Who is attended to -/

theorem listens_undergo (htended : e.watch.Tended) (he : e.Listens) (p : Phase σ) :
    (e.undergo p).Listens := by
  intro i r hr
  have hmap : ∀ {g : Session.Rest → Session.Rest}, (∀ r, (g r).hungUp = r.hungUp) →
      (e.rest? i).map g = some r → r.hungUp = false := by
    intro g hg hr
    obtain ⟨r₀, hr₀, rfl⟩ := Option.map_eq_some_iff.mp hr
    exact (hg r₀).trans (he i r₀ hr₀)
  by_cases hp : p = .sleep i
  · subst hp
    refine hmap (fun r => ?_) (((rest?_sleep e i i).trans (if_pos rfl)).symm.trans hr)
    dsimp only
    split
    · exact Session.Rest.hungUp_wake _
    · rfl
  · by_cases hrouses : e.Rouses p i
    · exact hmap Session.Rest.hungUp_wake ((rest?_of_rouses hrouses).symm.trans hr)
    · rcases rest?_of_not_rouses htended hp hrouses with hsame | ⟨-, peer, hnew⟩
      · exact he i r (hsame.symm.trans hr)
      · exact Option.some.inj (hnew.symm.trans hr) ▸ rfl

/-- Who sleeps and has not just begun to, was not called, and rests as before. -/
theorem rest?_of_asleep (htended : e.watch.Tended) (hp : p ≠ .sleep id)
    (hasleep : (e.undergo p).sessions.isAsleep id) :
    ¬ e.Rouses p id ∧ (e.undergo p).rest? id = e.rest? id := by
  have hrouses : ¬ e.Rouses p id := fun h =>
    Bool.false_ne_true ((not_asleep_of_woken (rest?_of_rouses h)).symm.trans hasleep)
  refine ⟨hrouses, (rest?_of_not_rouses htended hp hrouses).resolve_right ?_⟩
  rintro ⟨-, peer, hnew⟩
  rw [asleep_eq, hnew] at hasleep
  exact Bool.false_ne_true hasleep

/-- Who sleeps is listed for what it has been able to do since it fell asleep, has not been called
since, and its long poll is set. -/
structure Attended (e : Engine σ) (ps : List (Phase σ)) : Prop where
  tended : (e.undergoAll ps).watch.Tended
  listens : (e.undergoAll ps).Listens
  listed_iff : ∀ i f, (e.undergoAll ps).sessions.isAsleep i →
    ((e.undergoAll ps).watch.listed f i ↔ e.AbleSince ps i f)
  since : ∀ i, (e.undergoAll ps).sessions.isAsleep i → ∃ past later, LastSlept ps i past later ∧
    (e.undergoAll ps).calls i = (e.undergoAll past).calls i ∧
    (e.undergoAll ps).deadline? i =
      some ((e.undergoAll past).uptime + (e.undergoAll past).settings.longPollSeconds)

theorem Attended.concat (he : e.Attended ps) (p : Phase σ) : e.Attended (ps ++ [p]) := by
  have hrun := undergoAll_concat e ps p
  refine ⟨hrun ▸ tended_undergo he.tended p, hrun ▸ listens_undergo he.tended he.listens p,
    fun i f hasleep => ?_, fun i hasleep => ?_⟩
  · rw [hrun] at hasleep ⊢
    by_cases hp : p = .sleep i
    · subst hp
      have hwatch : ((e.undergoAll ps).undergo (.sleep i)).watch = (e.undergoAll ps).watch.doze i :=
        (dozing hasleep).1
      rw [ableSince_concat_self, hrun]
      show _ ↔ ((e.undergoAll ps).undergo (.sleep i)).watch.able i f
      rw [hwatch]
      exact ⟨fun h => h.elim he.tended.able_of_listed And.right, fun h => .inr ⟨rfl, h⟩⟩
    · obtain ⟨hrouses, hrest⟩ := rest?_of_asleep he.tended hp hasleep
      have hold := (asleep_congr hrest).symm.trans hasleep
      rw [listed_undergo he.tended hp, ableSince_concat hp, ← he.listed_iff i f hold, hrun]
      refine and_congr_right fun hlisted => and_iff_left ⟨fun hwake => hrouses (.inl hwake), ?_⟩
      exact fun hf => hrouses (.inr ⟨f, hf, hlisted⟩)
  · by_cases hp : p = .sleep i
    · subst hp
      refine ⟨ps, [], lastSlept_concat_self.mpr ⟨rfl, rfl⟩, ?_⟩
      rw [hrun] at hasleep ⊢
      exact (dozing hasleep).2
    · rw [hrun] at hasleep ⊢
      obtain ⟨-, hrest⟩ := rest?_of_asleep he.tended hp hasleep
      obtain ⟨past, later, hlast, hcalls, hdeadline⟩ :=
        he.since i ((asleep_congr hrest).symm.trans hasleep)
      exact ⟨past, later ++ [p], (lastSlept_concat hp).mpr ⟨later, rfl, hlast⟩,
        (calls_congr hrest).trans hcalls, (deadline?_congr hrest).trans hdeadline⟩

theorem attended_undergoAll (he : e.Attended []) (ps : List (Phase σ)) : e.Attended ps := by
  induction ps using List.reverseRecOn with
  | nil => exact he
  | append_singleton ps p ih => exact ih.concat p

theorem attended_start (settings : EngineSettings) (store : σ) (now : Int64) (newId : Nat → String)
    (isLinked : Bool) : (start settings store now newId isLinked).Attended [] where
  tended := (unmanned_start settings store now newId isLinked).wakeful.toTended
  listens := fun i r h => absurd h (by simp [rest?, session?, undergoAll, start, new])
  listed_iff := fun i f h => absurd h Bool.false_ne_true
  since := fun i h => absurd h Bool.false_ne_true

/-! ### Whom a phase calls -/

/-- Whom a phase calls, given who has been able to do what since it fell asleep. -/
structure Reckons (e : Engine σ) (able : SessionId → String → Prop) (p : Phase σ) : Prop where
  supplied : ∀ f, e.supplies? p = some f → ∀ i,
    (e.sessions.isAsleep i ∧ able i f → Roused e i (e.undergo p)) ∧
      (¬ (e.sessions.isAsleep i ∧ able i f) → Spared e i (e.undergo p))
  silent : e.supplies? p = none → p.rests = false → ∀ i, Spared e i (e.undergo p)
  slept : ∀ i, p = .sleep i → (∃ f ∈ e.abilities i, e.Offers f) →
    Roused e i (e.undergo p) ∧ Unlisted (e.undergo p) i
  dozed : ∀ i, p = .sleep i → (¬ ∃ f ∈ e.abilities i, e.Offers f) →
    (e.undergo p).calls i = e.calls i ∧
      (e.undergo p).sessions.isAsleep i = (e.session? i).isSome
  expired : ∀ i, p = .wake i → e.sessions.isAsleep i →
    Roused e i (e.undergo p) ∧ Unlisted (e.undergo p) i
  awake : ∀ i, p = .wake i → e.sessions.isAsleep i = false → Spared e i (e.undergo p)
  others : ∀ i j, p = .sleep i ∨ p = .wake i → i ≠ j → Spared e j (e.undergo p)

theorem Rouses.roused (h : e.Rouses p id) (he : e.Listens) (hasleep : e.sessions.isAsleep id) :
    Roused e id (e.undergo p) :=
  roused_of_woken he hasleep (rest?_of_rouses h)

/-- A phase calls a session only if it rouses it, and the session sleeps. -/
theorem spared (htended : e.watch.Tended) (he : e.Listens) (hp : p ≠ .sleep id)
    (h : e.sessions.isAsleep id → ¬ e.Rouses p id) : Spared e id (e.undergo p) := by
  by_cases hrouses : e.Rouses p id
  · have hawake : e.sessions.isAsleep id = false :=
      Bool.eq_false_iff.mpr fun hasleep => h hasleep hrouses
    exact spared_of_woken he hawake (rest?_of_rouses hrouses)
  · rcases rest?_of_not_rouses htended hp hrouses with hsame | ⟨hnone, peer, hnew⟩
    · exact spared_of_rest? hsame
    · refine ⟨?_, ?_⟩
      · rw [calls_eq, calls_eq, hnew, hnone]
        rfl
      · rw [asleep_eq, asleep_eq, hnew, hnone]
        rfl

theorem Attended.reckons (he : e.Attended ps) (p : Phase σ) :
    (e.undergoAll ps).Reckons (e.AbleSince ps) p where
  supplied := by
    intro f hf i
    have hwake : ∀ j, p ≠ .wake j ∧ p ≠ .sleep j := fun j => by
      have hrests := (job_of_supplies hf).2
      constructor <;> rintro rfl <;> exact Bool.false_ne_true hrests.symm
    refine ⟨fun ⟨hasleep, hable⟩ => ?_, fun hnot => ?_⟩
    · have hlisted := (he.listed_iff i f hasleep).mpr hable
      exact Rouses.roused (.inr ⟨f, hf, hlisted⟩) he.listens hasleep
    · refine spared he.tended he.listens (hwake i).2 fun hasleep hrouses => hnot ⟨hasleep, ?_⟩
      obtain ⟨g, hg, hlisted⟩ := hrouses.resolve_left (hwake i).1
      obtain rfl : f = g := Option.some.inj (hf.symm.trans hg)
      exact (he.listed_iff i f hasleep).mp hlisted
  silent := by
    intro hnone hrests i
    refine spared he.tended he.listens ?_ fun _ hrouses => ?_
    · rintro rfl
      exact Bool.false_ne_true hrests.symm
    · rcases hrouses with rfl | ⟨f, hf, -⟩
      · exact Bool.false_ne_true hrests.symm
      · exact absurd (hnone.symm.trans hf) (by simp)
  slept := by
    rintro i rfl h
    exact roused_of_offers he.tended he.listens h
  dozed := by
    rintro i rfl h
    exact sleep_of_idle he.tended h
  expired := by
    rintro i rfl hasleep
    exact ⟨Rouses.roused (.inl rfl) he.listens hasleep,
      unlisted_of_rouse he.tended (watch_wake (e.undergoAll ps) i)⟩
  awake := by
    rintro i rfl hawake
    refine spared he.tended he.listens (by simp) fun hasleep => ?_
    exact absurd (hawake.symm.trans hasleep) Bool.false_ne_true
  others := by
    rintro i j (rfl | rfl) hij
    · exact spared_of_rest? ((rest?_sleep _ i j).trans (if_neg hij))
    · exact spared_of_rest? ((rest?_wake _ i j).trans (if_neg hij))

/-- All calls to work of a run. -/
structure Reckoned (e : Engine σ) (ps : List (Phase σ)) : Prop where
  reckons : ∀ past p, past ++ [p] <+: ps → (e.undergoAll past).Reckons (e.AbleSince past) p
  /-- Before it is called, and after it was called before, a session has gone to sleep. -/
  preceded : ∀ past p i, past ++ [p] <+: ps →
    (e.undergoAll past).calls i < (e.undergoAll (past ++ [p])).calls i →
      ∃ before after, LastSlept (past ++ [p]) i before after ∧
        (e.undergoAll before).calls i = (e.undergoAll past).calls i
  deadline : ∀ past i, past <+: ps → (e.undergoAll past).sessions.isAsleep i →
    ∃ before after, LastSlept past i before after ∧ (e.undergoAll past).deadline? i =
      some ((e.undergoAll before).uptime + e.settings.longPollSeconds)

theorem Attended.preceded (he : e.Attended ps) {i : SessionId}
    (h : (e.undergoAll ps).calls i < (e.undergoAll (ps ++ [p])).calls i) :
    ∃ before after, LastSlept (ps ++ [p]) i before after ∧
      (e.undergoAll before).calls i = (e.undergoAll ps).calls i := by
  by_cases hp : p = .sleep i
  · subst hp
    exact ⟨ps, [], lastSlept_concat_self.mpr ⟨rfl, rfl⟩, rfl⟩
  · rw [undergoAll_concat] at h
    have hasleep : (e.undergoAll ps).sessions.isAsleep i := by
      by_contra hawake
      have hspared := spared he.tended he.listens hp fun hasleep => absurd hasleep hawake
      exact absurd hspared.1 (Nat.ne_of_gt h)
    obtain ⟨before, after, hlast, hcalls, -⟩ := he.since i hasleep
    exact ⟨before, after ++ [p], (lastSlept_concat hp).mpr ⟨after, rfl, hlast⟩, hcalls.symm⟩

theorem reckoned (he : ∀ ps, e.Attended ps) (ps : List (Phase σ)) : e.Reckoned ps where
  reckons past p _ := (he past).reckons p
  preceded past p i _ h := (he past).preceded h
  deadline past i _ hasleep := by
    obtain ⟨before, after, hlast, -, hdeadline⟩ := (he past).since i hasleep
    exact ⟨before, after, hlast, settings_undergoAll e before ▸ hdeadline⟩

/-- Over any store, and whatever is done to an engine since it starts: what is done comes about in
phases, and each phase calls whom it should. -/
theorem reckoned_performAll (settings : EngineSettings) (store : σ) (now : Int64)
    (newId : Nat → String) (isLinked : Bool) (ds : List (Deed σ)) :
    let e := start settings store now newId isLinked
    e.undergoAll (e.phasesAll ds) = e.performAll ds ∧ e.Reckoned (e.phasesAll ds) :=
  ⟨undergoAll_phasesAll ds _,
    reckoned (attended_undergoAll (attended_start settings store now newId isLinked)) _⟩

/-- A worker sleeps for two functions, and a departed worker gives a job back to each of them. The
sleeper is called for the first one only. -/
theorem reckoned_performAll_two_requeued :
    let e := start .default MemoryStore.empty 0 decimal false
    let ds : List (Deed MemoryStore) :=
      [.act (.arrive "1.1.1.1:1"), .act (.canDo 0 "f" none), .act (.canDo 0 "g" none),
        .act (.arrive "1.1.1.1:2"), .act (.canDo 1 "f" none), .act (.canDo 1 "g" none),
        .act (.submit (.new "f" "a" []) none), .act (.submit (.new "g" "b" []) none),
        .act (.grab 1), .act (.grab 1), .act (.sleep 0)]
    let gone := e.phasesAll ds ++ [.deed (.act (.disconnect 1))]
    let back := gone ++ [.abandon "H:localhost:1"]
    let all := ds ++ [.act (.disconnect 1)]
    e.phasesAll all = back ++ [.abandon "H:localhost:2"] ∧
      e.undergoAll (e.phasesAll all) = e.performAll all ∧ e.Reckoned (e.phasesAll all) ∧
      (e.undergoAll gone).supplies? (.abandon "H:localhost:1") = some "f" ∧
      (e.undergoAll back).supplies? (.abandon "H:localhost:2") = some "g" ∧
      (e.undergoAll gone).sessions.isAsleep 0 ∧ (e.undergoAll gone).calls 0 = 0 ∧
      (e.undergoAll back).calls 0 = 1 ∧ (e.performAll all).calls 0 = 1 := by
  intro e ds gone back all
  obtain ⟨hphases, hreckoned⟩ := reckoned_performAll .default MemoryStore.empty 0 decimal false all
  have hassigned : (e.performAll ds).assigned 1 = ["H:localhost:1", "H:localhost:2"] := by
    decide +kernel
  have hsplit : e.phasesAll all = back ++ [.abandon "H:localhost:2"] := by
    have hlast : (e.performAll ds).phases (.act (.disconnect 1)) =
        [.deed (.act (.disconnect 1)), .abandon "H:localhost:1", .abandon "H:localhost:2"] := by
      rw [phases, hassigned]
      rfl
    rw [phasesAll_concat, hlast, List.append_assoc, List.append_assoc]
    rfl
  refine ⟨hsplit, hphases, hreckoned, ?_, ?_, ?_, ?_, ?_, ?_⟩ <;> decide +kernel

end JobBroker.Engine
