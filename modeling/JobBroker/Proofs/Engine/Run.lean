import JobBroker.Proofs.Engine.Action

/-!
# Runs of an engine

A run is a list of actions each of which is legal where it happens, in which the handles do not run
out.

* `IsRun.inOrder` : an engine is in order after every run.
* `IsRun.path` : a run is a path of the ledger, each move of which one of its actions has made.
-/

namespace JobBroker

open Ledger (Move Path)

namespace Engine

variable {σ : Type} [JobStore σ] {e : Engine σ} {a : Action σ}

def run (e : Engine σ) (as : List (Action σ)) : Engine σ := as.foldl act e

theorem run_append (e : Engine σ) (as bs : List (Action σ)) :
    e.run (as ++ bs) = (e.run as).run bs :=
  List.foldl_append

theorem settings_run (e : Engine σ) (as : List (Action σ)) :
    (e.run as).settings = e.settings := by
  induction as generalizing e with
  | nil => rfl
  | cons a as ih => exact (ih (e.act a)).trans (settings_act e a)

/-- How many handles a run uses up. -/
def issued (e : Engine σ) : List (Action σ) → Nat
  | [] => 0
  | a :: as => (if (e.act a).handles = e.handles then 0 else 1) + (e.act a).issued as

/-- Every action is legal where it happens. -/
def LegalRun (e : Engine σ) : List (Action σ) → Prop
  | [] => True
  | a :: as => e.Legal a ∧ (e.act a).LegalRun as

instance decidableLegalRun (as : List (Action σ)) (e : Engine σ) : Decidable (e.LegalRun as) :=
  match as with
  | [] => .isTrue trivial
  | a :: as =>
    have := decidableLegalRun as (e.act a)
    inferInstanceAs (Decidable (e.Legal a ∧ (e.act a).LegalRun as))

/-- A run: all of it is legal, and the handles, with those used up before, are fewer than the
largest number there is for one. -/
structure IsRun (e : Engine σ) (as : List (Action σ)) : Prop where
  legal : e.LegalRun as
  issued_lt : e.handles.last.toNat + e.issued as < UInt64.size - 1

instance (e : Engine σ) (as : List (Action σ)) : Decidable (e.IsRun as) :=
  decidable_of_iff (e.LegalRun as ∧ e.handles.last.toNat + e.issued as < UInt64.size - 1)
    ⟨fun h => ⟨h.1, h.2⟩, fun h => ⟨h.legal, h.issued_lt⟩⟩

/-- An engine as it starts: it knows no function, no session and no job, whatever its store
holds. -/
def start (settings : EngineSettings) (store : σ) (now : Int64) (newId : Nat → String)
    (isLinked : Bool) : Engine σ :=
  { new settings store now newId with isLinked }

omit [JobStore σ] in
theorem start_inOrder (settings : EngineSettings) (store : σ) (now : Int64) (newId : Nat → String)
    (isLinked : Bool) : (start settings store now newId isLinked).InOrder := by
  have hsession : ∀ id, (start settings store now newId isLinked).session? id = none := fun _ => rfl
  have hjobs : ∀ k, (start settings store now newId isLinked).ledger.jobs k = none := fun _ => rfl
  have hkeys : ∀ handle, (start settings store now newId isLinked).ledger.keys handle = none :=
    fun _ => rfl
  have hwaiters : ∀ k, (start settings store now newId isLinked).ledger.waiters k = [] :=
    fun _ => rfl
  have hassigned : ∀ id, (start settings store now newId isLinked).ledger.assigned id = [] :=
    fun _ => rfl
  have hnotices : ∀ id, (start settings store now newId isLinked).ledger.notices id = [] :=
    fun _ => rfl
  constructor
  · exact {
      host_eq := rfl
      last_eq := rfl
      jobs_eq := rfl
      keys_eq := rfl
      queued_eq := rfl
      waiters_eq := rfl
      assigned_eq := fun _ _ => rfl
      wants_eq := rfl
      notices_eq := rfl
      inOrder := fun f => Queue.new_inOrder f _
      known := fun h => absurd h (by simp [start, new, LiveJobs.find?, LiveJobs.empty])
      idle := fun _ _ => rfl
      lt_size := fun h => absurd h (by simp [hsession])
      listens := fun h => absurd h (by simp [book?, hsession])
      isSome_of_connected := fun h => absurd h (by simp [start, new])
      connected_of_waiter := fun h => absurd h List.not_mem_nil }
  · exact {
      key_eq := fun h => absurd h (by simp [hjobs])
      keys_handle := fun h => absurd h (by simp [hjobs])
      jobs_of_keys := fun h => absurd h (by simp [hkeys])
      state_eq := fun h => absurd h (by simp [hjobs])
      queued_eq := fun _ => rfl
      assigned_iff := by simp [hassigned, Ledger.Held, hjobs]
      issued := fun h => absurd h (by simp [hjobs])
      nodup_waiters := fun _ => List.nodup_nil
      live_of_waiter := fun h => absurd h (by simp [hwaiters])
      spent_of_notice := fun h => absurd h (by simp [hnotices]) }

/-- Of the numbers there are for handles one is left. -/
theorem lt_add_one_of_toNat_lt {n : UInt64} (h : n.toNat < UInt64.size - 1) : n < n + 1 := by
  have hsize : UInt64.size = 18446744073709551616 := rfl
  rw [UInt64.lt_iff_toNat_lt, UInt64.toNat_add, UInt64.toNat_one]
  omega

/-- What a run begins with is legal and has a handle left, and the rest of it is a run too. -/
theorem IsRun.cons {as : List (Action σ)} (he : e.InOrder) (h : e.IsRun (a :: as)) :
    e.Legal a ∧ e.handles.last < e.handles.last + 1 ∧ (e.act a).IsRun as := by
  obtain ⟨⟨ha, has⟩, hlt⟩ := h
  have hroom : e.handles.last < e.handles.last + 1 := lt_add_one_of_toNat_lt (by omega)
  refine ⟨ha, hroom, has, ?_⟩
  obtain ⟨ms, hms, hp, -⟩ := he.act ha hroom
  have hlast : (e.act a).handles.last.toNat =
      e.handles.last.toNat + ms.countP Move.issues := hp.last_eq
  have hle := hms.issues_le
  unfold issued at hlt
  split at hlt
  · next hsame =>
    rw [hsame]
    omega
  · omega

theorem IsRun.inOrder {as : List (Action σ)} (he : e.InOrder) (h : e.IsRun as) :
    (e.run as).InOrder := by
  induction as generalizing e with
  | nil => exact he
  | cons a as ih =>
    obtain ⟨ha, hroom, has⟩ := h.cons he
    obtain ⟨-, -, -, he'⟩ := he.act ha hroom
    exact ih he' has

theorem issued_append (e : Engine σ) (as bs : List (Action σ)) :
    e.issued (as ++ bs) = e.issued as + (e.run as).issued bs := by
  induction as generalizing e with
  | nil => exact (Nat.zero_add _).symm
  | cons a as ih =>
    show _ + (e.act a).issued (as ++ bs) = _ + (e.act a).issued as + ((e.act a).run as).issued bs
    rw [ih, Nat.add_assoc]

theorem legalRun_append (e : Engine σ) (as bs : List (Action σ)) :
    e.LegalRun (as ++ bs) ↔ e.LegalRun as ∧ (e.run as).LegalRun bs := by
  induction as generalizing e with
  | nil => exact by simp [LegalRun, run]
  | cons a as ih =>
    show e.Legal a ∧ (e.act a).LegalRun (as ++ bs) ↔
      (e.Legal a ∧ (e.act a).LegalRun as) ∧ ((e.act a).run as).LegalRun bs
    rw [ih, and_assoc]

/-- The beginning of a run is a run, and so is what follows it. -/
theorem IsRun.append {as bs : List (Action σ)} (he : e.InOrder) (h : e.IsRun (as ++ bs)) :
    e.IsRun as ∧ (e.run as).IsRun bs := by
  refine ⟨⟨((legalRun_append e as bs).mp h.legal).1, ?_⟩, ?_⟩
  · have hlt := h.issued_lt
    rw [issued_append] at hlt
    omega
  · induction as generalizing e with
    | nil => exact h
    | cons a as ih =>
      obtain ⟨ha, hroom, has⟩ := IsRun.cons he h
      obtain ⟨-, -, -, he'⟩ := he.act ha hroom
      exact ih he' has

/-- One action of a run: it is legal and leaves an engine in order, from which the rest runs. -/
theorem IsRun.split {past later : List (Action σ)} (he : e.InOrder)
    (h : e.IsRun (past ++ a :: later)) :
    e.IsRun past ∧ (e.run past).InOrder ∧ (e.run past).Legal a ∧
      (e.run past).handles.last < (e.run past).handles.last + 1 ∧
      ((e.run past).act a).InOrder ∧ ((e.run past).act a).IsRun later := by
  obtain ⟨hpast, hrest⟩ := h.append he
  have he₁ := hpast.inOrder he
  obtain ⟨ha, hroom, hlater⟩ := hrest.cons he₁
  obtain ⟨-, -, -, he₂⟩ := he₁.act ha hroom
  exact ⟨hpast, he₁, ha, hroom, he₂, hlater⟩

/-- A run is a path of the ledger, each move of which is made by one of its actions. -/
theorem IsRun.path {as : List (Action σ)} (he : e.InOrder) (h : e.IsRun as) :
    ∃ ms, e.ledger.Path ms (e.run as).ledger ∧ ∀ m ∈ ms,
      ∃ past a later, as = past ++ a :: later ∧ (e.run past).Cause a m := by
  induction as generalizing e with
  | nil => exact ⟨[], .nil _, by simp⟩
  | cons a as ih =>
    obtain ⟨ha, hroom, has⟩ := h.cons he
    obtain ⟨ms, hms, hp, he'⟩ := he.act ha hroom
    obtain ⟨ms', hp', hcause⟩ := ih he' has
    refine ⟨ms ++ ms', hp.append hp', fun m hm => ?_⟩
    rcases List.mem_append.mp hm with hm | hm
    · exact ⟨[], a, as, rfl, hms.cause hm⟩
    · obtain ⟨past, a', later, has, hm⟩ := hcause m hm
      exact ⟨a :: past, a', later, congrArg (a :: ·) has, hm⟩

end Engine

end JobBroker
