import JobBroker.Proofs.Engine.Handles
import Mathlib.Data.List.Induction

/-!
# The sequence of handles

A factory is asked for handles and is shown strings, in any order. Its number is the last one given
out or the largest one shown, whichever is higher, so that the next handle is none of the old ones.
This holds below the largest number of 64 bits. Whoever shows that one sends the factory back to the
beginning, in every build: a checked one does not return from the next call, an unchecked one
returns the handle 0, and what both return afterwards was given out before.

* `fresh_next` : below the largest number the next handle is new, and its number the highest.
* `returned_of_full` : behind the largest number a factory returns what a new one does.
* `below_of_observed` : how many handles there are left behind the strings that were shown.
* `fresh_calls` : every handle that is given out in either build, at the largest number too.
-/

namespace JobBroker

namespace HandleFactory

/-- One call of a factory. -/
inductive Call
  | next
  | observe (handle : String)
deriving DecidableEq, Repr

variable {b : Build} {f : HandleFactory} {cs : List Call}

/-- The factory after a call, whether it has returned or not. -/
def call (f : HandleFactory) : Call → HandleFactory
  | .next => f.next.2
  | .observe handle => f.observe handle

def calls (f : HandleFactory) (cs : List Call) : HandleFactory :=
  cs.foldl call f

/-- The handles that calls return in a build, in their order. -/
def returned (b : Build) (f : HandleFactory) : List Call → List String
  | [] => []
  | .next :: cs => (f.next? b).1.toList ++ f.next.2.returned b cs
  | .observe handle :: cs => (f.observe handle).returned b cs

/-- Whenever a handle is asked for, the last number is below the largest. -/
def Below (f : HandleFactory) : List Call → Prop
  | [] => True
  | .next :: cs => f.last.toNat + 1 < UInt64.size ∧ f.next.2.Below cs
  | .observe handle :: cs => (f.observe handle).Below cs

/-- The handle was neither returned nor observed by the calls, and its number is above those of all
that were returned. -/
structure Fresh (b : Build) (f : HandleFactory) (past : List Call) (handle : String) : Prop where
  not_returned : handle ∉ f.returned b past
  not_observed : .observe handle ∉ past
  above : ∃ n, handle = Handle.render f.host n ∧
    ∀ earlier ∈ f.returned b past, ∃ m < n, earlier = Handle.render f.host m

theorem calls_concat (f : HandleFactory) (cs : List Call) (c : Call) :
    f.calls (cs ++ [c]) = (f.calls cs).call c :=
  List.foldl_concat ..

@[simp] theorem host_call (f : HandleFactory) (c : Call) : (f.call c).host = f.host := by
  cases c with
  | next => rfl
  | observe handle => exact host_observe f handle

@[simp] theorem host_calls (f : HandleFactory) (cs : List Call) : (f.calls cs).host = f.host := by
  induction cs using List.reverseRecOn with
  | nil => rfl
  | append_singleton cs c ih => rw [calls_concat, host_call, ih]

theorem next_calls_fst (f : HandleFactory) (cs : List Call) :
    (f.calls cs).next.1 = Handle.render f.host ((f.calls cs).last + 1) :=
  congrArg (Handle.render · _) (host_calls f cs)

theorem returned_append (b : Build) (f : HandleFactory) (cs ds : List Call) :
    f.returned b (cs ++ ds) = f.returned b cs ++ (f.calls cs).returned b ds := by
  induction cs generalizing f with
  | nil => rfl
  | cons c cs ih =>
    cases c with
    | next =>
      have hrest := congrArg ((f.next? b).1.toList ++ ·) (ih f.next.2)
      exact hrest.trans (List.append_assoc ..).symm
    | observe handle => exact ih (f.observe handle)

/-- What calls return depends on the host and the last number alone. -/
theorem returned_congr {g : HandleFactory} (hhost : f.host = g.host) (hlast : f.last = g.last)
    (cs : List Call) : f.returned b cs = g.returned b cs := by
  induction cs generalizing f g with
  | nil => rfl
  | cons c cs ih =>
    cases c with
    | next =>
      have hhandle : (f.next? b).1 = (g.next? b).1 := by rw [next?, next?, hhost, hlast]
      have hrest := ih (f := f.next.2) (g := g.next.2) hhost (congrArg (· + 1) hlast)
      exact congrArg₂ (·.toList ++ ·) hhandle hrest
    | observe handle =>
      have hobserve : (f.observe handle).host = (g.observe handle).host ∧
          (f.observe handle).last = (g.observe handle).last := by
        refine ⟨by rw [host_observe, host_observe, hhost], ?_⟩
        unfold observe
        rw [hhost, hlast]
        split
        · split
          · rfl
          · exact hlast
        · exact hlast
      exact ih hobserve.1 hobserve.2

theorem below_append (f : HandleFactory) (cs ds : List Call) :
    f.Below (cs ++ ds) ↔ f.Below cs ∧ (f.calls cs).Below ds := by
  induction cs generalizing f with
  | nil => exact (iff_of_eq (true_and _)).symm
  | cons c cs ih =>
    cases c with
    | next => exact (and_congr_right' (ih f.next.2)).trans and_assoc.symm
    | observe handle => exact ih (f.observe handle)

theorem below_concat_next :
    f.Below (cs ++ [.next]) ↔ f.Below cs ∧ (f.calls cs).last.toNat + 1 < UInt64.size := by
  rw [below_append]
  exact and_congr_right' (and_iff_left trivial)

theorem below_concat_observe {handle : String} :
    f.Below (cs ++ [.observe handle]) ↔ f.Below cs := by
  rw [below_append]
  exact and_iff_left trivial

/-! ### Below the largest number -/

/-- The factory has passed all that the calls showed it, and all that they returned. -/
structure Behind (b : Build) (f : HandleFactory) (past : List Call) : Prop where
  observed : ∀ {handle}, .observe handle ∈ past → (f.calls past).Passed handle
  returned : ∀ handle ∈ f.returned b past,
    ∃ m ≤ (f.calls past).last, handle = Handle.render f.host m

theorem Behind.next (h : f.Behind b cs) (hroom : (f.calls cs).last.toNat + 1 < UInt64.size) :
    f.Behind b (cs ++ [.next]) := by
  have hcalls : f.calls (cs ++ [.next]) = (f.calls cs).next.2 := calls_concat f cs .next
  refine ⟨fun hmem => ?_, fun handle hmem => ?_⟩
  · rw [hcalls]
    exact (h.observed (by simpa using hmem)).next hroom
  · rw [hcalls]
    rw [returned_append] at hmem
    rcases List.mem_append.mp hmem with hmem | hmem
    · obtain ⟨m, hm, rfl⟩ := h.returned handle hmem
      have hm := UInt64.le_iff_toNat_le.mp hm
      refine ⟨m, UInt64.le_iff_toNat_le.mpr ?_, rfl⟩
      exact Nat.le_trans hm (last_next hroom ▸ Nat.le_succ _)
    · have hnext : handle = (f.calls cs).next.1 := by
        simpa [HandleFactory.returned, next?_of_room hroom] using hmem
      exact ⟨_, UInt64.le_refl _, hnext.trans (next_calls_fst f cs)⟩

theorem Behind.observe (h : f.Behind b cs) (handle : String) :
    f.Behind b (cs ++ [.observe handle]) := by
  have hcalls : f.calls (cs ++ [.observe handle]) = (f.calls cs).observe handle :=
    calls_concat f cs (.observe handle)
  refine ⟨fun {handle'} hmem => ?_, fun handle' hmem => ?_⟩
  · rw [hcalls]
    rcases List.mem_append.mp hmem with hmem | hmem
    · exact (h.observed hmem).observe handle
    · obtain rfl : handle' = handle := by simpa using hmem
      exact passed_observe _ handle'
  · rw [hcalls]
    rw [returned_append] at hmem
    obtain ⟨m, hm, rfl⟩ := h.returned handle' (by simpa [HandleFactory.returned] using hmem)
    exact ⟨m, UInt64.le_trans hm (last_le_observe _ handle), rfl⟩

theorem behind_of_below (h : f.Below cs) : f.Behind b cs := by
  induction cs using List.reverseRecOn with
  | nil => exact ⟨fun h => absurd h List.not_mem_nil, fun _ h => absurd h List.not_mem_nil⟩
  | append_singleton cs c ih =>
    cases c with
    | next =>
      obtain ⟨hbelow, hroom⟩ := below_concat_next.mp h
      exact (ih hbelow).next hroom
    | observe handle => exact (ih (below_concat_observe.mp h)).observe handle

/-- Below the largest number the next handle is new, and its number is the highest. -/
theorem fresh_next (h : f.Below cs) (hroom : (f.calls cs).last.toNat + 1 < UInt64.size) :
    f.Fresh b cs (f.calls cs).next.1 := by
  have hold := behind_of_below (b := b) h
  have habove : ∀ earlier ∈ f.returned b cs,
      ∃ m < (f.calls cs).last + 1, earlier = Handle.render f.host m := by
    intro earlier hmem
    obtain ⟨m, hm, rfl⟩ := hold.returned earlier hmem
    have hm := UInt64.le_iff_toNat_le.mp hm
    refine ⟨m, UInt64.lt_iff_toNat_lt.mpr ?_, rfl⟩
    have hlast : ((f.calls cs).last + 1).toNat = _ := last_next hroom
    omega
  have hnext := next_calls_fst f cs
  refine ⟨fun hmem => ?_, fun hmem => (hold.observed hmem).ne_next hroom rfl,
    (f.calls cs).last + 1, hnext, habove⟩
  obtain ⟨m, hm, he⟩ := habove _ hmem
  exact UInt64.ne_of_lt hm (Handle.render_injective (he.symm.trans hnext))

/-! ### At the largest number -/

/-- The number 0 is above nothing. -/
theorem not_fresh_zero (hreturned : f.returned b cs ≠ []) :
    ¬ f.Fresh b cs (Handle.render f.host 0) := by
  rintro ⟨-, -, n, hn, habove⟩
  obtain ⟨earlier, hmem⟩ := List.exists_mem_of_ne_nil _ hreturned
  obtain ⟨m, hm, -⟩ := habove earlier hmem
  rw [← Handle.render_injective hn] at hm
  exact UInt64.not_lt_zero hm

/-- A factory that was asked for a handle behind the largest number returns what a new one does. -/
theorem returned_of_full (hfull : f.last.toNat + 1 = UInt64.size) (cs : List Call) :
    f.next.2.returned b cs = (new f.host).returned b cs := by
  have hhost : f.next.2.host = (new f.host).host := rfl
  have hlast : f.next.2.last = (new f.host).last := f.succ_last_eq_zero_iff.mpr hfull
  exact returned_congr hhost hlast cs

/-! ### How far the numbers reach -/

theorem last_calls_le {top : Nat} (hf : f.last.toNat ≤ top)
    (hobserved : ∀ handle n, .observe handle ∈ cs → Handle.parse? handle = some (f.host, n) →
      n.toNat ≤ top) (hbelow : f.Below cs) :
    (f.calls cs).last.toNat ≤ top + cs.count .next := by
  induction cs using List.reverseRecOn with
  | nil => exact hf
  | append_singleton cs c ih =>
    have hold : ∀ handle n, .observe handle ∈ cs → Handle.parse? handle = some (f.host, n) →
        n.toNat ≤ top := fun handle n hmem => hobserved handle n (List.mem_append_left _ hmem)
    rw [calls_concat, List.count_append]
    cases c with
    | next =>
      obtain ⟨hbelow, hroom⟩ := below_concat_next.mp hbelow
      have hle := ih hold hbelow
      have hlast : ((f.calls cs).call .next).last.toNat = _ := last_next hroom
      have hone : [Call.next].count .next = 1 := rfl
      omega
    | observe handle =>
      have hle := ih hold (below_concat_observe.mp hbelow)
      show ((f.calls cs).observe handle).last.toNat ≤ _
      unfold observe
      split
      · next host n hparse =>
        split
        · next hnew =>
          rw [hnew.1, host_calls] at hparse
          have hn := hobserved handle n (List.mem_append_right _ (List.mem_singleton_self _)) hparse
          exact Nat.le_trans hn (Nat.le_add_right ..)
        · exact Nat.le_trans hle (by omega)
      · exact Nat.le_trans hle (by omega)

/-- The numbers do not run out while the handles that are asked for have room behind the numbers
that were shown. -/
theorem below_of_observed {top : Nat} (hf : f.last.toNat ≤ top)
    (hobserved : ∀ handle n, .observe handle ∈ cs → Handle.parse? handle = some (f.host, n) →
      n.toNat ≤ top) (hroom : top + cs.count .next < UInt64.size) : f.Below cs := by
  induction cs using List.reverseRecOn with
  | nil => trivial
  | append_singleton cs c ih =>
    have hold : ∀ handle n, .observe handle ∈ cs → Handle.parse? handle = some (f.host, n) →
        n.toNat ≤ top := fun handle n hmem => hobserved handle n (List.mem_append_left _ hmem)
    rw [List.count_append] at hroom
    have hbelow := ih hold (by omega)
    cases c with
    | next =>
      have hone : [Call.next].count .next = 1 := rfl
      have hle := last_calls_le hf hold hbelow
      exact below_concat_next.mpr ⟨hbelow, by omega⟩
    | observe handle => exact below_concat_observe.mpr hbelow

/-- Whatever a factory was asked and shown, in any order: below the largest number the next call
returns a handle in every build, which is new, and its number the highest. At the largest number a
checked build does not return, and an unchecked one returns the handle 0, which is not new if there
was one before; what is returned afterwards is what a new factory returns. It does not get there
while the numbers that it was shown leave room for the handles that it is asked for. -/
theorem fresh_calls (host : String) (past : List Call) :
    ((new host).Below (past ++ [.next]) → ∀ b, ∃ handle,
      (((new host).calls past).next? b).1 = some handle ∧ (new host).Fresh b past handle) ∧
    (((new host).calls past).last.toNat + 1 = UInt64.size →
      (((new host).calls past).next? .checked).1 = none ∧
      (((new host).calls past).next? .unchecked).1 = some (Handle.render host 0) ∧
      ((new host).returned .unchecked past ≠ [] →
        ¬ (new host).Fresh .unchecked past (Handle.render host 0)) ∧
      ∀ b later, ((new host).calls (past ++ [.next])).returned b later =
        (new host).returned b later) ∧
    ∀ top : Nat, (∀ handle n, .observe handle ∈ past → Handle.parse? handle = some (host, n) →
      n.toNat ≤ top) → top + past.count .next + 1 < UInt64.size →
      (new host).Below (past ++ [.next]) := by
  have hhost : ((new host).calls past).host = host := host_calls _ past
  refine ⟨fun h b => ?_, fun hfull => ⟨?_, ?_, not_fresh_zero, fun b later => ?_⟩,
    fun top hobserved hroom => ?_⟩
  · obtain ⟨hbelow, hroom⟩ := below_concat_next.mp h
    have hnext := congrArg Prod.fst (next?_of_room hroom b)
    exact ⟨_, hnext, fresh_next hbelow hroom⟩
  · exact congrArg Prod.fst (next?_checked_of_full hfull)
  · rw [next?_unchecked, next, (succ_last_eq_zero_iff _).mpr hfull, hhost]
  · have hlater := returned_of_full (b := b) hfull later
    rw [hhost] at hlater
    rw [calls_concat]
    exact hlater
  · refine below_of_observed (Nat.zero_le top) (fun handle n hmem => ?_) ?_
    · exact hobserved handle n (by simpa using hmem)
    · rw [List.count_append]
      exact hroom

/-- Two handles, and one of the same host that comes in between. -/
theorem fresh_calls_observed :
    (new "h").Below ([.next, .observe "H:h:41"] ++ [.next]) ∧
      ∀ b, (new "h").Fresh b [.next, .observe "H:h:41"] "H:h:42" :=
  have hbelow : (new "h").Below ([.next, .observe "H:h:41"] ++ [.next]) := by
    refine ⟨by decide, ?_⟩
    show _ ∧ _
    exact ⟨by decide +kernel, trivial⟩
  have hnext : ∀ b, (((new "h").calls [.next, .observe "H:h:41"]).next? b).1 = some "H:h:42" := by
    intro b
    cases b <;> decide +kernel
  ⟨hbelow, fun b => by
    obtain ⟨handle, hreturned, hfresh⟩ := (fresh_calls "h" [.next, .observe "H:h:41"]).1 hbelow b
    rw [hnext b] at hreturned
    exact Option.some.inj hreturned ▸ hfresh⟩

/-- The largest number is shown to the factory after it has given out the handle 1. A checked build
does not return from the next call, an unchecked one returns the handle 0, and both return the
handle 1 once more after that. -/
theorem repeats_behind_largest :
    (new "h").returned .checked [.next, .observe "H:h:18446744073709551615", .next, .next] =
        ["H:h:1", "H:h:1"] ∧
      (new "h").returned .unchecked [.next, .observe "H:h:18446744073709551615", .next, .next] =
        ["H:h:1", "H:h:0", "H:h:1"] ∧
      ∀ b, ¬ ∀ host past handle, (((new host).calls past).next? b).1 = some handle →
        (new host).Fresh b past handle := by
  refine ⟨by decide +kernel, by decide +kernel, fun b h => ?_⟩
  have hagain : (((new "h").calls
      [.next, .observe "H:h:18446744073709551615", .next]).next? b).1 = some "H:h:1" := by
    cases b <;> decide +kernel
  have hnew := (h "h" _ _ hagain).not_returned
  cases b <;> exact hnew (by decide +kernel)

end HandleFactory

end JobBroker
