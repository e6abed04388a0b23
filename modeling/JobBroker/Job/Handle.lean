import JobBroker.Text.Numeral

/-!
# Job handles

A handle is `H:`, the name of the host, a colon, and a number. The numbers that a factory gives out
rise by one from handle to handle, in 64 bits; a factory that observes a handle of its own host goes
on behind it. Behind the largest number builds differ: where sums are checked there is no handle.

* `Handle.parse?_render` : a handle shows its host and its number.
* `HandleFactory.next?_of_room` : below the largest number builds agree.
-/

namespace JobBroker

namespace Handle

open Text

def render (host : String) (number : UInt64) : String :=
  "H:" ++ host ++ ":" ++ decimal number.toNat

/-- The host and the number of a handle. The last colon ends the host. -/
def parse? (handle : String) : Option (String × UInt64) :=
  match handle.toList with
  | 'H' :: ':' :: rest =>
    match rest.reverse.dropWhile (· ≠ ':') with
    | [] => none
    | _ :: host =>
      let number := (rest.reverse.takeWhile (· ≠ ':')).reverse
      (readUnsigned UInt64.size number).map fun n => (String.ofList host.reverse, UInt64.ofNat n)
  | _ => none

end Handle

/-- How the broker is built. In a checked build a call in which a sum is out of range does not
return; in an unchecked one the sum starts over from 0. -/
inductive Build
  | checked
  | unchecked
deriving DecidableEq, Repr

/-- The sum of two numbers of 64 bits, if the build has one. -/
def Build.add (b : Build) (m n : UInt64) : Option UInt64 :=
  match b with
  | .checked => if m.toNat + n.toNat < UInt64.size then some (m + n) else none
  | .unchecked => some (m + n)

structure HandleFactory where
  host : String
  /-- The number of the last handle given out or observed. It starts over from 0 in every build. -/
  last : UInt64
  /-- A handle was asked for behind the largest number. -/
  ranOut : Bool
deriving DecidableEq, Repr

namespace HandleFactory

def new (host : String) : HandleFactory := ⟨host, 0, false⟩

/-- The next handle in an unchecked build, where there always is one. -/
def next (f : HandleFactory) : String × HandleFactory :=
  (Handle.render f.host (f.last + 1),
    { f with last := f.last + 1, ranOut := f.ranOut || f.last + 1 == 0 })

/-- The next handle in a build, if the call returns. The last number has moved on if it does not. -/
def next? (b : Build) (f : HandleFactory) : Option String × HandleFactory :=
  ((b.add f.last 1).map (Handle.render f.host), f.next.2)

def observe (f : HandleFactory) (handle : String) : HandleFactory :=
  match Handle.parse? handle with
  | some (host, n) => if host = f.host ∧ f.last < n then { f with last := n } else f
  | none => f

/-- The next `n` handles in a build, in order, if all the calls return. -/
def take? (b : Build) (f : HandleFactory) : Nat → Option (List String) × HandleFactory
  | 0 => (some [], f)
  | n + 1 =>
    match f.next? b with
    | (none, f) => (none, f)
    | (some handle, f) =>
      let (handles, f) := f.take? b n
      (handles.map (handle :: ·), f)

theorem succ_last_eq_zero_iff (f : HandleFactory) :
    f.last + 1 = 0 ↔ f.last.toNat + 1 = UInt64.size := by
  have hlt : f.last.toNat < UInt64.size := f.last.toNat_lt
  rw [← UInt64.toNat_inj, UInt64.toNat_add, UInt64.toNat_one]
  show (f.last.toNat + 1) % UInt64.size = 0 ↔ _
  constructor
  · intro h
    have hdvd := Nat.le_of_dvd (Nat.succ_pos _) (Nat.dvd_of_mod_eq_zero h)
    omega
  · intro h
    rw [h, Nat.mod_self]

/-- Below the largest number builds do not differ. -/
theorem next?_of_room {f : HandleFactory} (hroom : f.last.toNat + 1 < UInt64.size) (b : Build) :
    f.next? b = (some f.next.1, f.next.2) := by
  cases b with
  | checked => simp only [next?, Build.add, UInt64.toNat_one, if_pos hroom]; rfl
  | unchecked => rfl

@[simp] theorem next?_unchecked (f : HandleFactory) :
    f.next? .unchecked = (some f.next.1, f.next.2) := rfl

/-- At the largest number a checked build has no next handle. -/
theorem next?_checked_of_full {f : HandleFactory} (hfull : f.last.toNat + 1 = UInt64.size) :
    f.next? .checked = (none, f.next.2) := by
  have hnot : ¬ f.last.toNat + 1 < UInt64.size := by omega
  simp only [next?, Build.add, UInt64.toNat_one, if_neg hnot]
  rfl

/-- A call leaves the factory run out when it asks behind the largest number. -/
theorem ranOut_next (f : HandleFactory) :
    f.next.2.ranOut = false ↔ f.ranOut = false ∧ f.last.toNat + 1 < UInt64.size := by
  have hlt : f.last.toNat < UInt64.size := f.last.toNat_lt
  have hzero := f.succ_last_eq_zero_iff
  have hne : f.last + 1 ≠ 0 ↔ f.last.toNat + 1 < UInt64.size := by
    rw [Ne, hzero]
    omega
  simp [next, hne]

end HandleFactory

namespace Handle

open Text

/-- Whatever the name of the host, colons and digits in it too. -/
theorem parse?_render (host : String) (n : UInt64) : parse? (render host n) = some (host, n) := by
  have hlist : (render host n).toList =
      'H' :: ':' :: (host.toList ++ ':' :: digits n.toNat) := by
    simp [render, decimal]
  have hdigits : ∀ c ∈ (digits n.toNat).reverse, (decide (c ≠ ':')) = true := fun c hc =>
    decide_eq_true fun h => not_mem_digits (c := ':') rfl n.toNat (h ▸ List.mem_reverse.mp hc)
  have hrest : (host.toList ++ ':' :: digits n.toNat).reverse =
      (digits n.toNat).reverse ++ ':' :: host.toList.reverse := by
    simp
  have hdrop : ((digits n.toNat).reverse ++ ':' :: host.toList.reverse).dropWhile (· ≠ ':') =
      ':' :: host.toList.reverse := by
    rw [List.dropWhile_append_of_pos hdigits]
    simp
  have htake : ((digits n.toNat).reverse ++ ':' :: host.toList.reverse).takeWhile (· ≠ ':') =
      (digits n.toNat).reverse := by
    rw [List.takeWhile_append_of_pos hdigits]
    simp
  have hnumber : readUnsigned UInt64.size (digits n.toNat) = some n.toNat :=
    readUnsigned_digits n.toNat_lt
  simp only [parse?, hlist, hrest, hdrop, htake, List.reverse_reverse, hnumber]
  simp

theorem render_ne_empty (host : String) (n : UInt64) : render host n ≠ "" := fun h =>
  absurd ((parse?_render host n).symm.trans (h ▸ rfl : parse? (render host n) = none)) (by simp)

/-- Handles of one host with different numbers differ. -/
theorem render_injective {host : String} {m n : UInt64} (h : render host m = render host n) :
    m = n :=
  congrArg Prod.snd (Option.some.inj
    ((parse?_render host m).symm.trans (h ▸ parse?_render host n)))

end Handle

end JobBroker
