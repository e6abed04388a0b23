import JobBroker.Bytes

/-!
# UTF-8

Text as octets. `encode` and `decode?` are the strict pair; `decodeLossy` reads any octets, and puts
one replacement character for each maximal part that starts like a character and goes wrong.

* `decode?_eq_some_iff` : octets are read as a text exactly when they are its written form.
-/

namespace JobBroker.Text.Utf8

def encode (s : String) : Bytes := s.toUTF8.data.toList

/-- Refuses octets that no text is written as. -/
def decode? (bytes : Bytes) : Option String := String.fromUTF8? ⟨bytes.toArray⟩

theorem decode?_eq_some_iff {bytes : Bytes} {s : String} :
    decode? bytes = some s ↔ bytes = encode s := by
  unfold decode? String.fromUTF8? encode String.toUTF8
  split
  · next h =>
    rw [Option.some.injEq]
    constructor
    · rintro rfl; rfl
    · intro he
      apply String.toByteArray_inj.mp
      show (⟨bytes.toArray⟩ : ByteArray) = _
      rw [he]
  · next h =>
    simp only [reduceCtorEq, false_iff]
    rintro rfl
    exact h s.isValidUTF8

@[simp] theorem decode?_encode (s : String) : decode? (encode s) = some s :=
  decode?_eq_some_iff.mpr rfl

theorem encode_injective {s t : String} (h : encode s = encode t) : s = t := by
  have := decode?_encode s
  rw [h, decode?_encode] at this
  exact (Option.some.inj this).symm

/-- What the first octet of a character gives of its code point, and the ranges that its further
octets have to lie in. No character starts with an octet that has no entry. -/
def lead (b : UInt8) : Option (Nat × List (UInt8 × UInt8)) :=
  let n := b.toNat
  let tail := ((0x80, 0xBF) : UInt8 × UInt8)
  if n < 0x80 then some (n, [])
  else if n < 0xC2 then none
  else if n < 0xE0 then some (n - 0xC0, [tail])
  else if n = 0xE0 then some (0, [(0xA0, 0xBF), tail])
  else if n = 0xED then some (0xD, [(0x80, 0x9F), tail])
  else if n < 0xF0 then some (n - 0xE0, [tail, tail])
  else if n = 0xF0 then some (0, [(0x90, 0xBF), tail, tail])
  else if n < 0xF4 then some (n - 0xF0, [tail, tail, tail])
  else if n = 0xF4 then some (4, [(0x80, 0x8F), tail, tail])
  else none

/-- Reads further octets as far as they lie in their ranges. -/
def follow (code : Nat) : List (UInt8 × UInt8) → Bytes → Option Nat × Bytes
  | [], rest => (some code, rest)
  | _ :: _, [] => (none, [])
  | (low, high) :: ranges, b :: rest =>
    if low ≤ b ∧ b ≤ high then follow (code * 64 + b.toNat % 64) ranges rest
    else (none, b :: rest)

theorem length_follow_le (code : Nat) (ranges : List (UInt8 × UInt8)) (bytes : Bytes) :
    (follow code ranges bytes).2.length ≤ bytes.length := by
  fun_induction follow code ranges bytes with
  | case1 => simp
  | case2 => simp
  | case3 code low high ranges b rest h ih => exact Nat.le_trans ih (by simp)
  | case4 => simp

/-- The characters of octets that need not be well formed. -/
def decodeLossy : Bytes → List Char
  | [] => []
  | b :: rest =>
    match lead b with
    | none => '\uFFFD' :: decodeLossy rest
    | some (code, ranges) =>
      (follow code ranges rest).1.elim '\uFFFD' Char.ofNat
        :: decodeLossy (follow code ranges rest).2
termination_by bytes => bytes.length
decreasing_by
  · simp
  · exact Nat.lt_succ_of_le (length_follow_le ..)

end JobBroker.Text.Utf8
