/-!
# Decimal numerals

Numbers as text: one or more ASCII digits, with an optional sign in front.

* `readDigits_digits` : the written form of a number is read as that number.
-/

namespace JobBroker.Text

/-- The digits of `n` without leading zeros. -/
def digits (n : Nat) : List Char :=
  if n < 10 then [Char.ofNat (48 + n)]
  else digits (n / 10) ++ [Char.ofNat (48 + n % 10)]

/-- The number as text. -/
def decimal (n : Nat) : String := String.ofList (digits n)

/-- The number as text, with a minus sign below zero. -/
def decimalInt : Int → String
  | .ofNat n => decimal n
  | .negSucc n => "-" ++ decimal (n + 1)

/-- The value of a run of digits, most significant first. -/
def valueOf (cs : List Char) : Nat := cs.foldl (fun n c => n * 10 + (c.toNat - 48)) 0

/-- Reads one or more ASCII digits and nothing else. -/
def readDigits (cs : List Char) : Option Nat :=
  if cs ≠ [] ∧ cs.all Char.isDigit then some (valueOf cs) else none

/-- Reads a number below `bound`; a plus sign may stand in front. -/
def readUnsigned (bound : Nat) : List Char → Option Nat
  | '+' :: cs => (readDigits cs).filter (· < bound)
  | cs => (readDigits cs).filter (· < bound)

/-- Reads a number from `-bound` up to but not including `bound`; either sign may stand in front. -/
def readSigned (bound : Nat) : List Char → Option Int
  | '-' :: cs => ((readDigits cs).filter (· ≤ bound)).map fun n => -(n : Int)
  | cs => (readUnsigned bound cs).map Int.ofNat

/-- The digit of a value below sixteen, in lower case. -/
def hexDigit (n : Nat) : Char := if n < 10 then Char.ofNat (48 + n) else Char.ofNat (87 + n)

/-- The value of a hexadecimal digit of either case. -/
def hexValue (c : Char) : Option Nat :=
  let n := c.toNat
  if 48 ≤ n ∧ n ≤ 57 then some (n - 48)
  else if 97 ≤ n ∧ n ≤ 102 then some (n - 87)
  else if 65 ≤ n ∧ n ≤ 70 then some (n - 55)
  else none

/-- The last `width` hexadecimal digits of `n`. -/
def hex : (width n : Nat) → List Char
  | 0, _ => []
  | width + 1, n => hex width (n / 16) ++ [hexDigit (n % 16)]

theorem isDigit_ofNat {n : Nat} (h : n < 10) : (Char.ofNat (48 + n)).isDigit = true := by
  revert n; decide

theorem toNat_ofNat_digit {n : Nat} (h : n < 10) : (Char.ofNat (48 + n)).toNat - 48 = n := by
  revert n; decide

theorem valueOf_append_singleton (cs : List Char) (c : Char) :
    valueOf (cs ++ [c]) = valueOf cs * 10 + (c.toNat - 48) := by
  simp [valueOf]

theorem digits_ne_nil (n : Nat) : digits n ≠ [] := by
  rw [digits]; split <;> simp

theorem all_isDigit_digits (n : Nat) : (digits n).all Char.isDigit = true := by
  fun_induction digits n with
  | case1 n h => simp [isDigit_ofNat h]
  | case2 n h ih =>
    simp only [List.all_append, ih, List.all_cons, List.all_nil, Bool.and_true, Bool.true_and]
    exact isDigit_ofNat (Nat.mod_lt _ (by decide))

theorem valueOf_digits (n : Nat) : valueOf (digits n) = n := by
  fun_induction digits n with
  | case1 n h => simp [valueOf, toNat_ofNat_digit h]
  | case2 n h ih =>
    rw [valueOf_append_singleton, ih, toNat_ofNat_digit (Nat.mod_lt _ (by decide))]
    omega

@[simp] theorem readDigits_digits (n : Nat) : readDigits (digits n) = some n := by
  simp [readDigits, digits_ne_nil, all_isDigit_digits, valueOf_digits]

theorem not_mem_digits {c : Char} (h : c.isDigit = false) (n : Nat) : c ∉ digits n := fun hc =>
  absurd (List.all_eq_true.mp (all_isDigit_digits n) c hc) (by simp [h])

theorem readUnsigned_digits {bound n : Nat} (h : n < bound) :
    readUnsigned bound (digits n) = some n := by
  unfold readUnsigned
  split
  · next cs hd => exact absurd (hd ▸ List.mem_cons_self) (not_mem_digits (c := '+') rfl n)
  · simp [h]

end JobBroker.Text
