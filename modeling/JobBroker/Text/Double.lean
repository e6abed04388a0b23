import JobBroker.Text.Numeral

/-!
# Floating-point numbers as text

Numbers in double precision, read from decimal text and written with the fewest digits that read
back. A finite number is a mantissa below `2 ^ 53` times a power of two; all arithmetic is exact.
-/

namespace JobBroker.Text

inductive Double
  /-- `mantissa * 2 ^ exponent`, with the least exponent that the mantissa allows. -/
  | finite (negative : Bool) (mantissa : Nat) (exponent : Int)
  | infinite (negative : Bool)
  | nan
deriving DecidableEq, Repr

/-- The nearest integer to a quotient; a half goes to the even neighbour. -/
def roundQuotient (num den : Nat) : Nat :=
  let q := num / den
  let r := num % den
  if den < 2 * r ∨ (2 * r = den ∧ q % 2 = 1) then q + 1 else q

/-- `num / den * base ^ e` as a quotient. -/
def scaled (base num den : Nat) (e : Int) : Nat × Nat :=
  (num * Nat.pow base e.toNat, den * Nat.pow base (-e).toNat)

namespace Double

/-- Mantissa and exponent of the number nearest to a positive quotient. -/
def nearest (num den : Nat) : Nat × Int :=
  let e : Int := (Nat.log2 num : Int) - Nat.log2 den - 52
  let (n, d) := scaled 2 num den (-e)
  let e := max (-1074) (if n < d * Nat.pow 2 52 then e - 1 else e)
  let (n, d) := scaled 2 num den (-e)
  let m := roundQuotient n d
  if m = Nat.pow 2 53 then (Nat.pow 2 52, e + 1) else (m, e)

/-- The number nearest to `n * 10 ^ e`. -/
def ofScientific (negative : Bool) (n : Nat) (e : Int) : Double :=
  let magnitude : Int := (digits n).length + e
  if n = 0 ∨ magnitude < -400 then finite negative 0 (-1074)
  else if 400 < magnitude then infinite negative
  else
    let (num, den) := scaled 10 n 1 e
    let (m, q) := nearest num den
    if 971 < q then infinite negative else finite negative m q

/-- An exponent: an `e`, an optional sign, and digits. -/
def readExponent : List Char → Option Int
  | [] => some 0
  | c :: cs =>
    if c = 'e' ∨ c = 'E' then
      match cs with
      | '-' :: cs => (readDigits cs).map fun n => -(n : Int)
      | '+' :: cs => (readDigits cs).map Int.ofNat
      | cs => (readDigits cs).map Int.ofNat
    else none

/-- Digits with an optional point among or beside them, and an optional exponent. -/
def readMagnitude (negative : Bool) (cs : List Char) : Option Double :=
  let whole := cs.takeWhile Char.isDigit
  let (fraction, rest) :=
    match cs.dropWhile Char.isDigit with
    | '.' :: cs => (cs.takeWhile Char.isDigit, cs.dropWhile Char.isDigit)
    | cs => ([], cs)
  if whole ++ fraction = [] then none
  else (readExponent rest).map fun e =>
    ofScientific negative (valueOf (whole ++ fraction)) (e - fraction.length)

/-- A number with an optional sign, or a name of infinity or of no number in either case. -/
def read (cs : List Char) : Option Double :=
  let (negative, cs) :=
    match cs with
    | '-' :: cs => (true, cs)
    | '+' :: cs => (false, cs)
    | cs => (false, cs)
  let name := String.ofList (cs.map Char.toLower)
  if name = "inf" ∨ name = "infinity" then some (infinite negative)
  else if name = "nan" then some nan
  else readMagnitude negative cs

/-- How many zeros stand between the point and the first digit of a quotient below one. -/
def leadingZeros : (fuel num den : Nat) → Nat
  | 0, _, _ => 0
  | fuel + 1, num, den => if den ≤ 10 * num then 0 else leadingZeros fuel (10 * num) den + 1

/-- Of the two neighbours of a quotient on the grid of `10 ^ e`, the nearer one that rounds to the
given number. -/
def neighbour (num den m : Nat) (q e : Int) : Option Nat :=
  let (n, d) := scaled 10 num den (-e)
  let rounds (c : Nat) : Bool :=
    let (cn, cd) := scaled 10 c 1 e
    0 < c && nearest cn cd = (m, q)
  let low := n / d
  let candidates := if 2 * (n % d) ≤ d then [low, low + 1] else [low + 1, low]
  candidates.find? rounds

/-- The fewest digits that read back, as an integer and a power of ten. No number below `10` takes
more than 400 zeros after the point, and none takes more than 17 digits. -/
def shortest (m : Nat) (q : Int) : Nat × Int :=
  let (num, den) := scaled 2 m 1 q
  let top : Int :=
    if den ≤ num then (digits (num / den)).length else -(leadingZeros 400 num den : Int)
  let found := (List.range 17).findSome? fun k : Nat =>
    let e := top - (k + 1)
    (neighbour num den m q e).map fun n => (n, e)
  found.getD (0, 0)

/-- `n * 10 ^ e` without an exponent, and without zeros at the end of a fraction. -/
def positional (n : Nat) (e : Int) : List Char :=
  let ds := digits n ++ List.replicate e.toNat '0'
  let places := (-e).toNat
  let ds := List.replicate (places + 1 - ds.length) '0' ++ ds
  let whole := ds.take (ds.length - places)
  match ((ds.drop (ds.length - places)).reverse.dropWhile (· = '0')).reverse with
  | [] => whole
  | fraction => whole ++ '.' :: fraction

def toText : Double → String
  | finite negative m q =>
    let (n, e) := if m = 0 then (0, 0) else shortest m q
    String.ofList ((if negative then ['-'] else []) ++ positional n e)
  | infinite negative => if negative then "-inf" else "inf"
  | nan => "NaN"

def isZero : Double → Bool
  | finite _ m _ => m == 0
  | _ => false

/-- The nearest natural number below `bound`; a half goes up, and what is out of range goes to the
nearer end. -/
def toNat (bound : Nat) : Double → Nat
  | finite false m q =>
    let (num, den) := scaled 2 m 1 q
    min (bound - 1) ((2 * num + den) / (2 * den))
  | finite true _ _ | infinite true | nan => 0
  | infinite false => bound - 1

end Double

end JobBroker.Text
