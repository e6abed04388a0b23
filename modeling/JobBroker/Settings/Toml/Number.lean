import JobBroker.Settings.Setting

/-!
# Numbers in TOML

Integers of 64 bits in base ten, sixteen, eight or two, and decimal fractions. An underscore may
stand between two digits, and no zero in front of another digit.
-/

namespace JobBroker.Toml

open Text

/-- Digits in which single underscores may part one from the next; the digits alone. -/
def digits? (isDigit : Char → Bool) : List Char → Option (List Char)
  | [] => none
  | [c] => if isDigit c then some [c] else none
  | c :: '_' :: cs => if isDigit c then (digits? isDigit cs).map (c :: ·) else none
  | c :: cs => if isDigit c then (digits? isDigit cs).map (c :: ·) else none

/-- The number of a base that digits write, each digit of which is below the base. -/
def ofBase? (base : Nat) (cs : List Char) : Option Nat := do
  let ds ← digits? (fun c => (hexValue c).any (· < base)) cs
  ds.foldlM (fun n c => (hexValue c).map (n * base + ·)) 0

/-- Digits without zeros in front. -/
def whole? (cs : List Char) : Option (List Char) :=
  (digits? Char.isDigit cs).filter fun ds => ds.head? ≠ some '0' || ds.length = 1

/-- A point with digits after it, or nothing. -/
def fraction? : List Char → Option (List Char)
  | [] => some []
  | '.' :: cs => digits? Char.isDigit cs
  | _ => none

/-- An `e` of either case with digits after it, which may have a sign, or nothing. -/
def exponent? : List Char → Option Int
  | [] => some 0
  | _ :: '-' :: cs => (digits? Char.isDigit cs).map fun ds => -(valueOf ds : Int)
  | _ :: '+' :: cs => (digits? Char.isDigit cs).map fun ds => (valueOf ds : Int)
  | _ :: cs => (digits? Char.isDigit cs).map fun ds => (valueOf ds : Int)

def ofInteger? (n : Int) : Option Setting :=
  if -9223372036854775808 ≤ n ∧ n < 9223372036854775808 then some (.integer n) else none

/-- A number after its sign. A fraction that is too large is refused above zero only. -/
def magnitude? (negative : Bool) (cs : List Char) : Option Setting :=
  if cs = "inf".toList then some (.decimal (.infinite negative))
  else if cs = "nan".toList then some (.decimal .nan)
  else
    let isMark (c : Char) : Bool := c = 'e' || c = 'E'
    let mantissa := cs.takeWhile (!isMark ·)
    let scale := cs.dropWhile (!isMark ·)
    let point := mantissa.dropWhile (· ≠ '.')
    do
      let ds ← whole? (mantissa.takeWhile (· ≠ '.'))
      if point = [] ∧ scale = [] then
        ofInteger? (if negative then -(valueOf ds : Int) else valueOf ds)
      else
        let fs ← fraction? point
        let e ← exponent? scale
        match Double.ofScientific negative (valueOf (ds ++ fs)) (e - fs.length) with
        | .infinite false => none
        | d => some (.decimal d)

/-- The number that a word is. -/
def number? : List Char → Option Setting
  | '0' :: 'x' :: cs => ofBase? 16 cs >>= (ofInteger? ·)
  | '0' :: 'o' :: cs => ofBase? 8 cs >>= (ofInteger? ·)
  | '0' :: 'b' :: cs => ofBase? 2 cs >>= (ofInteger? ·)
  | '+' :: cs => magnitude? false cs
  | '-' :: cs => magnitude? true cs
  | cs => magnitude? false cs

end JobBroker.Toml
