import JobBroker.Text.Numeral

/-!
# Dates and times in TOML

A date, a time of day, or both with an offset. They are settings only as text, in one form: with
`T` before the time, no zeros at the end of a fraction of a second, and no minus before a zero
offset.
-/

namespace JobBroker.Toml.Moment

open Text

/-- The number that two digits write. -/
def pair? (c d : Char) : Option Nat := readDigits [c, d]

def isLeapYear (y : Nat) : Bool := y % 4 == 0 && (y % 100 != 0 || y % 400 == 0)

def daysIn (year month : Nat) : Nat :=
  if month = 2 then if isLeapYear year then 29 else 28
  else if month ∈ [4, 6, 9, 11] then 30
  else 31

/-- Whether a text is a day of the calendar, such as `2024-02-29`. -/
def isDate : List Char → Bool
  | [y₁, y₂, y₃, y₄, '-', m₁, m₂, '-', d₁, d₂] =>
    match readDigits [y₁, y₂, y₃, y₄], pair? m₁ m₂, pair? d₁ d₂ with
    | some y, some m, some d => 1 ≤ m && m ≤ 12 && 1 ≤ d && d ≤ daysIn y m
    | _, _, _ => false
  | _ => false

/-- A fraction of a second in nanoseconds, without zeros at its end. -/
def fraction (ds : List Char) : List Char :=
  match ((ds.take 9).reverse.dropWhile (· = '0')).reverse with
  | [] => []
  | ds => '.' :: ds

/-- A time of day with what follows it. The sixtieth second is a leap second. -/
def time? : List Char → Option (List Char × List Char)
  | h₁ :: h₂ :: ':' :: m₁ :: m₂ :: ':' :: s₁ :: s₂ :: rest => do
    let h ← pair? h₁ h₂
    let m ← pair? m₁ m₂
    let s ← pair? s₁ s₂
    if 23 < h ∨ 59 < m ∨ 60 < s then none
    let time := [h₁, h₂, ':', m₁, m₂, ':', s₁, s₂]
    match rest with
    | '.' :: rest =>
      let ds := rest.takeWhile Char.isDigit
      if ds = [] then none else some (time ++ fraction ds, rest.dropWhile Char.isDigit)
    | rest => some (time, rest)
  | _ => none

/-- An offset from universal time, which may be left out. -/
def offset? : List Char → Option (List Char)
  | [] => some []
  | ['Z'] | ['z'] => some ['Z']
  | [sign, h₁, h₂, ':', m₁, m₂] => do
    let h ← pair? h₁ h₂
    let m ← pair? m₁ m₂
    if (sign ≠ '+' ∧ sign ≠ '-') ∨ 23 < h ∨ 59 < m then none
    return (if h = 0 ∧ m = 0 then '+' else sign) :: [h₁, h₂, ':', m₁, m₂]
  | _ => none

/-- A time of day with its offset. -/
def offsetTime? (cs : List Char) : Option (List Char) := do
  let (time, rest) ← time? cs
  return time ++ (← offset? rest)

/-- A date and a time behind the mark that parts them. -/
def dated? (date time : List Char) : Option (List Char) :=
  if isDate date then (offsetTime? time).map fun time => date ++ 'T' :: time else none

/-- The date, the time, or both with a blank or a `T` of either case between, that a text is. -/
def read? (cs : List Char) : Option (List Char) :=
  if isDate cs then some cs
  else
    match cs.drop 10 with
    | 'T' :: time | 't' :: time | ' ' :: time => dated? (cs.take 10) time
    | _ =>
      match time? cs with
      | some (time, []) => some time
      | _ => none

end JobBroker.Toml.Moment
