import JobBroker.Text.Blank
import JobBroker.Text.Numeral

/-!
# Paths to settings

A key such as `server.port` or `hosts[0].name` leads to a setting: names with points between, and
indices in brackets. A key that is not written so has no path.
-/

namespace JobBroker

open Text

inductive SettingStep
  | name (name : String)
  /-- An item of a list, counted from the end when the index is negative. -/
  | item (index : Int)
deriving DecidableEq, Repr

namespace SettingStep

def isNameChar (c : Char) : Bool := c.isAlphanum || c = ' ' || c = '_' || c = '-'

/-- An index of 64 bits, with padding on either side. -/
def index? (cs : List Char) : Option Int :=
  let cs := cs.dropWhile isPadding
  let numeral := cs.takeWhile (!isPadding ·)
  if numeral.head? ≠ some '+' ∧ (cs.dropWhile (!isPadding ·)).all isPadding then
    readSigned 9223372036854775808 numeral
  else none

theorem length_dropWhile_le (p : Char → Bool) (cs : List Char) :
    (cs.dropWhile p).length ≤ cs.length :=
  (List.dropWhile_suffix p).length_le

/-- The steps after the first. -/
def further? (cs : List Char) : Option (List SettingStep) :=
  match cs with
  | [] => some []
  | '.' :: cs =>
    match cs.takeWhile isNameChar with
    | [] => none
    | n => (further? (cs.dropWhile isNameChar)).map (name (String.ofList n) :: ·)
  | '[' :: cs =>
    if ']' ∈ cs then do
      let i ← index? (cs.takeWhile (· ≠ ']'))
      (further? (cs.dropWhile (· ≠ ']')).tail).map (item i :: ·)
    else none
  | _ => none
termination_by cs.length
decreasing_by
  · exact Nat.lt_succ_of_le (length_dropWhile_le isNameChar cs)
  · have := length_dropWhile_le (· ≠ ']') cs
    simp only [List.length_tail, List.length_cons]
    omega

/-- The path of a key, which starts with a name. -/
def ofKey? (key : String) : Option (List SettingStep) :=
  match key.toList.takeWhile isNameChar with
  | [] => none
  | n => (further? (key.toList.dropWhile isNameChar)).map (name (String.ofList n) :: ·)

end SettingStep

end JobBroker
