import JobBroker.Settings.Record
import JobBroker.Table
import JobBroker.Text.Case
import JobBroker.Text.Double

/-!
# Settings as layers give them

A tree of values with names, which is read leniently: a text may stand for a number or a flag, a
number or a flag for a text, and a list for a record with its fields in order.
-/

namespace JobBroker

open Text

inductive Setting
  | flag (b : Bool)
  | integer (n : Int)
  | decimal (d : Double)
  | text (s : String)
  | list (items : List Setting)
  | table (entries : List (String × Setting))
  /-- A place in a list that nothing has been put in. -/
  | unset

namespace Setting

instance : Inhabited Setting := ⟨table []⟩

/-- The entries of a table; any other value has none. -/
def entries : Setting → List (String × Setting)
  | table es => es
  | _ => []

/-- The items of a list; any other value has none. -/
def items : Setting → List Setting
  | list vs => vs
  | _ => []

/-- The text of a value that has no parts. -/
def text? : Setting → Option String
  | flag b => some (if b then "true" else "false")
  | integer n => some (decimalInt n)
  | decimal d => some d.toText
  | text s => some s
  | list _ | table _ | unset => none

/-- The words that a text may use for each flag. -/
def flagWord? (s : String) : Option Bool :=
  if lower s ∈ ["true", "on", "yes"] then some true
  else if lower s ∈ ["false", "off", "no"] then some false
  else none

def flag? : Setting → Option Bool
  | flag b => some b
  | integer n => some (n != 0)
  | decimal d => some !d.isZero
  | text s => if s = "1" then some true else if s = "0" then some false else flagWord? s
  | list _ | table _ | unset => none

/-- A flag counts as one or zero, and a fraction is rounded. -/
def number? (bound : Nat) (v : Setting) : Option Nat :=
  let n :=
    match v with
    | flag b => some b.toNat
    | integer n => if n < 0 then none else some n.toNat
    | decimal d => some (d.toNat UInt64.size)
    | text s =>
      match flagWord? s with
      | some b => some b.toNat
      | none => readUnsigned UInt64.size s.toList
    | list _ | table _ | unset => none
  n.filter (· < bound)

/-- One of a list of alternatives by its name, in either case. -/
def choice? {α : Type} (name : α → String) (choices : List α) : Setting → Option α
  | text s => choices.find? fun c => lower (name c) = lower s
  | table [(s, _)] => choices.find? fun c => lower (name c) = lower s
  | _ => none

/-- The values of the fields of a record. In a list the last ones may be left out, and what comes
after them is skipped. -/
def fields? (names : List String) : Setting → Option (List (Option Setting))
  | table es => some (names.map fun name => Table.lookup name es)
  | list vs => some ((List.range names.length).map fun i => vs[i]?)
  | _ => none

end Setting

/-- Settings as layers give them. -/
def SettingsFormat.lenient : SettingsFormat Setting :=
  ⟨Setting.fields?, Setting.text?, Setting.flag?, Setting.number?, Setting.choice?⟩

end JobBroker
