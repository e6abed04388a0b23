import JobBroker.Json.Basic

/-!
# Records in JSON

A record is an object with its fields by name, or an array with its fields in order. Unknown names
are skipped, and a known one may stand only once. Of an array the last fields may be left out.
-/

namespace JobBroker.Json

/-- The members of an object. A name that cannot be read makes the object unreadable. -/
def members? : List (Json × Json) → Option (List (String × Json))
  | [] => some []
  | (string name, v) :: ms => (members? ms).map ((name, v) :: ·)
  | _ => none

/-- The value under a name, `none` where there is none; two values are refused. -/
def member? (members : List (String × Json)) (name : String) : Option (Option Json) :=
  match members.filter (·.1 = name) with
  | [] => some none
  | [m] => some (some m.2)
  | _ => none

/-- The values of the fields of a record, in the order of the names. -/
def fields? (names : List String) : Json → Option (List (Option Json))
  | object ms => do
    let ms ← members? ms
    names.mapM (member? ms)
  | array items =>
    if items.length ≤ names.length then
      some (items.map some ++ List.replicate (names.length - items.length) none)
    else none
  | _ => none

def string? : Json → Option String
  | string s => some s
  | _ => none

def bool? : Json → Option Bool
  | bool b => some b
  | _ => none

/-- An integer of the given range, without its upper end. -/
def integer? (low high : Int) : Json → Option Int
  | integer n => if low ≤ n ∧ n < high then some n else none
  | _ => none

def natural? (bound : Nat) (v : Json) : Option Nat := (integer? 0 bound v).map Int.toNat

/-- One of a list of alternatives: its name, or an object with nothing but `null` under its name. -/
def choice? {α : Type} (name : α → String) (choices : List α) : Json → Option α
  | string s => choices.find? (name · = s)
  | object [(string s, null)] => choices.find? (name · = s)
  | _ => none

def array? {α : Type} (item : Json → Option α) : Json → Option (List α)
  | array items => items.mapM item
  | _ => none

/-- Reads `null` as the absence of a value. -/
def nullable? {α : Type} (value : Json → Option α) : Json → Option (Option α)
  | null => some none
  | v => (value v).map some

/-- A field that has to be there. -/
def required {α β : Type} (value : β → Option α) : Option β → Option α
  | none => none
  | some v => value v

/-- A field that stands for `default` when it is left out. -/
def defaulting {α β : Type} (default : α) (value : β → Option α) : Option β → Option α
  | none => some default
  | some v => value v

end JobBroker.Json
