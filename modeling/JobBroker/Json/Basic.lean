/-!
# JSON values

Numbers are kept apart by whether they are integers, since no record holds any other number, and
strings by whether their escapes are paired, since a string that is not may only be skipped.
-/

namespace JobBroker

inductive Json
  | null
  | bool (b : Bool)
  | integer (n : Int)
  /-- A number with a fraction or an exponent, or a negative zero. -/
  | fraction
  | string (s : String)
  /-- A string with an escaped half of a surrogate pair that stands alone. -/
  | unpaired
  | array (items : List Json)
  | object (members : List (Json × Json))
deriving Inhabited

namespace Json

/-- An object with the given names. -/
def record (members : List (String × Json)) : Json :=
  object (members.map fun m => (string m.1, m.2))

def natural (n : Nat) : Json := integer n

def optional {α : Type} (f : α → Json) : Option α → Json
  | none => null
  | some a => f a

end Json

end JobBroker
