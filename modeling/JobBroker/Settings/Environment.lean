import JobBroker.Settings.Setting

/-!
# Settings in the environment

Environment variables whose names start with `FOREMAN__`, in either case, are settings: two
underscores stand for the point between the names of a path. The text of a variable is read as a
flag, a number, or else as text.
-/

namespace JobBroker.Environment

open Text

def variablePrefix : List Char := "foreman__".toList

/-- The value that a text stands for. -/
def valueOfText (s : String) : Setting :=
  if lower s = "true" then .flag true
  else if lower s = "false" then .flag false
  else
    match readSigned 9223372036854775808 s.toList with
    | some n => .integer n
    | none =>
      match Double.read s.toList with
      | some d => .decimal d
      | none => .text s

/-- A name with a point in place of each pair of underscores, from the left. -/
def withPoints : List Char → List Char
  | [] => []
  | '_' :: '_' :: cs => '.' :: withPoints cs
  | c :: cs => c :: withPoints cs

/-- The key that a variable sets. -/
def key? (name : String) : Option String :=
  let cs := (lower name).toList
  if cs.take variablePrefix.length = variablePrefix then
    some (String.ofList (withPoints (cs.drop variablePrefix.length)))
  else none

/-- The layer that the variables make. -/
def layer (bindings : List (String × String)) : Setting :=
  .table (bindings.filterMap fun (name, value) => (key? name).map (·, valueOfText value))

/-- The value of a variable. -/
def get? (bindings : List (String × String)) (name : String) : Option String :=
  Table.lookup name bindings

end JobBroker.Environment
