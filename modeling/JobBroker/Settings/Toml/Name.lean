import JobBroker.Settings.Toml.Text

/-!
# Names in TOML

Names of tables and entries, bare or quoted, and paths of names with points between.
-/

namespace JobBroker.Toml

def isBareChar (c : Char) : Bool := c.isAlphanum || c = '_' || c = '-'

def name? (cs : List Char) : Option (String × List Char) :=
  match quoted? cs with
  | some found => some found
  | none =>
    let name := cs.takeWhile isBareChar
    if name = [] then none else some (String.ofList name, cs.dropWhile isBareChar)

/-- Names with points between, and blanks on either side of each. Each name takes a character, so
the length is fuel enough. -/
def pathWithin : Nat → Reader (List String)
  | 0, _ => none
  | fuel + 1, cs => do
    let (name, rest) ← name? (skipSpaces cs)
    match skipSpaces rest with
    | '.' :: rest => (pathWithin fuel rest).map fun p => (name :: p.1, p.2)
    | rest => return ([name], rest)

/-- A path of this many names is too long, and a value inside this many brackets too deep. -/
def depthLimit : Nat := 80

/-- A path of names with what follows it. -/
def path? (cs : List Char) : Option (List String × List Char) :=
  (pathWithin (cs.length + 1) cs).filter fun p => decide (p.1.length < depthLimit)

end JobBroker.Toml
