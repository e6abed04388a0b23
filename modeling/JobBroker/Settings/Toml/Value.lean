import JobBroker.Settings.Toml.Moment
import JobBroker.Settings.Toml.Name
import JobBroker.Settings.Toml.Number
import JobBroker.Settings.Toml.Tree

/-!
# Values in TOML

Texts, flags, numbers and dates, arrays of values, and tables that are written on one line.
-/

namespace JobBroker.Toml

def isWordChar (c : Char) : Bool :=
  c.isAlphanum || c = '_' || c = '+' || c = '-' || c = '.' || c = ':'

/-- What a word stands for. -/
def ofWord? (word : List Char) : Option Node :=
  if word = "true".toList then some (.scalar (.flag true))
  else if word = "false".toList then some (.scalar (.flag false))
  else
    match Moment.read? word with
    | some cs => some (.moment (String.ofList cs))
    | none => (number? word).map .scalar

/-- A value without parts. A date and a time may have a blank between them. -/
def plain? (cs : List Char) : Option (Node × List Char) :=
  match text? cs with
  | some (s, rest) => some (.scalar (.text s), rest)
  | none =>
    let word := cs.takeWhile isWordChar
    let rest := cs.dropWhile isWordChar
    match Moment.isDate word, rest with
    | true, ' ' :: more =>
      match more.takeWhile isWordChar with
      | [] => some (.moment (String.ofList word), rest)
      | time => (Moment.dated? word time).map fun cs =>
        (.moment (String.ofList cs), more.dropWhile isWordChar)
    | _, _ => (ofWord? word).map fun v => (v, rest)

/-- The items of an array, each but the last with a comma behind it. -/
def itemsWithin (item? : Reader Node) : Nat → Reader (List Node)
  | 0, _ => none
  | fuel + 1, cs =>
    match skipLines false cs with
    | ']' :: rest => some ([], rest)
    | cs => do
      let (v, rest) ← item? cs
      match skipLines false rest with
      | ',' :: rest => (itemsWithin item? fuel rest).map fun p => (v :: p.1, p.2)
      | ']' :: rest => some ([v], rest)
      | _ => none

/-- An entry: a path, an equals sign, and a value. -/
def assignment? (value? : Reader Node) (cs : List Char) :
    Option ((List String × Node) × List Char) := do
  let (path, rest) ← path? cs
  match rest with
  | '=' :: rest => (value? (skipSpaces rest)).map fun p => ((path, p.1), p.2)
  | _ => none

/-- The entries of a table on one line, with commas between. -/
def entriesWithin (value? : Reader Node) : Nat → Reader (List (List String × Node))
  | 0, _ => none
  | fuel + 1, cs => do
    let (e, rest) ← assignment? value? cs
    match skipSpaces rest with
    | ',' :: rest => (entriesWithin value? fuel rest).map fun p => (e :: p.1, p.2)
    | '}' :: rest => some ([e], rest)
    | _ => none

/-- Puts an entry into a table. -/
def assignEntry (es : Branch) (e : List String × Node) : Option Branch :=
  e.1.getLast?.bind fun name => Branch.assign e.1.dropLast name e.2 es

/-- A table on one line, after its brace. -/
def inlineTable? (value? : Reader Node) (cs : List Char) : Option (Node × List Char) :=
  match skipSpaces cs with
  | '}' :: rest => some (.table .braces [], rest)
  | cs => do
    let (es, rest) ← entriesWithin value? (cs.length + 1) cs
    let branch ← es.foldlM assignEntry []
    return (.table .braces branch, rest)

/-- A value that goes no deeper than `depth`. -/
def valueWithin : (depth : Nat) → Reader Node
  | 0, cs => plain? cs
  | depth + 1, cs =>
    match cs with
    | '[' :: cs =>
      (itemsWithin (valueWithin depth) (cs.length + 1) cs).map fun p => (.array p.1, p.2)
    | '{' :: cs => inlineTable? (valueWithin depth) cs
    | cs => plain? cs

/-- A value with what follows it. -/
def value? : Reader Node := valueWithin (depthLimit - 1)

end JobBroker.Toml
