import JobBroker.Json.Basic
import JobBroker.Json.Token

/-!
# Reading JSON

A value from its tokens, by recursive descent. Nothing may follow the value.
-/

namespace JobBroker.Json

mutual

/-- The value that the tokens start with. -/
def valueWithin : Nat → List Token → Option (Json × List Token)
  | 0, _ => none
  | fuel + 1, tokens =>
    match tokens with
    | .null :: ts => some (null, ts)
    | .bool b :: ts => some (bool b, ts)
    | .integer n :: ts => some (integer n, ts)
    | .fraction :: ts => some (fraction, ts)
    | .string s :: ts => some (string s, ts)
    | .unpaired :: ts => some (unpaired, ts)
    | .openBracket :: .closeBracket :: ts => some (array [], ts)
    | .openBracket :: ts => (itemsWithin fuel ts).map fun p => (array p.1, p.2)
    | .openBrace :: .closeBrace :: ts => some (object [], ts)
    | .openBrace :: ts => (membersWithin fuel ts).map fun p => (object p.1, p.2)
    | _ => none

/-- One or more values with commas between, up to the closing bracket. -/
def itemsWithin : Nat → List Token → Option (List Json × List Token)
  | 0, _ => none
  | fuel + 1, tokens =>
    match valueWithin fuel tokens with
    | some (v, .closeBracket :: ts) => some ([v], ts)
    | some (v, .comma :: ts) => (itemsWithin fuel ts).map fun p => (v :: p.1, p.2)
    | _ => none

/-- One or more names with their values, up to the closing brace. -/
def membersWithin : Nat → List Token → Option (List (Json × Json) × List Token)
  | 0, _ => none
  | fuel + 1, tokens =>
    let member (name : Json) (ts : List Token) :=
      match valueWithin fuel ts with
      | some (v, .closeBrace :: ts) => some ([(name, v)], ts)
      | some (v, .comma :: ts) => (membersWithin fuel ts).map fun p => ((name, v) :: p.1, p.2)
      | _ => none
    match tokens with
    | .string s :: .colon :: ts => member (string s) ts
    | .unpaired :: .colon :: ts => member unpaired ts
    | _ => none

end

/-- The value that a text is written as. Every call takes a token or leaves a list, so twice the
number of tokens is fuel enough. -/
def ofText (text : String) : Option Json := do
  let tokens ← Token.tokens text.toList
  match valueWithin (2 * tokens.length) tokens with
  | some (v, []) => some v
  | _ => none

end JobBroker.Json
