import JobBroker.Json.Basic
import JobBroker.Text.Numeral

/-!
# Writing JSON

The compact form: no blanks, and of a string only quotes, backslashes and control characters are
escaped.
-/

namespace JobBroker.Json

open Text

def escape (c : Char) : List Char :=
  match c with
  | '"' => ['\\', '"']
  | '\\' => ['\\', '\\']
  | '\x08' => ['\\', 'b']
  | '\x0c' => ['\\', 'f']
  | '\n' => ['\\', 'n']
  | '\r' => ['\\', 'r']
  | '\t' => ['\\', 't']
  | c => if c.toNat < 32 then '\\' :: 'u' :: hex 4 c.toNat else [c]

def quoted (s : String) : List Char := '"' :: s.toList.flatMap escape ++ ['"']

mutual

/-- A value as text. Of a fraction and of an unpaired string nothing is known, and they are written
as `null`. -/
def write : Json → List Char
  | null => ['n', 'u', 'l', 'l']
  | bool true => ['t', 'r', 'u', 'e']
  | bool false => ['f', 'a', 'l', 's', 'e']
  | integer n => (decimalInt n).toList
  | string s => quoted s
  | fraction | unpaired => ['n', 'u', 'l', 'l']
  | array items => '[' :: writeItems items ++ [']']
  | object members => '{' :: writeMembers members ++ ['}']

def writeItems : List Json → List Char
  | [] => []
  | [v] => write v
  | v :: w :: vs => write v ++ ',' :: writeItems (w :: vs)

def writeMembers : List (Json × Json) → List Char
  | [] => []
  | [(name, v)] => write name ++ ':' :: write v
  | (name, v) :: m :: ms => write name ++ ':' :: write v ++ ',' :: writeMembers (m :: ms)

end

def toText (v : Json) : String := String.ofList v.write

end JobBroker.Json
