import JobBroker.Text.Numeral

/-!
# JSON tokens

A text as a list of tokens. Blanks between tokens are skipped; of a number the longest part that
is one is taken.
-/

namespace JobBroker.Json

inductive Token
  | openBrace
  | closeBrace
  | openBracket
  | closeBracket
  | colon
  | comma
  | null
  | bool (b : Bool)
  | integer (n : Int)
  | fraction
  | string (s : String)
  | unpaired
deriving DecidableEq, Repr

namespace Token

open Text

/-- A character of a string, or a 16-bit unit that was written as an escape. -/
inductive Piece
  | char (c : Char)
  | unit (n : Nat)

/-- The characters of a string. A unit of a surrogate pair has to stand next to its partner. -/
def join : List Piece → Option (List Char)
  | [] => some []
  | .char c :: rest => (join rest).map (c :: ·)
  | .unit n :: rest =>
    if 0xDC00 ≤ n ∧ n < 0xE000 then none
    else if 0xD800 ≤ n ∧ n < 0xDC00 then
      match rest with
      | .unit m :: rest =>
        if 0xDC00 ≤ m ∧ m < 0xE000 then
          (join rest).map (Char.ofNat (0x10000 + (n - 0xD800) * 0x400 + (m - 0xDC00)) :: ·)
        else none
      | _ => none
    else (join rest).map (Char.ofNat n :: ·)

/-- The character that a one-letter escape stands for. -/
def unescape : Char → Option Char
  | '"' => some '"'
  | '\\' => some '\\'
  | '/' => some '/'
  | 'b' => some '\x08'
  | 'f' => some '\x0c'
  | 'n' => some '\n'
  | 'r' => some '\r'
  | 't' => some '\t'
  | _ => none

/-- Reads a string up to its closing quote. Control characters have to be escaped. -/
def stringBody : List Char → Option (List Piece × List Char)
  | '"' :: rest => some ([], rest)
  | '\\' :: 'u' :: a :: b :: c :: d :: rest => do
    let n := ((← hexValue a) * 16 + (← hexValue b)) * 256 + (← hexValue c) * 16 + (← hexValue d)
    let (pieces, rest) ← stringBody rest
    return (.unit n :: pieces, rest)
  | '\\' :: c :: rest => do
    let c ← unescape c
    let (pieces, rest) ← stringBody rest
    return (.char c :: pieces, rest)
  | c :: rest =>
    if c.toNat < 32 ∨ c = '\\' then none
    else do
      let (pieces, rest) ← stringBody rest
      return (.char c :: pieces, rest)
  | [] => none

def ofPieces (pieces : List Piece) : Token :=
  match join pieces with
  | some cs => string (String.ofList cs)
  | none => unpaired

/-- Digits and what follows them; at least one digit is needed. -/
def digitRun (cs : List Char) : Option (List Char × List Char) :=
  match cs.takeWhile Char.isDigit with
  | [] => none
  | ds => some (ds, cs.dropWhile Char.isDigit)

/-- The part of a number after its integer part, and whether there is one. -/
def skipFraction : List Char → Option (Bool × List Char)
  | '.' :: cs => (digitRun cs).map fun p => (true, p.2)
  | cs => some (false, cs)

def skipExponent : List Char → Option (Bool × List Char)
  | e :: cs =>
    if e = 'e' ∨ e = 'E' then
      let cs := match cs with
        | '+' :: cs | '-' :: cs => cs
        | cs => cs
      (digitRun cs).map fun p => (true, p.2)
    else some (false, e :: cs)
  | [] => some (false, [])

/-- A number without its sign. More than one digit may not start with a zero. -/
def number (negative : Bool) (cs : List Char) : Option (Token × List Char) := do
  let (ds, cs) ← digitRun cs
  if ds.head? = some '0' ∧ ds.length ≠ 1 then none
  else
    let (dotted, cs) ← skipFraction cs
    let (raised, cs) ← skipExponent cs
    let n := valueOf ds
    if dotted || raised || (negative && n == 0) then return (fraction, cs)
    else return (integer (if negative then -(n : Int) else n), cs)

/-- The first token of a text without leading blanks. -/
def next : List Char → Option (Token × List Char)
  | '{' :: cs => some (openBrace, cs)
  | '}' :: cs => some (closeBrace, cs)
  | '[' :: cs => some (openBracket, cs)
  | ']' :: cs => some (closeBracket, cs)
  | ':' :: cs => some (colon, cs)
  | ',' :: cs => some (comma, cs)
  | 'n' :: 'u' :: 'l' :: 'l' :: cs => some (null, cs)
  | 't' :: 'r' :: 'u' :: 'e' :: cs => some (bool true, cs)
  | 'f' :: 'a' :: 'l' :: 's' :: 'e' :: cs => some (bool false, cs)
  | '"' :: cs => (stringBody cs).map fun p => (ofPieces p.1, p.2)
  | '-' :: cs => number true cs
  | cs => number false cs

def isBlank (c : Char) : Bool := c == ' ' || c == '\n' || c == '\t' || c == '\r'

/-- The tokens of a text, as long as the fuel lasts; each takes one unit of it. -/
def tokensWithin : Nat → List Char → Option (List Token)
  | fuel, cs =>
    match cs.dropWhile isBlank with
    | [] => some []
    | c :: cs =>
      match fuel with
      | 0 => none
      | fuel + 1 => do
        let (t, rest) ← next (c :: cs)
        let ts ← tokensWithin fuel rest
        return t :: ts

/-- The tokens of a text. Every token is at least one character long, so the length of the text is
fuel enough. -/
def tokens (cs : List Char) : Option (List Token) := tokensWithin cs.length cs

end Token

end JobBroker.Json
