import JobBroker.Text.Blank
import JobBroker.Text.Numeral

/-!
# Text in TOML

Blanks, line ends and comments, and the four forms of quoted text: in double quotes with escapes or
in single quotes as it stands, each on one line between single marks or over several lines between
triple ones.
-/

namespace JobBroker.Toml

open Text

/-- A reader takes its part from the front of a text and gives back the rest. -/
abbrev Reader (α : Type) := List Char → Option (α × List Char)

def skipSpaces (cs : List Char) : List Char := cs.dropWhile isPadding

/-- Text may hold any character but control characters; a tab is allowed. -/
def isTextChar (c : Char) : Bool := c = '\t' || (32 ≤ c.toNat && c.toNat ≠ 127)

/-- What follows a line end. -/
def newline? : List Char → Option (List Char)
  | '\n' :: cs => some cs
  | '\r' :: '\n' :: cs => some cs
  | _ => none

/-- What follows the end of a line, before which blanks and a comment may stand. -/
def lineEnd? (cs : List Char) : Option (List Char) :=
  let cs :=
    match skipSpaces cs with
    | '#' :: comment => comment.dropWhile isTextChar
    | cs => cs
  if cs = [] then some [] else newline? cs

/-- Skips blanks, line ends and comments. -/
def skipLines (inComment : Bool) : List Char → List Char
  | [] => []
  | '\n' :: cs => skipLines false cs
  | '\r' :: '\n' :: cs => skipLines false cs
  | c :: cs =>
    if inComment then if isTextChar c then skipLines true cs else c :: cs
    else if isPadding c then skipLines false cs
    else if c = '#' then skipLines true cs
    else c :: cs

/-- Skips blanks and line ends. -/
def skipBlankLines : List Char → List Char
  | [] => []
  | '\n' :: cs => skipBlankLines cs
  | '\r' :: '\n' :: cs => skipBlankLines cs
  | c :: cs => if isPadding c then skipBlankLines cs else c :: cs

/-- The character with a code of the given number of hexadecimal digits. -/
def codeChar? (width : Nat) : Reader Char := fun cs => do
  let code := cs.take width
  if code.length ≠ width then none
  let n ← code.foldlM (fun n c => (hexValue c).map (n * 16 + ·)) 0
  if h : n.isValidChar then some (Char.ofNatAux n h, cs.drop width) else none

/-- The character that an escape stands for. -/
def escaped? : Reader Char
  | 'b' :: cs => some ('\x08', cs)
  | 't' :: cs => some ('\t', cs)
  | 'n' :: cs => some ('\n', cs)
  | 'f' :: cs => some ('\x0c', cs)
  | 'r' :: cs => some ('\r', cs)
  | '"' :: cs => some ('"', cs)
  | '\\' :: cs => some ('\\', cs)
  | 'u' :: cs => codeChar? 4 cs
  | 'U' :: cs => codeChar? 8 cs
  | _ => none

/-- A form of quoted text. -/
structure Quoting where
  mark : Char
  /-- A backslash starts an escape. -/
  escapes : Bool
  /-- The mark is tripled, and line ends are text. -/
  long : Bool

namespace Quoting

variable (q : Quoting)

/-- The last marks that are text themselves, when the text ends here. Of a run of marks the last
three close a long text, and at most two more stand before them. -/
def ending? (cs : List Char) : Option (List Char × List Char) :=
  let run := (cs.takeWhile (· = q.mark)).length
  if q.long then
    if run < 3 then none
    else
      let text := min (run - 3) 2
      some (List.replicate text q.mark, cs.drop (text + 3))
  else if run = 0 then none
  else some ([], cs.drop 1)

/-- What an escape stands for. In a long text a line end that is escaped is left out, with all
blanks and line ends after it. -/
def escape? (cs : List Char) : Option (List Char × List Char) :=
  match if q.long then newline? (skipSpaces cs) else none with
  | some rest => some ([], skipBlankLines rest)
  | none => (escaped? cs).map fun p => ([p.1], p.2)

/-- One piece of text with what follows it. -/
def piece? (cs : List Char) : Option (List Char × List Char) :=
  match if q.long then newline? cs else none with
  | some rest => some (['\n'], rest)
  | none =>
    match cs with
    | [] => none
    | c :: rest =>
      if q.escapes && c = '\\' then q.escape? rest
      else if isTextChar c then some ([c], rest)
      else none

/-- The text up to its end. Each piece takes a character, so the length is fuel enough. -/
def within : Nat → Reader (List Char)
  | 0, _ => none
  | fuel + 1, cs =>
    match q.ending? cs with
    | some found => some found
    | none => do
      let (text, rest) ← q.piece? cs
      let (more, rest) ← within fuel rest
      return (text ++ more, rest)

/-- The text after its opening mark. A line end right behind a tripled mark is not part of it. -/
def text? (cs : List Char) : Option (String × List Char) :=
  let cs := if q.long then (newline? cs).getD cs else cs
  (q.within (cs.length + 1) cs).map fun p => (String.ofList p.1, p.2)

def double : Quoting := ⟨'"', true, false⟩

def single : Quoting := ⟨'\'', false, false⟩

def tripled : Quoting := { q with long := true }

end Quoting

/-- A quoted text on one line. -/
def quoted? : Reader String
  | '"' :: cs => Quoting.double.text? cs
  | '\'' :: cs => Quoting.single.text? cs
  | _ => none

/-- A quoted text in any of its forms. -/
def text? : Reader String
  | '"' :: '"' :: '"' :: cs => Quoting.double.tripled.text? cs
  | '\'' :: '\'' :: '\'' :: cs => Quoting.single.tripled.text? cs
  | cs => quoted? cs

end JobBroker.Toml
