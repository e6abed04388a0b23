import JobBroker.Settings.Toml.Value

/-!
# Settings files

A settings file is written in TOML: headers of tables, and entries of the table of the last header.
No table and no entry may be given twice.

* `Toml.ofText?` : the table that a file holds.
-/

namespace JobBroker.Toml

inductive Statement
  | table (path : List String)
  /-- The next table of an array of tables. -/
  | item (path : List String)
  | entry (path : List String) (value : Node)

def statement? : Reader Statement
  | '[' :: '[' :: cs => do
    let (path, rest) ← path? cs
    match rest with
    | ']' :: ']' :: rest => some (.item path, rest)
    | _ => none
  | '[' :: cs => do
    let (path, rest) ← path? cs
    match rest with
    | ']' :: rest => some (.table path, rest)
    | _ => none
  | cs => (assignment? value? cs).map fun p => (.entry p.1.1 p.1.2, p.2)

/-- The statements of a text, each on lines of its own. Each takes a character, so the length is
fuel enough. -/
def statementsWithin : Nat → List Char → Option (List Statement)
  | 0, _ => none
  | fuel + 1, cs =>
    match skipSpaces cs with
    | [] => some []
    | cs =>
      match lineEnd? cs with
      | some rest => statementsWithin fuel rest
      | none => do
        let (s, rest) ← statement? cs
        (statementsWithin fuel (← lineEnd? rest)).map (s :: ·)

/-- The tree so far and the path of the table that entries go into. -/
structure Draft where
  root : Branch
  current : List String

namespace Draft

def add (d : Draft) : Statement → Option Draft
  | .table path => do
    return ⟨← d.root.openTable path.dropLast (← path.getLast?), path⟩
  | .item path => do
    return ⟨← d.root.openItem path.dropLast (← path.getLast?), path⟩
  | .entry path v => do
    return { d with root := ← d.root.inTable d.current (assignEntry · (path, v)) }

end Draft

/-- A text without the byte order mark that it may start with. -/
def withoutMark : List Char → List Char
  | '\ufeff' :: cs => cs
  | cs => cs

/-- The layer that a text holds; `none` when it is not well formed or holds no table. -/
def ofText? (text : String) : Option Setting := do
  let cs := withoutMark text.toList
  let said ← statementsWithin (cs.length + 1) cs
  let d ← said.foldlM Draft.add ⟨[], []⟩
  match ← d.root.toSetting? with
  | .table es => some (.table es)
  | _ => none

end JobBroker.Toml
