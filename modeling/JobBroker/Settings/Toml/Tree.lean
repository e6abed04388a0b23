import JobBroker.Settings.Setting
import JobBroker.Settings.Toml.Moment

/-!
# Tables in TOML

The tree of values that headers and entries build up. What made a table says what may still go into
it:

* a table with a header of its own takes no entry through a longer path, and no second header;
* a table that only longer headers name may still have a header of its own;
* a table that paths of entries name takes more of them, and no header of its own;
* a table in braces takes nothing more.

Entries stand in the order in which they came in, because the first one may say that its table
stands for a date or a time.
-/

namespace JobBroker.Toml

/-- What made a table. -/
inductive Origin
  | header
  | longerHeader
  | entryPath
  | braces
deriving DecidableEq, Repr

inductive Node
  /-- A text, a flag or a number. -/
  | scalar (v : Setting)
  /-- A date or a time. -/
  | moment (text : String)
  | array (items : List Node)
  | table (origin : Origin) (entries : List (String × Node))
  /-- The tables of an array that headers build up, of which there is at least one. -/
  | tables (earlier : List (List (String × Node))) (last : List (String × Node))

abbrev Branch := List (String × Node)

/-- The name of a date or a time that is given as a table: as a text, in its first entry. -/
def momentMark : String := "$__toml_private_datetime"

/-- The date or the time that a text is. -/
def Node.moment? : Node → Option Setting
  | .scalar (.text s) => (Moment.read? s.toList).map fun cs => .text (String.ofList cs)
  | _ => none

/-- What a table stands for. Nothing but the first entry counts where that is marked. -/
def Branch.meaning? (es : Branch) (inner : Option (List (String × Setting))) : Option Setting :=
  match es with
  | [] => inner.map .table
  | (name, n) :: _ => if name = momentMark then n.moment? else inner.map .table

mutual

def Node.toSetting? : Node → Option Setting
  | .scalar v => some v
  | .moment s => some (.text s)
  | .array ns => (items? ns).map .list
  | .table _ es => Branch.meaning? es (settings? es)
  | .tables earlier last => do
    return .list ((← tables? earlier) ++ [← Branch.meaning? last (settings? last)])

def items? : List Node → Option (List Setting)
  | [] => some []
  | n :: ns => do return (← n.toSetting?) :: (← items? ns)

def settings? : Branch → Option (List (String × Setting))
  | [] => some []
  | (name, n) :: es => do return (name, ← n.toSetting?) :: (← settings? es)

def tables? : List Branch → Option (List Setting)
  | [] => some []
  | es :: rest => do return (← Branch.meaning? es (settings? es)) :: (← tables? rest)

end

namespace Branch

/-- What a tree stands for. -/
def toSetting? (es : Branch) : Option Setting := es.meaning? (settings? es)

/-- Changes the table under a path. The tables on the way that are not there are made, with the
given origin. Of an array that headers build up the last table is meant. No path leads through a
table in braces, and a path of an entry not through one with a header of its own. -/
def descend (origin : Origin) (change : Origin → Branch → Option Branch) :
    List String → Origin → Branch → Option Branch
  | [], o, es => change o es
  | name :: path, _, es => do
    let n ← match Table.lookup name es with
      | none => (descend origin change path origin []).map (Node.table origin)
      | some (.scalar _) | some (.moment _) | some (.array _) => none
      | some (.table o inner) =>
        if o = .braces ∨ (origin = .entryPath ∧ o = .header) then none
        else (descend origin change path o inner).map (Node.table o)
      | some (.tables earlier last) =>
        (descend origin change path .header last).map (Node.tables earlier)
    return Table.put name n es

/-- A new entry of a table. Where its path has more names than one, the last table on the way has to
be one that paths of entries made. -/
def assign (path : List String) (name : String) (v : Node) (es : Branch) : Option Branch :=
  descend .entryPath (fun o es =>
    if (path ≠ [] ∧ o ≠ .entryPath) ∨ (Table.lookup name es).isSome then none
    else some (es ++ [(name, v)])) path .header es

/-- The table of a header, which comes after the other entries even when it was there before. -/
def openTable (path : List String) (name : String) (es : Branch) : Option Branch :=
  descend .longerHeader (fun _ es =>
    match Table.lookup name es with
    | none => some (es ++ [(name, .table .header [])])
    | some (.table .longerHeader inner) =>
      some (es.filter (·.1 ≠ name) ++ [(name, .table .header inner)])
    | some _ => none) path .header es

/-- The next table of an array of tables. -/
def openItem (path : List String) (name : String) (es : Branch) : Option Branch :=
  descend .longerHeader (fun _ es =>
    match Table.lookup name es with
    | none => some (es ++ [(name, .tables [] [])])
    | some (.tables earlier last) => some (Table.put name (.tables (earlier ++ [last]) []) es)
    | some _ => none) path .header es

/-- Changes the table that a header has opened. -/
def inTable (path : List String) (change : Branch → Option Branch) (es : Branch) : Option Branch :=
  descend .longerHeader (fun _ es => change es) path .header es

end Branch

end JobBroker.Toml
