import JobBroker.Settings.Path
import JobBroker.Settings.Setting

/-!
# Layers of settings

Layers are laid over each other key by key, so that a later layer wins. Names count the same in
upper and lower case and stand in lower case in the result; only what is inside a list stays as it
was given. The keys of a whole layer may be paths.
-/

namespace JobBroker

open Text

namespace Setting

mutual

/-- A value laid over the one that was there. A table is laid over key by key, and what is no table
is replaced by one as soon as a key goes into it. -/
def onto (base : Option Setting) : Setting → Setting
  | table [] => base.getD (table [])
  | table (e :: es) => table (entriesOnto ((base.map entries).getD []) (e :: es))
  | value => value

def entriesOnto (base : List (String × Setting)) :
    List (String × Setting) → List (String × Setting)
  | [] => base
  | (k, v) :: rest =>
    entriesOnto (Table.put (lower k) (onto (Table.lookup (lower k) base) v) base) rest

end

/-- The place of an item in a list. -/
def position? (length : Nat) (index : Int) : Option Nat :=
  if 0 ≤ index then some index.toNat
  else if index.natAbs ≤ length then some (length - index.natAbs)
  else none

/-- A list with an item in a place, which is lengthened as far as it needs. -/
def putItem (n : Nat) (v : Setting) (vs : List Setting) : List Setting :=
  (vs ++ List.replicate (n + 1 - vs.length) unset).set n v

/-- A value laid over what stands under a path. What stands in the way is replaced by a table or by
a list. An item is replaced as a whole, and an index before the start of a list changes nothing. -/
def place (value : Setting) : List SettingStep → Option Setting → Setting
  | [], base => value.onto base
  | .name k :: path, base =>
    let es := (base.map entries).getD []
    table (Table.put (lower k) (place value path (Table.lookup (lower k) es)) es)
  | .item i :: path, base =>
    let vs := (base.map items).getD []
    match position? vs.length i with
    | none => list vs
    | some n => list (putItem n (if path = [] then value else place value path vs[n]?) vs)

/-- A value laid over what stands under a key. A key that is no path is a name as it stands. -/
def set (root : Setting) (key : String) (value : Setting) : Setting :=
  place value ((SettingStep.ofKey? key).getD [.name key]) (some root)

/-- A layer laid over the ones before it. -/
def lay (root layer : Setting) : Setting :=
  layer.entries.foldl (fun root e => root.set e.1 e.2) root

/-- All layers laid over each other, the strongest last. A key may have become a path only in lower
case, so the whole is laid once more. -/
def merge (layers : List Setting) : Setting :=
  lay (table []) (layers.foldl lay (table []))

end Setting

end JobBroker
