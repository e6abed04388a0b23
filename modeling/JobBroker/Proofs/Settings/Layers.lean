import JobBroker.Proofs.Text.Case
import JobBroker.Settings.Layer
import Mathlib.Data.List.Nodup

/-!
# What layers give

A setting is looked up under a path of names. Plain layers are tables of tables, with the setting in
question at the end of the path: laid over each other, they give what the last of them gives that
has the setting at all.

* `Setting.at?_onto` : a plain value laid over another.
* `Setting.at?_place` : a value set under a path.
* `Setting.Stands.lay` : a plain layer laid over the ones before it.
* `Setting.Stands.again` : a tree of names in lower case does not change when it is laid once more.
-/

namespace JobBroker

open Text

/-! ### Names and paths -/

namespace SettingStep

/-- The steps of any key: one that is no path is a name as it stands. -/
def ofKey (key : String) : List SettingStep := (ofKey? key).getD [.name key]

/-- A key that starts no further step is a name. -/
def IsSimple (key : String) : Prop := '.' ∉ key.toList ∧ '[' ∉ key.toList

instance : DecidablePred IsSimple := fun key =>
  inferInstanceAs (Decidable ('.' ∉ key.toList ∧ '[' ∉ key.toList))

theorem IsSimple.lower {key : String} (h : IsSimple key) : IsSimple (lower key) :=
  ⟨mt (mem_of_mem_lower (by decide)) h.1, mt (mem_of_mem_lower (by decide)) h.2⟩

theorem further?_of_ne {c : Char} (hpoint : c ≠ '.') (hbracket : c ≠ '[') (cs : List Char) :
    further? (c :: cs) = none := by
  rw [further?]
  · simp
  · exact fun _ h => hpoint (List.cons.inj h).1
  · exact fun _ h => hbracket (List.cons.inj h).1

theorem ofKey_of_isSimple {key : String} (h : IsSimple key) : ofKey key = [.name key] := by
  rw [ofKey, ofKey?]
  have happend := List.takeWhile_append_dropWhile (p := isNameChar) (l := key.toList)
  cases hdrop : key.toList.dropWhile isNameChar with
  | nil =>
    rw [hdrop, List.append_nil] at happend
    rw [happend]
    split
    · rfl
    · simp [further?]
  | cons c cs =>
    have hc : c ∈ key.toList := happend ▸ List.mem_append_right _ (hdrop ▸ List.mem_cons_self)
    rw [further?_of_ne (fun h' => h.1 (h' ▸ hc)) (fun h' => h.2 (h' ▸ hc))]
    split <;> rfl

end SettingStep

namespace Setting

/-! ### Looking up -/

/-- What stands under a path of names, as they are written. -/
def at? : List String → Setting → Option Setting
  | [], v => some v
  | k :: path, v => (Table.lookup k v.entries).bind (at? path)

/-- What a layer gives under a path of names in lower case, whichever case it uses itself. -/
def gives? : List String → Setting → Option Setting
  | [], v => some v
  | k :: path, v => (v.entries.find? (lower ·.1 = k)).bind fun e => gives? path e.2

def isTable : Setting → Bool
  | table _ => true
  | _ => false

@[simp] theorem entries_table (es : List (String × Setting)) : (table es).entries = es := rfl

theorem isTable_iff {v : Setting} : v.isTable ↔ ∃ es, v = table es := by
  cases v <;> simp [isTable]

/-- The way to a setting leads through tables in which no name is given twice, in whichever case,
and does not end at a table. -/
def IsPlainAt : List String → Setting → Prop
  | [], v => v.isTable = false
  | k :: path, v => v.isTable ∧ (v.entries.map (lower ·.1)).Nodup ∧
      ∀ e ∈ v.entries, lower e.1 = k → IsPlainAt path e.2

theorem isPlainAt_cons {k : String} {path : List String} {v : Setting} :
    IsPlainAt (k :: path) v ↔ v.isTable ∧ (v.entries.map (lower ·.1)).Nodup ∧
      ∀ e ∈ v.entries, lower e.1 = k → IsPlainAt path e.2 := by
  rw [IsPlainAt]

instance decidableIsPlainAt : ∀ path v, Decidable (IsPlainAt path v)
  | [], v => inferInstanceAs (Decidable (v.isTable = false))
  | _ :: path, _ =>
    have := decidableIsPlainAt path
    decidable_of_iff _ isPlainAt_cons.symm

/-- The way to a setting is plain, and the names of the tables are in lower case. -/
def IsSettledAt : List String → Setting → Prop
  | [], v => v.isTable = false
  | k :: path, v => v.isTable ∧ (v.entries.map Prod.fst).Nodup ∧
      (∀ e ∈ v.entries, lower e.1 = e.1) ∧ ∀ w ∈ Table.lookup k v.entries, IsSettledAt path w

theorem isSettledAt_empty {path : List String} (h : path ≠ []) : IsSettledAt path (table []) := by
  cases path with
  | nil => contradiction
  | cons k path => exact ⟨rfl, List.nodup_nil, by simp [entries], fun w hw => nomatch hw⟩

/-! ### Entries -/

/-- A condition on names that the names of new entries meet. -/
theorem forall_mem_put {P : String → Prop} {k : String} {v : Setting}
    {es : List (String × Setting)} (hk : P k) (h : ∀ e ∈ es, P e.1) :
    ∀ e ∈ Table.put k v es, P e.1 := by
  intro e he
  have hmem := List.mem_map_of_mem (f := Prod.fst) he
  rw [Table.keys_put] at hmem
  have hmem' : e.1 ∈ es.map Prod.fst ∨ e.1 = k := by
    split at hmem <;> simp_all
  rcases hmem' with hmem' | heq
  · obtain ⟨e', he', heq⟩ := List.mem_map.mp hmem'
    exact heq ▸ h e' he'
  · exact heq ▸ hk

theorem nodup_put {k : String} (v : Setting) {es : List (String × Setting)}
    (h : (es.map Prod.fst).Nodup) : ((Table.put k v es).map Prod.fst).Nodup :=
  (Table.insert ⟨es, h⟩ k v).nodup

theorem forall_mem_entriesOnto {P : String → Prop} {base es : List (String × Setting)}
    (hbase : ∀ e ∈ base, P e.1) (h : ∀ e ∈ es, P (lower e.1)) :
    ∀ e ∈ entriesOnto base es, P e.1 := by
  induction es generalizing base with
  | nil => exact hbase
  | cons e es ih =>
    rw [entriesOnto]
    exact ih (forall_mem_put (h e List.mem_cons_self) hbase) fun e' he' =>
      h e' (List.mem_cons_of_mem _ he')

theorem nodup_entriesOnto {base : List (String × Setting)} (h : (base.map Prod.fst).Nodup)
    (es : List (String × Setting)) : ((entriesOnto base es).map Prod.fst).Nodup := by
  induction es generalizing base with
  | nil => exact h
  | cons e es ih =>
    rw [entriesOnto]
    exact ih (nodup_put _ h)

theorem lookup_entriesOnto (k : String) (base : List (String × Setting))
    {es : List (String × Setting)} (h : (es.map (lower ·.1)).Nodup) :
    Table.lookup k (entriesOnto base es) =
      ((es.find? (lower ·.1 = k)).map fun e => onto (Table.lookup k base) e.2).or
        (Table.lookup k base) := by
  induction es generalizing base with
  | nil => rfl
  | cons e es ih =>
    obtain ⟨hnew, h⟩ := List.nodup_cons.mp h
    rw [entriesOnto, ih _ h, Table.lookup_put]
    by_cases hk : lower e.1 = k
    · have hnone : es.find? (lower ·.1 = k) = none :=
        List.find?_eq_none.mpr fun e' he' hk' => hnew (List.mem_map.mpr
          ⟨e', he', (of_decide_eq_true hk').trans hk.symm⟩)
      simp [hk, hnone]
    · simp [hk]

/-! ### Laying over -/

theorem onto_of_isTable_eq_false {v : Setting} (h : v.isTable = false) (base : Option Setting) :
    v.onto base = v := by
  cases v with
  | table es => exact nomatch h
  | _ => rfl

theorem entries_onto (base : Option Setting) (es : List (String × Setting)) :
    ((table es).onto base).entries = entriesOnto ((base.map entries).getD []) es := by
  cases es with
  | nil => cases base <;> rfl
  | cons e es => rfl

/-- What is said of a tree on the way to a setting is said of its entries, also where there is no
tree. -/
theorem settled_entries {k : String} {path : List String} {base : Option Setting}
    (h : ∀ b ∈ base, IsSettledAt (k :: path) b) {bs : List (String × Setting)}
    (hbs : (base.map entries).getD [] = bs) :
    (bs.map Prod.fst).Nodup ∧ (∀ e ∈ bs, lower e.1 = e.1) ∧
      (∀ w ∈ Table.lookup k bs, IsSettledAt path w) ∧
      base.bind (at? (k :: path)) = (Table.lookup k bs).bind (at? path) ∧
      ∀ es, (table es).onto base = table (entriesOnto bs es) := by
  subst hbs
  cases base with
  | none =>
    refine ⟨List.nodup_nil, by simp, by simp [Table.lookup], rfl, fun es => ?_⟩
    cases es <;> rfl
  | some b =>
    obtain ⟨hb, hnodup, hlower, hw⟩ := h b rfl
    obtain ⟨bs, rfl⟩ := isTable_iff.mp hb
    refine ⟨hnodup, hlower, hw, rfl, fun es => ?_⟩
    cases es <;> rfl

/-- A plain value laid over a tree: what it does not give is as it was. -/
theorem at?_onto {path : List String} {v : Setting} {base : Option Setting}
    (hbase : ∀ b ∈ base, IsSettledAt path b) (hv : IsPlainAt path v) :
    IsSettledAt path (v.onto base) ∧
      at? path (v.onto base) = (gives? path v).or (base.bind (at? path)) := by
  induction path generalizing v base with
  | nil =>
    rw [onto_of_isTable_eq_false hv]
    exact ⟨hv, rfl⟩
  | cons k path ih =>
    obtain ⟨htable, hes, hv⟩ := hv
    obtain ⟨es, rfl⟩ := isTable_iff.mp htable
    rw [entries_table] at hes hv
    obtain ⟨hnodup, hlower, hw, hat, honto⟩ := settled_entries hbase rfl
    rw [honto, hat]
    have hlookup := lookup_entriesOnto k ((base.map entries).getD []) hes
    -- one step down, the entry of the layer is laid over what stood under its name
    have hchild : ∀ e, es.find? (lower ·.1 = k) = some e → _ := fun e he =>
      ih hw (hv e (List.mem_of_find?_eq_some he) (by simpa using List.find?_some he))
    constructor
    · refine ⟨rfl, nodup_entriesOnto hnodup es,
        forall_mem_entriesOnto (P := fun k => lower k = k) hlower fun e _ => lower_lower e.1,
        fun w hw' => ?_⟩
      rw [entries_table, hlookup] at hw'
      cases hfind : es.find? (lower ·.1 = k) with
      | none => exact hw w (by simpa [hfind] using hw')
      | some e =>
        obtain rfl : onto _ e.2 = w := by simpa [hfind] using hw'
        exact (hchild e hfind).1
    · show (Table.lookup k (entriesOnto _ es)).bind (at? path) =
        ((es.find? (lower ·.1 = k)).bind fun e => gives? path e.2).or _
      rw [hlookup]
      cases hfind : es.find? (lower ·.1 = k) with
      | none => rfl
      | some e => exact (hchild e hfind).2

/-- A value without entries that is set under a path. Paths that part from it are left alone. -/
theorem at?_place {v : Setting} (hv : v.isTable = false) {p q : List String}
    {base : Option Setting} (hbase : ∀ b ∈ base, IsSettledAt q b)
    (hlower : ∀ n ∈ p, lower n = n) (hpq : p <+: q ∨ q <+: p → p = q) :
    IsSettledAt q (place v (p.map .name) base) ∧
      at? q (place v (p.map .name) base) = if p = q then some v else base.bind (at? q) := by
  induction p generalizing q base with
  | nil =>
    obtain rfl : [] = q := hpq (.inl List.nil_prefix)
    rw [List.map_nil, place, onto_of_isTable_eq_false hv]
    exact ⟨hv, rfl⟩
  | cons n p ih =>
    cases q with
    | nil => exact nomatch hpq (.inr List.nil_prefix)
    | cons k q =>
      obtain ⟨hn, hlower⟩ := List.forall_mem_cons.mp hlower
      obtain ⟨hnodup, hlower', hw, hat, -⟩ := settled_entries hbase rfl
      rw [List.map_cons, place, hn, hat]
      have hnames := fun w => forall_mem_put (P := fun k => lower k = k) (v := w) hn hlower'
      by_cases hk : n = k
      · subst hk
        obtain ⟨hsettled, hat'⟩ := ih hw hlower fun h =>
          (List.cons.inj (hpq (h.imp (List.cons_prefix_cons.mpr ⟨rfl, ·⟩)
            (List.cons_prefix_cons.mpr ⟨rfl, ·⟩)))).2
        refine ⟨⟨rfl, nodup_put _ hnodup, hnames _, fun w hw' => ?_⟩, ?_⟩
        · rw [entries_table, Table.lookup_put, if_pos rfl] at hw'
          exact Option.some.inj hw' ▸ hsettled
        · show (Table.lookup n (Table.put n _ _)).bind (at? q) = _
          rw [Table.lookup_put, if_pos rfl]
          simpa using hat'
      · refine ⟨⟨rfl, nodup_put _ hnodup, hnames _, fun w hw' => ?_⟩, ?_⟩
        · rw [entries_table, Table.lookup_put, if_neg hk] at hw'
          exact hw w hw'
        · show (Table.lookup k (Table.put n _ _)).bind (at? q) = _
          rw [Table.lookup_put, if_neg hk, if_neg fun h => hk (List.cons.inj h).1]

/-! ### Layers one after the other -/

theorem lookup_of_lower {k : String} {es : List (String × Setting)}
    (h : ∀ e ∈ es, lower e.1 = e.1) :
    Table.lookup k es = (es.find? (lower ·.1 = k)).map Prod.snd := by
  induction es with
  | nil => rfl
  | cons e es ih =>
    obtain ⟨he, h⟩ := List.forall_mem_cons.mp h
    by_cases hk : e.1 = k
    · subst hk
      simp [Table.lookup, he]
    · simp [Table.lookup, he, hk, ih h]

theorem IsSettledAt.isPlainAt {path : List String} {v : Setting} (h : IsSettledAt path v) :
    IsPlainAt path v ∧ gives? path v = at? path v := by
  induction path generalizing v with
  | nil => exact ⟨h, rfl⟩
  | cons k path ih =>
    obtain ⟨htable, hnodup, hlower, hw⟩ := h
    obtain ⟨es, rfl⟩ := isTable_iff.mp htable
    rw [entries_table] at hnodup hlower hw
    have hlookup := lookup_of_lower (k := k) hlower
    refine ⟨⟨rfl, (List.map_congr_left hlower) ▸ hnodup, fun e he hk => ?_⟩, ?_⟩
    · obtain rfl : e.1 = k := (hlower e he).symm.trans hk
      exact (ih (hw e.2 ((Table.get?_eq_some_iff (t := ⟨es, hnodup⟩)).mpr he))).1
    · show (es.find? (lower ·.1 = k)).bind (fun e => gives? path e.2) =
        (Table.lookup k es).bind (at? path)
      rw [hlookup]
      cases hfind : es.find? (lower ·.1 = k) with
      | none => rfl
      | some e => exact (ih (hw e.2 (by rw [hlookup, hfind]; rfl))).2

/-- A tree of settled names, none of which is a path, in which a setting can be looked up. -/
structure Stands (path : List String) (root : Setting) : Prop where
  settled : IsSettledAt path root
  simple : ∀ e ∈ root.entries, SettingStep.IsSimple e.1

theorem set_of_isSimple {key : String} (h : SettingStep.IsSimple key) (root value : Setting) :
    root.set key value = (table [(key, value)]).onto (some root) := by
  show place value (SettingStep.ofKey key) (some root) = _
  rw [SettingStep.ofKey_of_isSimple h]
  rfl

/-- A layer without paths is laid over the tree as a whole. -/
theorem lay_table {es : List (String × Setting)} (h : ∀ e ∈ es, SettingStep.IsSimple e.1)
    (root : Setting) : lay root (table es) = (table es).onto (some root) := by
  induction es generalizing root with
  | nil => rfl
  | cons e es ih =>
    obtain ⟨he, h⟩ := List.forall_mem_cons.mp h
    have hstep : lay root (table (e :: es)) = lay (root.set e.1 e.2) (table es) := rfl
    rw [hstep, ih h, set_of_isSimple he]
    cases es <;> rfl

theorem at?_empty {path : List String} (h : path ≠ []) : at? path (table []) = none := by
  cases path with
  | nil => contradiction
  | cons k path => rfl

namespace Stands

variable {path : List String} {root : Setting}

theorem empty (h : path ≠ []) : Stands path (table []) :=
  ⟨isSettledAt_empty h, by simp [entries]⟩

theorem forall_mem_some (h : Stands path root) : ∀ b ∈ some root, IsSettledAt path b :=
  fun _ hb => Option.some.inj hb ▸ h.settled

/-- A plain layer that is laid over the tree: what it does not give is as it was. -/
theorem lay (h : Stands path root) (hpath : path ≠ []) {layer : Setting}
    (hsimple : ∀ e ∈ layer.entries, SettingStep.IsSimple e.1) (hplain : IsPlainAt path layer) :
    Stands path (lay root layer) ∧
      at? path (Setting.lay root layer) = (gives? path layer).or (at? path root) := by
  obtain ⟨k, path, rfl⟩ := List.exists_cons_of_ne_nil hpath
  obtain ⟨hsettled, hat⟩ := at?_onto h.forall_mem_some hplain
  obtain ⟨es, rfl⟩ := isTable_iff.mp hplain.1
  have hlay : root.lay (table es) = (table es).onto (some root) := lay_table hsimple root
  rw [hlay]
  refine ⟨⟨hsettled, ?_⟩, hat⟩
  rw [entries_onto]
  exact forall_mem_entriesOnto h.simple fun e he => (hsimple e he).lower

/-- A scalar that is set under names in lower case. -/
theorem set (h : Stands path root) {key : String} {p : List String} (hp : p ≠ [])
    (hkey : SettingStep.ofKey key = p.map .name) (hlower : ∀ n ∈ p, lower n = n)
    (hsimple : ∀ n ∈ p, SettingStep.IsSimple n) (hpath : p <+: path ∨ path <+: p → p = path)
    {v : Setting} (hv : v.isTable = false) :
    Stands path (root.set key v) ∧
      at? path (root.set key v) = if p = path then some v else at? path root := by
  have hset : root.set key v = place v (p.map .name) (some root) :=
    congrArg (place v · (some root)) hkey
  obtain ⟨hsettled, hat⟩ := at?_place hv h.forall_mem_some hlower hpath
  rw [hset]
  refine ⟨⟨hsettled, ?_⟩, hat⟩
  cases p with
  | nil => contradiction
  | cons n p =>
    obtain ⟨hn, -⟩ := List.forall_mem_cons.mp hlower
    rw [List.map_cons, place, hn]
    exact forall_mem_put (hsimple n List.mem_cons_self) h.simple

/-- The second laying finds nothing to change. -/
theorem again (h : Stands path root) (hpath : path ≠ []) :
    IsSettledAt path (Setting.lay (table []) root) ∧
      at? path (Setting.lay (table []) root) = at? path root := by
  obtain ⟨hplain, hgives⟩ := h.settled.isPlainAt
  obtain ⟨hstands, hat⟩ := (empty hpath).lay hpath h.simple hplain
  refine ⟨hstands.settled, ?_⟩
  rw [hat, hgives, at?_empty hpath, Option.or_none]

end Stands

end Setting

end JobBroker
