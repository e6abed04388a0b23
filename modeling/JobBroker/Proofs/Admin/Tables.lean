import JobBroker.Admin.Reply
import Mathlib.Data.List.Forall2

/-!
# Listings as they are read

An operator's program splits a listing at line feeds and a line of it at tabs. Whether it gets back
what was listed depends on the texts in the listing alone.

* `splitOn_listing`, `splitOn_columns` : what splitting a listing and a line of it gives.
* `isTable_listing_iff` : the lines are rows of a table just when no name breaks one.
* `isRoll_listing_iff` : the lines are the items just when no item breaks one.
-/

namespace JobBroker

/-- The text does not break a line, nor a column. -/
structure IsPlain (s : String) : Prop where
  lineFeed : '\n' ∉ s.toList
  tab : '\t' ∉ s.toList

theorem isPlain_iff {s : String} : IsPlain s ↔ '\n' ∉ s.toList ∧ '\t' ∉ s.toList :=
  ⟨fun h => ⟨h.lineFeed, h.tab⟩, fun h => ⟨h.1, h.2⟩⟩

instance (s : String) : Decidable (IsPlain s) := decidable_of_iff _ isPlain_iff.symm

/-- Split at line feeds, the text is some lines, a line with a full stop, and nothing behind it. -/
def IsListing (lines : List (List Char)) (text : String) : Prop :=
  text.toList.splitOn '\n' = lines ++ [['.'], []]

/-- The text lists a row for each name, of so many columns, and the name is the first of them. -/
def IsTable (width : Nat) (names : List String) (text : String) : Prop :=
  ∃ rows, IsListing rows text ∧ List.Forall₂ (fun name row =>
    (row.splitOn '\t').length = width ∧ (row.splitOn '\t').head? = some name.toList) names rows

/-- The text lists the items, one in each line. -/
def IsRoll (items : List String) (text : String) : Prop :=
  IsListing (items.map String.toList) text

/-! ### Splitting -/

theorem length_splitOn (c : Char) (cs : List Char) : (cs.splitOn c).length = cs.count c + 1 := by
  induction cs with
  | nil => rfl
  | cons d cs ih =>
    rw [List.splitOn_cons_eq_if_modifyHead, List.count_cons]
    split
    · rw [List.length_cons, ih]
    · rw [List.length_modifyHead, ih, Nat.add_zero]

theorem length_splitOn_eq_one_iff {c : Char} {cs : List Char} :
    (cs.splitOn c).length = 1 ↔ c ∉ cs := by
  rw [length_splitOn, Nat.add_eq_right, List.count_eq_zero]

theorem not_mem_of_mem_splitOn {c : Char} {cs piece : List Char} (h : piece ∈ cs.splitOn c) :
    c ∉ piece := by
  induction cs generalizing piece with
  | nil =>
    obtain rfl := List.mem_singleton.mp h
    exact List.not_mem_nil
  | cons d cs ih =>
    rw [List.splitOn_cons_eq_if_modifyHead] at h
    split at h
    · rcases List.mem_cons.mp h with rfl | h
      · exact List.not_mem_nil
      · exact ih h
    · next hd =>
      cases hs : cs.splitOn c with
      | nil => exact absurd hs (List.splitOn_ne_nil c cs)
      | cons first rest =>
        rw [hs, List.modifyHead_cons] at h
        rcases List.mem_cons.mp h with rfl | h
        · intro hc
          rcases List.mem_cons.mp hc with rfl | hc
          · exact hd (beq_self_eq_true c)
          · exact ih (hs ▸ List.mem_cons_self) hc
        · exact ih (hs ▸ List.mem_cons_of_mem _ h)

theorem head?_splitOn_eq_some_iff {c : Char} {cs : List Char} :
    (cs.splitOn c).head? = some cs ↔ c ∉ cs := by
  constructor
  · exact fun h => not_mem_of_mem_splitOn (List.mem_of_mem_head? h)
  · intro h
    rw [List.splitOn_eq_singleton h, List.head?_cons]

theorem flatMap_splitOn_of_not_mem {c : Char} {ls : List (List Char)} (h : ∀ l ∈ ls, c ∉ l) :
    ls.flatMap (·.splitOn c) = ls := by
  induction ls with
  | nil => rfl
  | cons l ls ih =>
    rw [List.flatMap_cons, List.splitOn_eq_singleton (h l List.mem_cons_self),
      ih fun l hl => h l (List.mem_cons_of_mem _ hl), List.singleton_append]

theorem length_flatMap_splitOn (c : Char) (ls : List (List Char)) :
    (ls.flatMap (·.splitOn c)).length = ls.flatten.count c + ls.length := by
  induction ls with
  | nil => rfl
  | cons l ls ih =>
    rw [List.flatMap_cons, List.length_append, ih, length_splitOn, List.flatten_cons,
      List.count_append, List.length_cons]
    omega

/-- When there are as many pieces as lists that were split, none was split. -/
theorem not_mem_of_length_flatMap_splitOn {c : Char} {ls : List (List Char)}
    (h : (ls.flatMap (·.splitOn c)).length = ls.length) : ∀ l ∈ ls, c ∉ l := by
  rw [length_flatMap_splitOn] at h
  have hnone : c ∉ ls.flatten := List.count_eq_zero.mp (by omega)
  exact fun l hl hc => hnone (List.mem_flatten_of_mem hl hc)

namespace AdminReply

open Text

theorem splitOn_listing (lines : List String) : (listing lines).text.toList.splitOn '\n' =
    (lines.map String.toList).flatMap (·.splitOn '\n') ++ [['.'], []] := by
  have htext : (listing lines).text.toList =
      (lines.map String.toList).flatMap (· ++ ['\n']) ++ ['.', '\n'] := by
    simp [listing, ofText, String.toList_join, List.flatMap_map]
  rw [htext]
  clear htext
  induction lines with
  | nil => decide
  | cons l ls ih =>
    rw [List.map_cons, List.flatMap_cons, List.flatMap_cons, List.append_assoc, List.append_assoc,
      List.singleton_append, List.splitOn_append_cons_self, List.append_assoc, ← ih]

theorem isListing_iff {lines : List String} {rows : List (List Char)} :
    IsListing rows (listing lines).text ↔
      rows = (lines.map String.toList).flatMap (·.splitOn '\n') := by
  rw [IsListing, splitOn_listing, List.append_left_inj, eq_comm]

/-- A listing is read back as its items just when none of them breaks a line. -/
theorem isRoll_listing_iff {items : List String} :
    IsRoll items (listing items).text ↔ ∀ item ∈ items, '\n' ∉ item.toList := by
  rw [IsRoll, isListing_iff]
  constructor
  · intro h item hitem
    have hlength := congrArg List.length h.symm
    exact not_mem_of_length_flatMap_splitOn hlength _ (List.mem_map_of_mem hitem)
  · intro h
    refine (flatMap_splitOn_of_not_mem fun l hl => ?_).symm
    obtain ⟨item, hitem, rfl⟩ := List.mem_map.mp hl
    exact h item hitem

/-! ### Columns -/

theorem toList_columns (f : String) (numbers : List Nat) :
    (columns f numbers).toList = f.toList ++ numbers.flatMap fun n => '\t' :: digits n := by
  rw [columns, String.toList_intercalate]
  induction numbers generalizing f with
  | nil => simp
  | cons n ns ih =>
    have hrest := ih (decimal n)
    simp only [List.map_cons] at hrest ⊢
    rw [List.intercalate_cons_cons, hrest]
    simp [decimal]

theorem splitOn_columns (f : String) (numbers : List Nat) :
    (columns f numbers).toList.splitOn '\t' = f.toList.splitOn '\t' ++ numbers.map digits := by
  rw [toList_columns]
  generalize f.toList = cs
  induction numbers generalizing cs with
  | nil => simp
  | cons n ns ih =>
    have hdigits : '\t' ∉ digits n := not_mem_digits rfl n
    rw [List.flatMap_cons, List.cons_append, List.splitOn_append_cons_self, ih,
      List.splitOn_eq_singleton hdigits]
    rfl

theorem lineFeed_mem_columns {f : String} {numbers : List Nat} :
    '\n' ∈ (columns f numbers).toList ↔ '\n' ∈ f.toList := by
  have hdigits : ∀ n, '\n' ∉ digits n := not_mem_digits rfl
  simp [toList_columns, hdigits]

/-- A listing in columns is read back as a table just when no name breaks a line or a column. -/
theorem isTable_listing_iff {α : Type} {as : List α} {name : α → String}
    (numbers : α → List Nat) {width : Nat} (hwidth : ∀ a, (numbers a).length + 1 = width) :
    IsTable width (as.map name) (listing (as.map fun a => columns (name a) (numbers a))).text ↔
      ∀ a ∈ as, IsPlain (name a) := by
  let line (a : α) : List Char := (columns (name a) (numbers a)).toList
  have hrow : ∀ a, (((line a).splitOn '\t').length = width ∧
      ((line a).splitOn '\t').head? = some (name a).toList) ↔ '\t' ∉ (name a).toList := by
    intro a
    rw [show line a = _ from rfl, splitOn_columns, List.length_append, List.length_map, ← hwidth a,
      Nat.add_comm, Nat.add_left_cancel_iff, length_splitOn_eq_one_iff,
      List.head?_append_of_ne_nil _ (List.splitOn_ne_nil _ _), head?_splitOn_eq_some_iff, and_self]
  have hmap : (as.map fun a => columns (name a) (numbers a)).map String.toList = as.map line :=
    List.map_map ..
  constructor
  · rintro ⟨rows, hrows, htable⟩ a ha
    rw [isListing_iff, hmap] at hrows
    have hlength : rows.length = (as.map line).length := by
      rw [← htable.length_eq, List.length_map, List.length_map]
    have hfree := not_mem_of_length_flatMap_splitOn (hrows ▸ hlength)
    rw [flatMap_splitOn_of_not_mem hfree] at hrows
    subst hrows
    have hall := List.forall₂_map_left_iff.mp (List.forall₂_map_right_iff.mp htable)
    exact ⟨fun h => hfree _ (List.mem_map_of_mem ha) (lineFeed_mem_columns.mpr h),
      (hrow a).mp (List.forall₂_same.mp hall a ha)⟩
  · intro h
    have hfree : ∀ l ∈ as.map line, '\n' ∉ l := by
      intro l hl
      obtain ⟨a, ha, rfl⟩ := List.mem_map.mp hl
      exact fun hmem => (h a ha).lineFeed (lineFeed_mem_columns.mp hmem)
    refine ⟨as.map line, ?_, ?_⟩
    · rw [isListing_iff, hmap, flatMap_splitOn_of_not_mem hfree]
    · refine List.forall₂_map_left_iff.mpr (List.forall₂_map_right_iff.mpr ?_)
      exact List.forall₂_same.mpr fun a ha => (hrow a).mpr (h a ha).tab

end AdminReply

end JobBroker
