/-!
# Tables

A finite map as a list of entries with distinct keys. New keys come last, so the entries stand in
the order in which their keys came in.

* `Table.get?_insert`, `Table.get?_erase`, `Table.get?_modify`, `Table.get?_filterMap` : what each
  operation does to the map.
-/

namespace JobBroker

structure Table (κ α : Type) where
  entries : List (κ × α)
  nodup : (entries.map Prod.fst).Nodup
deriving Repr

namespace Table

variable {κ α β : Type}

def empty : Table κ α := ⟨[], List.nodup_nil⟩

instance : Inhabited (Table κ α) := ⟨empty⟩

def keys (t : Table κ α) : List κ := t.entries.map Prod.fst

def values (t : Table κ α) : List α := t.entries.map Prod.snd

def size (t : Table κ α) : Nat := t.entries.length

def isEmpty (t : Table κ α) : Bool := t.entries.isEmpty

/-- Applies `f` to every value and keeps the entries for which it gives one. -/
def filterMap (f : α → Option β) (t : Table κ α) : Table κ β where
  entries := t.entries.filterMap fun e => (f e.2).map (e.1, ·)
  nodup := by
    have h : ((t.entries.filterMap fun e => (f e.2).map (e.1, ·)).map Prod.fst).Sublist
        (t.entries.map Prod.fst) := by
      generalize t.entries = es
      induction es with
      | nil => simp
      | cons e es ih =>
        rw [List.filterMap_cons]
        cases f e.2 with
        | none => exact ih.cons _
        | some b => exact ih.cons_cons _
    exact h.nodup t.nodup

variable [DecidableEq κ]

/-- The value of the first entry under `k`. -/
def lookup (k : κ) : List (κ × α) → Option α
  | [] => none
  | e :: es => if e.1 = k then some e.2 else lookup k es

/-- The entries with `a` under `k`, which is put last when it is new. -/
def put (k : κ) (a : α) : List (κ × α) → List (κ × α)
  | [] => [(k, a)]
  | e :: es => if e.1 = k then (k, a) :: es else e :: put k a es

def get? (t : Table κ α) (k : κ) : Option α := lookup k t.entries

def contains (t : Table κ α) (k : κ) : Bool := (t.get? k).isSome

theorem keys_put (k : κ) (a : α) (es : List (κ × α)) :
    (put k a es).map Prod.fst =
      if k ∈ es.map Prod.fst then es.map Prod.fst else es.map Prod.fst ++ [k] := by
  induction es with
  | nil => simp [put]
  | cons e es ih =>
    by_cases h : e.1 = k
    · simp [put, h]
    · simp only [put, h, if_false, List.map_cons, ih, List.mem_cons, Ne.symm h, false_or]
      split <;> simp

def insert (t : Table κ α) (k : κ) (a : α) : Table κ α where
  entries := put k a t.entries
  nodup := by
    rw [keys_put]
    split
    · exact t.nodup
    · next h =>
      refine List.nodup_append.mpr ⟨t.nodup, by simp, ?_⟩
      rintro x hx y hy rfl
      exact h (List.mem_singleton.mp hy ▸ hx)

def erase (t : Table κ α) (k : κ) : Table κ α where
  entries := t.entries.filter (·.1 ≠ k)
  nodup := (List.filter_sublist.map _).nodup t.nodup

/-- Applies `f` to the value under `k`, if there is one. -/
def modify (t : Table κ α) (k : κ) (f : α → α) : Table κ α where
  entries := t.entries.map fun e => if e.1 = k then (e.1, f e.2) else e
  nodup := by
    have h : ∀ e : κ × α, (if e.1 = k then (e.1, f e.2) else e).1 = e.1 := by
      intro e; split <;> rfl
    simpa [List.map_map, Function.comp_def, h] using t.nodup

/-! ### The map that a table holds -/

@[simp] theorem get?_empty (k : κ) : (empty : Table κ α).get? k = none := rfl

theorem lookup_eq_none {k : κ} {es : List (κ × α)} (h : k ∉ es.map Prod.fst) :
    lookup k es = none := by
  induction es with
  | nil => rfl
  | cons e es ih =>
    simp only [List.map_cons, List.mem_cons, not_or] at h
    simp [lookup, Ne.symm h.1, ih h.2]

theorem lookup_put (k k' : κ) (a : α) (es : List (κ × α)) :
    lookup k' (put k a es) = if k = k' then some a else lookup k' es := by
  induction es with
  | nil => rfl
  | cons e es ih => by_cases h : e.1 = k <;> grind [put, lookup]

@[simp] theorem get?_insert (t : Table κ α) (k k' : κ) (a : α) :
    (t.insert k a).get? k' = if k = k' then some a else t.get? k' :=
  lookup_put k k' a t.entries

@[simp] theorem get?_erase (t : Table κ α) (k k' : κ) :
    (t.erase k).get? k' = if k = k' then none else t.get? k' := by
  simp only [get?, erase]
  induction t.entries with
  | nil => simp [lookup]
  | cons e es ih => by_cases h : e.1 = k <;> grind [lookup]

@[simp] theorem get?_modify (t : Table κ α) (k k' : κ) (f : α → α) :
    (t.modify k f).get? k' = if k = k' then (t.get? k').map f else t.get? k' := by
  simp only [get?, modify]
  induction t.entries with
  | nil => simp [lookup]
  | cons e es ih => by_cases h : e.1 = k <;> grind [lookup]

@[simp] theorem get?_filterMap (t : Table κ α) (f : α → Option β) (k : κ) :
    (t.filterMap f).get? k = (t.get? k).bind f := by
  obtain ⟨es, nd⟩ := t
  simp only [get?, filterMap]
  induction es with
  | nil => rfl
  | cons e es ih =>
    have nd := List.nodup_cons.mp nd
    rw [List.filterMap_cons]
    by_cases h : e.1 = k
    · have hk : k ∉ (es.filterMap fun e => (f e.2).map (e.1, ·)).map Prod.fst := by
        intro hm
        obtain ⟨⟨_, b⟩, hb, rfl⟩ := List.mem_map.mp hm
        obtain ⟨e', he', hf⟩ := List.mem_filterMap.mp hb
        obtain ⟨c, -, hc⟩ := Option.map_eq_some_iff.mp hf
        exact nd.1 (List.mem_map.mpr ⟨e', he', (congrArg Prod.fst hc).trans h.symm⟩)
      cases hf : f e.2 <;> simp [lookup, h, hf, lookup_eq_none hk]
    · cases f e.2 <;> simp [lookup, h, ih nd.2]

@[simp] theorem size_modify (t : Table κ α) (k : κ) (f : α → α) : (t.modify k f).size = t.size :=
  List.length_map ..

theorem entries_insert_of_get?_eq_none {t : Table κ α} {k : κ} (h : t.get? k = none) (a : α) :
    (t.insert k a).entries = t.entries ++ [(k, a)] := by
  simp only [get?] at h
  simp only [insert]
  revert h
  induction t.entries with
  | nil => exact fun _ => rfl
  | cons e es ih => by_cases he : e.1 = k <;> grind [put, lookup]

/-- A key that is new makes a table longer by one. -/
theorem size_insert_of_get?_eq_none {t : Table κ α} {k : κ} (h : t.get? k = none) (a : α) :
    (t.insert k a).size = t.size + 1 := by
  rw [size, entries_insert_of_get?_eq_none h, List.length_append]
  rfl

theorem size_foldl_modify (f : α → α) (ks : List κ) (t : Table κ α) :
    (ks.foldl (fun t k => t.modify k f) t).size = t.size := by
  induction ks generalizing t with
  | nil => rfl
  | cons k ks ih => exact (ih _).trans (size_modify t k f)

/-- Modifying some keys one after the other, each at most once. -/
theorem get?_foldl_modify (f : α → α) {ks : List κ} (hks : ks.Nodup) (t : Table κ α) (k : κ) :
    (ks.foldl (fun t k => t.modify k f) t).get? k =
      if k ∈ ks then (t.get? k).map f else t.get? k := by
  induction ks generalizing t with
  | nil => simp
  | cons k' ks ih =>
    obtain ⟨hk', hks⟩ := List.nodup_cons.mp hks
    rw [List.foldl_cons, ih hks, get?_modify]
    by_cases h : k' = k
    · subst h
      simp [hk']
    · simp [h, Ne.symm h]

theorem get?_eq_some_iff {t : Table κ α} {k : κ} {a : α} :
    t.get? k = some a ↔ (k, a) ∈ t.entries := by
  obtain ⟨es, nd⟩ := t
  simp only [get?]
  induction es with
  | nil => simp [lookup]
  | cons e es ih =>
    have nd := List.nodup_cons.mp nd
    have := ih nd.2
    by_cases h : e.1 = k
    · have hk : ∀ b, (k, b) ∉ es := fun b hb =>
        nd.1 (List.mem_map.mpr ⟨_, hb, h.symm⟩)
      simp [lookup, h, hk a, Prod.ext_iff, eq_comm]
    · have hk : (k, a) ≠ e := fun he => h (by rw [← he])
      simpa [lookup, h, hk] using this

theorem modify_modify (t : Table κ α) (k : κ) (f g : α → α) :
    (t.modify k f).modify k g = t.modify k (g ∘ f) := by
  simp only [modify, List.map_map, mk.injEq]
  refine List.map_congr_left fun entry _ => ?_
  by_cases h : entry.1 = k <;> simp [h]

theorem modify_eq_self {t : Table κ α} {k : κ} {f : α → α}
    (h : ∀ a, t.get? k = some a → f a = a) : t.modify k f = t := by
  obtain ⟨entries, nodup⟩ := t
  simp only [modify, mk.injEq]
  refine (List.map_congr_left fun entry hentry => ?_).trans (List.map_id _)
  split
  · next hk => rw [h entry.2 (get?_eq_some_iff.mpr (hk ▸ hentry))]; rfl
  · rfl

theorem mem_keys {t : Table κ α} {k : κ} : k ∈ t.keys ↔ ∃ a, t.get? k = some a := by
  simp [keys, get?_eq_some_iff]

end Table

end JobBroker
