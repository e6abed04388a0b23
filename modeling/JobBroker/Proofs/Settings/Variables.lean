import JobBroker.Proofs.Settings.Layers
import JobBroker.Settings.Environment
import Mathlib.Data.List.Infix

/-!
# Variables that are settings

A variable `FOREMAN__SECTION__KEY` stands for the setting under the path of these names, and no
other variable does. Laid over a tree, variables give the settings that they name.

* `Environment.ofKey_key?` : from the name of a variable to the path of its setting.
* `Environment.stands_lay` : what the layer of the variables does to a tree.
-/

namespace JobBroker

open Text
open SettingStep (isNameChar further? ofKey)

/-! ### Joined names -/

theorem toList_intercalate_cons (separator n : String) (ns : List String) :
    (separator.intercalate (n :: ns)).toList =
      n.toList ++ ns.flatMap fun m => separator.toList ++ m.toList := by
  induction ns generalizing n with
  | nil => simp
  | cons m ns ih => rw [String.intercalate_cons_cons]; simp [ih]

/-- A name that can stand in a path and in the name of a variable. An underscore stands alone in it,
and also when another one comes behind it. -/
structure IsSettingName (n : String) : Prop where
  chars : n.toList.all isNameChar
  lower_eq : lower n = n
  ne_nil : n.toList ≠ []
  alone : ¬ ['_', '_'] <:+: n.toList ++ ['_']

instance (n : String) : Decidable (IsSettingName n) :=
  decidable_of_iff (n.toList.all isNameChar ∧ lower n = n ∧ n.toList ≠ [] ∧
    ¬ ['_', '_'] <:+: n.toList ++ ['_'])
    ⟨fun h => ⟨h.1, h.2.1, h.2.2.1, h.2.2.2⟩, fun h => ⟨h.1, h.2, h.3, h.4⟩⟩

namespace IsSettingName

variable {n : String}

theorem isNameChar (h : IsSettingName n) : ∀ c ∈ n.toList, isNameChar c :=
  List.all_eq_true.mp h.chars

theorem isSimple (h : IsSettingName n) : SettingStep.IsSimple n :=
  ⟨fun hc => absurd (h.isNameChar _ hc) (by decide),
    fun hc => absurd (h.isNameChar _ hc) (by decide)⟩

end IsSettingName

namespace SettingStep

/-- What comes behind the first name of a path is not taken for a part of the name. -/
theorem spanName (n : String) (hn : IsSettingName n) (ns : List String) :
    (n.toList ++ ns.flatMap fun m => '.' :: m.toList).takeWhile isNameChar = n.toList ∧
      (n.toList ++ ns.flatMap fun m => '.' :: m.toList).dropWhile isNameChar =
        ns.flatMap fun m => '.' :: m.toList := by
  rw [List.takeWhile_append_of_pos hn.isNameChar, List.dropWhile_append_of_pos hn.isNameChar]
  cases ns with
  | nil => simp
  | cons m ns => exact ⟨List.append_right_eq_self.mpr rfl, rfl⟩

theorem further?_flatMap {ns : List String} (hns : ∀ n ∈ ns, IsSettingName n) :
    further? (ns.flatMap fun n => '.' :: n.toList) = some (ns.map .name) := by
  induction ns with
  | nil => simp [further?]
  | cons n ns ih =>
    obtain ⟨hn, hns⟩ := List.forall_mem_cons.mp hns
    obtain ⟨htake, hdrop⟩ := spanName n hn ns
    rw [List.flatMap_cons, List.cons_append, further?, htake, hdrop, ih hns]
    cases hchars : n.toList with
    | nil => exact absurd hchars hn.ne_nil
    | cons c cs => simp [← hchars]

theorem ofKey_intercalate {n : String} {ns : List String} (h : ∀ m ∈ n :: ns, IsSettingName m) :
    ofKey (".".intercalate (n :: ns)) = (n :: ns).map .name := by
  obtain ⟨hn, hns⟩ := List.forall_mem_cons.mp h
  obtain ⟨htake, hdrop⟩ := spanName n hn ns
  have hkey : (".".intercalate (n :: ns)).toList =
      n.toList ++ ns.flatMap fun m => '.' :: m.toList := toList_intercalate_cons "." n ns
  rw [ofKey, ofKey?, hkey, htake, hdrop, further?_flatMap hns]
  cases hchars : n.toList with
  | nil => exact absurd hchars hn.ne_nil
  | cons c cs => simp [← hchars]

end SettingStep

namespace Environment

/-! ### From variables to paths -/

theorem withPoints_cons {c : Char} {cs : List Char} (h : ¬ ['_', '_'] <+: c :: cs) :
    withPoints (c :: cs) = c :: withPoints cs := by
  rw [withPoints]
  rintro cs' rfl rfl
  exact h ⟨cs', rfl⟩

theorem alone_of_cons {c : Char} {cs : List Char} (h : ¬ ['_', '_'] <:+: c :: cs ++ ['_']) :
    ¬ ['_', '_'] <:+: cs ++ ['_'] :=
  fun h' => h (h'.trans (List.suffix_cons c _).isInfix)

theorem withPoints_append {cs : List Char} (h : ¬ ['_', '_'] <:+: cs ++ ['_']) (rest : List Char) :
    withPoints (cs ++ '_' :: '_' :: rest) = cs ++ '.' :: withPoints rest := by
  induction cs with
  | nil => rfl
  | cons c cs ih =>
    rw [List.cons_append, withPoints_cons, ih (alone_of_cons h), List.cons_append]
    rintro ⟨rest', hrest⟩
    obtain ⟨rfl, hnext⟩ := List.cons.inj hrest
    cases cs with
    | nil => exact h (List.infix_refl _)
    | cons d cs =>
      obtain ⟨rfl, -⟩ := List.cons.inj hnext
      exact h ⟨[], cs ++ ['_'], rfl⟩

theorem withPoints_of_alone {cs : List Char} (h : ¬ ['_', '_'] <:+: cs ++ ['_']) :
    withPoints cs = cs := by
  induction cs with
  | nil => rfl
  | cons c cs ih =>
    rw [withPoints_cons fun hstart => h (hstart.trans (List.prefix_append _ _)).isInfix,
      ih (alone_of_cons h)]

theorem withPoints_flatMap {n : String} {ns : List String}
    (h : ∀ m ∈ n :: ns, IsSettingName m) :
    withPoints (n.toList ++ ns.flatMap fun m => '_' :: '_' :: m.toList) =
      n.toList ++ ns.flatMap fun m => '.' :: m.toList := by
  induction ns generalizing n with
  | nil =>
    rw [List.flatMap_nil, List.flatMap_nil, List.append_nil]
    exact withPoints_of_alone (h n List.mem_cons_self).alone
  | cons m ns ih =>
    obtain ⟨hn, h⟩ := List.forall_mem_cons.mp h
    rw [List.flatMap_cons, List.cons_append, List.cons_append, withPoints_append hn.alone, ih h,
      List.flatMap_cons, List.cons_append]

/-- The name, in lower case, of the variable for a setting. -/
def nameOf (path : List String) : String := "__".intercalate ("foreman" :: path)

theorem toList_nameOf (n : String) (ns : List String) : (nameOf (n :: ns)).toList =
    variablePrefix ++ (n.toList ++ ns.flatMap fun m => '_' :: '_' :: m.toList) := by
  have hsplit : variablePrefix = "foreman".toList ++ "__".toList := by decide
  rw [nameOf, toList_intercalate_cons, hsplit, List.flatMap_cons, List.append_assoc,
    List.append_assoc]
  rfl

theorem key?_of_nameOf {name n : String} {ns : List String} (hname : lower name = nameOf (n :: ns))
    (h : ∀ m ∈ n :: ns, IsSettingName m) : key? name = some (".".intercalate (n :: ns)) := by
  have hkey : (".".intercalate (n :: ns)).toList =
      n.toList ++ ns.flatMap fun m => '.' :: m.toList := toList_intercalate_cons "." n ns
  rw [key?, hname, toList_nameOf, List.take_left, List.drop_left, withPoints_flatMap h, ← hkey,
    String.ofList_toList]
  exact if_pos rfl

/-! ### Places -/

/-- The place of a setting: in a section, or in the section on Redis, which is itself within one. -/
def IsPlace : List String → Prop
  | [s, k] => (s, k) ≠ ("persistence", "redis")
  | [s, k, _] => (s, k) = ("persistence", "redis")
  | _ => False

instance : DecidablePred IsPlace
  | [s, k] => inferInstanceAs (Decidable ((s, k) ≠ ("persistence", "redis")))
  | [s, k, _] => inferInstanceAs (Decidable ((s, k) = ("persistence", "redis")))
  | [] | [_] | _ :: _ :: _ :: _ :: _ => .isFalse id

theorem IsPlace.ne_nil {p : List String} (hp : IsPlace p) : p ≠ [] := fun h => (h ▸ hp : IsPlace [])

/-- No setting stands within another one. -/
theorem IsPlace.eq_of_isPrefix {p q : List String} (hp : IsPlace p) (hq : IsPlace q)
    (h : p <+: q) : p = q :=
  match p, q, hp, hq with
  | [_, _], [_, _], _, _ => by simpa using h
  | [_, _, _], [_, _, _], _, _ => by simpa using h
  | [_, _, _], [_, _], _, _ => absurd h.length_le (by simp)
  | [_, _], [_, _, _], hp, hq => by
    obtain ⟨rfl, rfl, -⟩ : _ ∧ _ ∧ True := by simpa using h
    exact absurd hq hp

/-- A place that is written with names. -/
structure IsSettingPath (path : List String) : Prop where
  place : IsPlace path
  names : ∀ n ∈ path, IsSettingName n

instance : DecidablePred IsSettingPath := fun path =>
  decidable_of_iff (IsPlace path ∧ ∀ n ∈ path, IsSettingName n)
    ⟨fun h => ⟨h.1, h.2⟩, fun h => ⟨h.place, h.names⟩⟩

theorem IsSettingPath.ne_nil {path : List String} (h : IsSettingPath path) : path ≠ [] :=
  h.place.ne_nil

variable {path : List String}

/-- The key of a variable is the path of the setting that it names. -/
theorem ofKey_key? {name : String} (hname : lower name = nameOf path) (h : IsSettingPath path) :
    ∃ key, key? name = some key ∧ ofKey key = path.map .name := by
  obtain ⟨n, ns, rfl⟩ := List.exists_cons_of_ne_nil h.ne_nil
  exact ⟨_, key?_of_nameOf hname h.names, SettingStep.ofKey_intercalate h.names⟩

/-- A variable names one setting at most. -/
theorem nameOf_unique {name : String} {p q : List String} (hp : lower name = nameOf p)
    (hq : lower name = nameOf q) (hpath : IsSettingPath p) (hpath' : IsSettingPath q) : p = q := by
  obtain ⟨key, hkey, hof⟩ := ofKey_key? hp hpath
  obtain ⟨key', hkey', hof'⟩ := ofKey_key? hq hpath'
  obtain rfl : key = key' := Option.some.inj (hkey.symm.trans hkey')
  exact List.map_injective_iff.mpr (fun _ _ h => SettingStep.name.inj h) (hof.symm.trans hof')

/-! ### The layer of the variables -/

/-- The variables that are settings have names of the form `FOREMAN__SECTION__KEY`, and no two of
them differ in case only. -/
structure IsPlain (bindings : List (String × String)) : Prop where
  distinct : bindings.Pairwise fun b b' => (key? b.1).isSome → lower b.1 ≠ lower b'.1
  named : ∀ b ∈ bindings, (key? b.1).isSome → ∃ path, IsSettingPath path ∧ lower b.1 = nameOf path

/-- The text that a setting has in the environment. -/
def text? (bindings : List (String × String)) (path : List String) : Option String :=
  (bindings.find? (lower ·.1 = nameOf path)).map Prod.snd

/-- The value of a text has no parts. -/
theorem isTable_valueOfText (text : String) : (valueOfText text).isTable = false := by
  rw [valueOfText]
  grind [Setting.isTable]

/-- One variable sets the setting that it names, and no other. -/
theorem stands_set (hpath : IsSettingPath path) {root : Setting} (hroot : root.Stands path)
    {p : List String} (hp : IsSettingPath p) {key : String} (hkey : ofKey key = p.map .name)
    (text : String) : (root.set key (valueOfText text)).Stands path ∧
      Setting.at? path (root.set key (valueOfText text)) =
        if p = path then some (valueOfText text) else Setting.at? path root :=
  hroot.set hp.ne_nil hkey (fun n hn => (hp.names n hn).lower_eq)
    (fun n hn => (hp.names n hn).isSimple)
    (fun h => h.elim (hp.place.eq_of_isPrefix hpath.place) fun h =>
      (hpath.place.eq_of_isPrefix hp.place h).symm)
    (isTable_valueOfText text)

/-- Variables that are laid over a tree: what they do not name is as it was. -/
theorem stands_lay {bindings : List (String × String)} (h : IsPlain bindings)
    (hpath : IsSettingPath path) {root : Setting} (hroot : root.Stands path) :
    (Setting.lay root (layer bindings)).Stands path ∧
      Setting.at? path (Setting.lay root (layer bindings)) =
        ((text? bindings path).map valueOfText).or (Setting.at? path root) := by
  induction bindings generalizing root with
  | nil => exact ⟨hroot, rfl⟩
  | cons b bs ih =>
    obtain ⟨hfirst, hdistinct⟩ := List.pairwise_cons.mp h.distinct
    obtain ⟨hb, hnamed⟩ := List.forall_mem_cons.mp h.named
    by_cases hsome : (key? b.1).isSome
    · obtain ⟨p, hp, hname⟩ := hb hsome
      obtain ⟨key, hkey, hof⟩ := ofKey_key? hname hp
      have hlay : Setting.lay root (layer (b :: bs)) =
          Setting.lay (root.set key (valueOfText b.2)) (layer bs) := by
        simp [layer, hkey, Setting.lay, Setting.entries]
      obtain ⟨hset, hat⟩ := stands_set hpath hroot hp hof b.2
      obtain ⟨hstands, hat'⟩ := ih ⟨hdistinct, hnamed⟩ hset
      rw [hlay, hat', hat]
      refine ⟨hstands, ?_⟩
      by_cases heq : p = path
      · subst heq
        -- no later variable has the same name, so the first one stands
        have hrest : bs.find? (lower ·.1 = nameOf p) = none :=
          List.find?_eq_none.mpr fun b' hb' hname' =>
            hfirst b' hb' hsome (hname.trans (of_decide_eq_true hname').symm)
        simp [text?, hname, hrest]
      · have hname' : lower b.1 ≠ nameOf path := fun hname' =>
          heq (nameOf_unique hname hname' hp hpath)
        simp [text?, heq, hname']
    · have hkey : key? b.1 = none := by simpa using hsome
      have hlayer : layer (b :: bs) = layer bs := by simp [layer, hkey]
      have hname : lower b.1 ≠ nameOf path := fun hname => by
        obtain ⟨key, hkey', -⟩ := ofKey_key? hname hpath
        exact hsome (hkey' ▸ rfl)
      rw [hlayer]
      simpa [text?, hname] using ih ⟨hdistinct, hnamed⟩ hroot

end Environment

end JobBroker
