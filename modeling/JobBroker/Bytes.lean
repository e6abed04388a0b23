/-!
# Octets

Runs of octets, four-octet words with the most significant octet first, and the cut of a run at
the first octet of a given value.

* `Bytes.word?_ofWord` : a word written and read again is that word.
* `Bytes.cut_eq_some_iff` : a run is cut at `sep` exactly where a part free of `sep` is followed
  by it.
-/

namespace JobBroker

/-- What a stream carries. -/
abbrev Bytes := List UInt8

namespace Bytes

/-- The four octets of a word, most significant first. -/
def ofWord (w : UInt32) : Bytes :=
  [UInt8.ofNat (w.toNat / 16777216), UInt8.ofNat (w.toNat / 65536),
    UInt8.ofNat (w.toNat / 256), UInt8.ofNat w.toNat]

/-- The word that a run starts with, and the rest of the run. -/
def word? : Bytes → Option (UInt32 × Bytes)
  | a :: b :: c :: d :: rest =>
    some (UInt32.ofNat (((a.toNat * 256 + b.toNat) * 256 + c.toNat) * 256 + d.toNat), rest)
  | _ => none

@[simp] theorem length_ofWord (w : UInt32) : (ofWord w).length = 4 := rfl

@[simp] theorem word?_ofWord (w : UInt32) (rest : Bytes) :
    word? (ofWord w ++ rest) = some (w, rest) := by
  have hw := w.toNat_lt
  simp only [ofWord, word?, List.cons_append, List.nil_append, Option.some.injEq, Prod.mk.injEq,
    and_true]
  rw [← UInt32.toNat_inj, UInt32.toNat_ofNat']
  simp only [UInt8.toNat_ofNat']
  omega

/-- The part before the first `sep` and the part after it. -/
def cut (sep : UInt8) (bytes : Bytes) : Option (Bytes × Bytes) :=
  match bytes.dropWhile (· != sep) with
  | [] => none
  | _ :: rest => some (bytes.takeWhile (· != sep), rest)

@[simp] theorem cut_nil (sep : UInt8) : cut sep [] = none := rfl

theorem cut_cons (sep b : UInt8) (rest : Bytes) :
    cut sep (b :: rest) =
      if b = sep then some ([], rest) else (cut sep rest).map fun p => (b :: p.1, p.2) := by
  by_cases h : b = sep
  · simp [cut, h]
  · have hb : (b != sep) = true := by simpa using h
    simp only [cut, List.dropWhile_cons, List.takeWhile_cons, hb, if_true, h, if_false]
    cases rest.dropWhile (· != sep) <;> rfl

theorem cut_eq_some_iff {sep : UInt8} {bytes head rest : Bytes} :
    cut sep bytes = some (head, rest) ↔ bytes = head ++ sep :: rest ∧ sep ∉ head := by
  induction bytes generalizing head rest with
  | nil => simp
  | cons b bytes ih =>
    rw [cut_cons]
    by_cases h : b = sep
    · subst h
      cases head with
      | nil => simp
      | cons c head => simp +contextual [eq_comm]
    · cases head with
      | nil => simp [h]
      | cons c head =>
        have hc : b = c → (¬sep = c ↔ True) := by rintro rfl; simp [Ne.symm h]
        simp only [h, if_false, Option.map_eq_some_iff, Prod.exists, ih, Prod.mk.injEq,
          List.cons.injEq, List.cons_append, List.mem_cons, not_or]
        constructor
        · rintro ⟨_, _, ⟨hb, hn⟩, ⟨hbc, rfl⟩, rfl⟩
          exact ⟨⟨hbc, hb⟩, (hc hbc).mpr trivial, hn⟩
        · rintro ⟨⟨hbc, hb⟩, -, hn⟩
          exact ⟨_, _, ⟨hb, hn⟩, ⟨hbc, rfl⟩, rfl⟩

theorem cut_eq_none_iff {sep : UInt8} {bytes : Bytes} : cut sep bytes = none ↔ sep ∉ bytes := by
  induction bytes with
  | nil => simp
  | cons b bytes ih =>
    by_cases h : b = sep
    · simp [cut_cons, h]
    · simp [cut_cons, h, ih, Ne.symm h]

end Bytes

end JobBroker
