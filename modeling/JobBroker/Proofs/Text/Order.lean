import JobBroker.Proofs.Packet.RoundTrip
import JobBroker.Text.Order

/-!
# Order of texts and of octets

Texts are compared character by character. That is the order of their octets in UTF-8, and a list
that was sorted rises in it.

* `le_iff_encode_le` : one text stands before another when its octets do.
* `pairwise_sortOn` : a sorted list rises.
-/

namespace JobBroker.Text

/-! ### Octets -/

/-- A character with a smaller code point is written with smaller octets, whatever follows. -/
theorem utf8EncodeChar_append_lt {c d : Char} (h : c.val.toNat < d.val.toNat) (x y : Bytes) :
    String.utf8EncodeChar c ++ x < String.utf8EncodeChar d ++ y := by
  have hvalid : d.val.toNat < 0x110000 := by
    have := d.valid
    simp only [UInt32.isValidChar, Nat.isValidChar] at this
    omega
  have h64 : ∀ n, (n % 64 + 128) % 2 ^ 8 = n % 64 + 128 := fun n => by omega
  have h32 : ∀ n, (n % 32 + 192) % 2 ^ 8 = n % 32 + 192 := fun n => by omega
  have h16 : ∀ n, (n % 16 + 224) % 2 ^ 8 = n % 16 + 224 := fun n => by omega
  have h8 : ∀ n, (n % 8 + 240) % 2 ^ 8 = n % 8 + 240 := fun n => by omega
  simp only [String.utf8EncodeChar]
  generalize c.val.toNat = v at h
  generalize d.val.toNat = w at h hvalid
  have hdiv : ∀ n < 0x110000, n / 64 / 64 = n / 4096 ∧ n / 4096 / 64 = n / 262144 ∧
      n / 262144 / 8 = 0 := fun n hn => by omega
  obtain ⟨hv, hv', hv''⟩ := hdiv v (by omega)
  obtain ⟨hw, hw', hw''⟩ := hdiv w hvalid
  -- a longer form starts with a larger octet, and of two that are as long the first octets that
  -- differ decide
  split_ifs <;>
    simp only [List.cons_append, List.cons_lt_cons_iff, UInt8.lt_iff_toNat_lt, ← UInt8.toNat_inj,
      UInt8.toNat_ofNat', h64, h32, h16, h8] <;> omega

theorem append_lt_append_iff (x : Bytes) {y z : Bytes} : x ++ y < x ++ z ↔ y < z := by
  induction x with
  | nil => rfl
  | cons b x ih => simp [ih]

theorem charsLE_eq_false_iff {cs ds : List Char} : charsLE cs ds = false ↔
    ds.flatMap String.utf8EncodeChar < cs.flatMap String.utf8EncodeChar := by
  induction cs generalizing ds with
  | nil => simp [charsLE]
  | cons c cs ih =>
    cases ds with
    | nil =>
      have hne : String.utf8EncodeChar c ≠ [] := by
        simp
      obtain ⟨b, bs, hb⟩ := List.exists_cons_of_ne_nil hne
      simp [charsLE, hb]
    | cons d ds =>
      rw [charsLE, List.flatMap_cons, List.flatMap_cons]
      split
      · next hlt => simpa using List.lt_asymm (utf8EncodeChar_append_lt hlt _ _)
      · next hge =>
        split
        · next hlt => simpa using utf8EncodeChar_append_lt hlt _ _
        · next hle =>
          have hge : ¬ c.val.toNat < d.val.toNat := hge
          have hle : ¬ d.val.toNat < c.val.toNat := hle
          obtain rfl : c = d := Char.ext (UInt32.toNat_inj.mp (by omega))
          rw [ih, append_lt_append_iff]

theorem le_iff_encode_le {s t : String} : le s t ↔ Utf8.encode s ≤ Utf8.encode t := by
  rw [← List.not_lt, Utf8.encode_eq_flatMap, Utf8.encode_eq_flatMap, ← charsLE_eq_false_iff, le,
    Bool.not_eq_false]

/-! ### Sorted lists -/

theorem pairwise_insertBy {α : Type} {r : α → α → Bool} (htotal : ∀ a b, r a b ∨ r b a)
    (htrans : ∀ a b c, r a b → r b c → r a c) (a : α) {as : List α}
    (has : as.Pairwise fun b c => r b c) : (insertBy r a as).Pairwise fun b c => r b c := by
  induction as with
  | nil => exact List.pairwise_singleton _ a
  | cons b bs ih =>
    obtain ⟨hb, hbs⟩ := List.pairwise_cons.mp has
    unfold insertBy
    split
    · next hab =>
      refine List.pairwise_cons.mpr ⟨fun c hc => ?_, has⟩
      rcases List.mem_cons.mp hc with rfl | hc
      · exact hab
      · exact htrans a b c hab (hb c hc)
    · next hab =>
      refine List.pairwise_cons.mpr ⟨fun c hc => ?_, ih hbs⟩
      rcases List.mem_cons.mp ((insertBy_perm a bs).mem_iff.mp hc) with rfl | hc
      · exact (htotal c b).resolve_left hab
      · exact hb c hc

/-- A sorted list rises in the octets of its keys. -/
theorem pairwise_sortOn {α : Type} (key : α → String) (as : List α) :
    (sortOn key as).Pairwise fun a b => Utf8.encode (key a) ≤ Utf8.encode (key b) := by
  have hsorted : (sortOn key as).Pairwise fun a b => le (key a) (key b) := by
    induction as with
    | nil => exact .nil
    | cons a as ih =>
      refine pairwise_insertBy (fun a b => ?_) (fun a b c => ?_) a ih <;>
        simp only [le_iff_encode_le]
      · exact List.le_total _ _
      · exact List.le_trans
  exact hsorted.imp fun h => le_iff_encode_le.mp h

end JobBroker.Text
