import JobBroker.Text.Case

/-!
# Letter case is settled once

Text in lower case does not change when it is put in lower case again, and no other character
comes about than a small letter.
-/

namespace JobBroker.Text

theorem isLower_iff {c : Char} : c.isLower ↔ 97 ≤ c.val.toNat ∧ c.val.toNat ≤ 122 :=
  Bool.and_eq_true_iff.trans (and_congr decide_eq_true_iff decide_eq_true_iff)

theorem toLower_eq_or_isLower (c : Char) : c.toLower = c ∨ c.toLower.isLower := by
  by_cases h : 65 ≤ c.val.toNat ∧ c.val.toNat ≤ 90
  · have hval : c.toLower.val = c.val + 32 := congrArg Char.val (dif_pos h)
    have hsum : (c.val + 32).toNat = c.val.toNat + 32 := by
      rw [UInt32.toNat_add]
      exact Nat.mod_eq_of_lt (by show c.val.toNat + 32 < _; omega)
    exact .inr (isLower_iff.mpr (by rw [hval, hsum]; omega))
  · exact .inl (dif_neg h)

theorem toLower_of_isLower {c : Char} (h : c.isLower) : c.toLower = c := by
  have hbounds := isLower_iff.mp h
  have hupper : ¬ (65 ≤ c.val.toNat ∧ c.val.toNat ≤ 90) := by omega
  exact dif_neg hupper

theorem lowerChar_of_ne {c : Char} (hc : c ≠ kelvinSign) : lowerChar c = c.toLower := if_neg hc

theorem lowerChar_eq_or_isLower (c : Char) : lowerChar c = c ∨ (lowerChar c).isLower := by
  by_cases hc : c = kelvinSign
  · subst hc
    decide
  · rw [lowerChar_of_ne hc]
    exact toLower_eq_or_isLower c

theorem lowerChar_of_isLower {c : Char} (h : c.isLower) : lowerChar c = c := by
  rw [lowerChar_of_ne, toLower_of_isLower h]
  rintro rfl
  exact absurd h (by decide)

@[simp] theorem lowerChar_lowerChar (c : Char) : lowerChar (lowerChar c) = lowerChar c :=
  (lowerChar_eq_or_isLower c).elim (congrArg lowerChar) lowerChar_of_isLower

@[simp] theorem lower_lower (s : String) : lower (lower s) = lower s := by
  simp [lower, Function.comp_def]

/-- Only a small letter is the lower case of another character. -/
theorem mem_of_mem_lower {d : Char} (hd : d.isLower = false) {s : String}
    (h : d ∈ (lower s).toList) : d ∈ s.toList := by
  rw [lower, String.toList_ofList, List.mem_map] at h
  obtain ⟨c, hc, rfl⟩ := h
  rcases lowerChar_eq_or_isLower c with heq | hlower
  · exact heq.symm ▸ hc
  · exact absurd hlower (by simp [hd])

end JobBroker.Text
