import JobBroker.Json.Reader
import JobBroker.Json.Writer
import JobBroker.Proofs.Packet.Canonical

/-!
# Written strings and numbers as tokens

A string and an integer as they are written are cut off a text again as one token. The escapes of a
string are undone; a number ends where what follows cannot go on with it.

* `next_quoted`, `next_decimalInt` : the first token of a text that starts with one of them.
* `Lexes` : how a text is cut into tokens, without a count of steps.
-/

namespace JobBroker.Json

open Text

namespace Token

/-! ### Strings -/

theorem hexValue_hexDigit {n : Nat} (h : n < 16) : hexValue (hexDigit n) = some n := by
  revert n; decide

theorem stringBody_hex {n : Nat} (h : n < 32) (rest : List Char) :
    stringBody ('\\' :: 'u' :: hex 4 n ++ rest) =
      (stringBody rest).map fun p => (.unit n :: p.1, p.2) := by
  have hdigit : ∀ m, hexValue (hexDigit (m % 16)) = some (m % 16) := fun m =>
    hexValue_hexDigit (Nat.mod_lt m (by decide))
  have hn : (n / 16 / 16 / 16 % 16 * 16 + n / 16 / 16 % 16) * 256 + n / 16 % 16 * 16 + n % 16 =
      n := by omega
  simp only [hex, List.nil_append, List.cons_append, stringBody, hdigit, Option.bind_eq_bind,
    Option.bind_some, hn]
  cases stringBody rest <;> rfl

theorem stringBody_plain {c : Char} (hquote : c ≠ '"') (hslash : c ≠ '\\') (h : ¬ c.toNat < 32)
    (rest : List Char) :
    stringBody (c :: rest) = (stringBody rest).map fun p => (.char c :: p.1, p.2) := by
  rw [stringBody, if_neg (not_or.mpr ⟨h, hslash⟩)]
  · cases stringBody rest <;> rfl
  · exact hquote
  · exact fun _ _ _ _ _ h _ => hslash h
  · exact fun _ _ h _ => hslash h

theorem stringBody_unescape {c d : Char} (h : unescape c = some d) (rest : List Char) :
    stringBody ('\\' :: c :: rest) = (stringBody rest).map fun p => (.char d :: p.1, p.2) := by
  rw [stringBody]
  · rw [h]
    cases stringBody rest <;> rfl
  · rintro _ _ _ _ _ rfl
    cases (h : none = some d)

/-- The written form of a character is read as a piece that stands for the character. -/
theorem stringBody_escape (c : Char) : ∃ p : Piece,
    (∀ ps, join (p :: ps) = (join ps).map (c :: ·)) ∧
      ∀ rest, stringBody (escape c ++ rest) =
        (stringBody rest).map fun q => (p :: q.1, q.2) := by
  unfold escape
  split
  case h_8 hquote hslash _ _ _ _ _ =>
    split
    · next hlow =>
      refine ⟨.unit c.toNat, fun ps => ?_, stringBody_hex hlow⟩
      rw [join.eq_def]
      show (if _ then _ else if _ then _ else _) = _
      rw [if_neg (by omega), if_neg (by omega), Char.ofNat_toNat]
    · next hhigh => exact ⟨.char c, fun _ => rfl, stringBody_plain hquote hslash hhigh⟩
  all_goals exact ⟨.char _, fun _ => rfl, stringBody_unescape rfl⟩

theorem stringBody_flatMap_escape (cs rest : List Char) : ∃ ps : List Piece, join ps = some cs ∧
    stringBody (cs.flatMap escape ++ '"' :: rest) = some (ps, rest) := by
  induction cs with
  | nil => exact ⟨[], rfl, rfl⟩
  | cons c cs ih =>
    obtain ⟨ps, hjoin, hbody⟩ := ih
    obtain ⟨p, hp, hstep⟩ := stringBody_escape c
    refine ⟨p :: ps, ?_, ?_⟩
    · rw [hp, hjoin]
      rfl
    · rw [List.flatMap_cons, List.append_assoc, hstep, hbody]
      rfl

theorem next_quoted (s : String) (rest : List Char) :
    next (quoted s ++ rest) = some (.string s, rest) := by
  obtain ⟨ps, hjoin, hbody⟩ := stringBody_flatMap_escape s.toList rest
  have hquoted : quoted s ++ rest = '"' :: (s.toList.flatMap escape ++ '"' :: rest) := by
    simp [quoted]
  rw [hquoted]
  show (stringBody _).map _ = _
  rw [hbody, Option.map_some, ofPieces, hjoin]
  simp

/-! ### Numbers -/

/-- No number goes on with this text. -/
def EndsNumber (cs : List Char) : Prop :=
  ∀ c ∈ cs.head?, c.isDigit = false ∧ c ≠ '.' ∧ c ≠ 'e' ∧ c ≠ 'E'

theorem digitRun_digits (n : Nat) {rest : List Char} (h : EndsNumber rest) :
    digitRun (digits n ++ rest) = some (digits n, rest) := by
  have hall : ∀ c ∈ digits n, c.isDigit = true := List.all_eq_true.mp (all_isDigit_digits n)
  have hrest : rest.takeWhile Char.isDigit = [] ∧ rest.dropWhile Char.isDigit = rest := by
    cases rest with
    | nil => exact ⟨rfl, rfl⟩
    | cons c cs => simp [(h c rfl).1]
  unfold digitRun
  rw [List.takeWhile_append_of_pos hall, List.dropWhile_append_of_pos hall, hrest.1, hrest.2,
    List.append_nil]
  split
  · next hnil => exact absurd hnil (digits_ne_nil n)
  · rfl

theorem number_digits (negative : Bool) (n : Nat) {rest : List Char} (h : EndsNumber rest)
    (hn : negative = true → n ≠ 0) : number negative (digits n ++ rest) =
      some (.integer (if negative then -(n : Int) else n), rest) := by
  have hfraction : skipFraction rest = some (false, rest) := by
    cases rest with
    | nil => rfl
    | cons c cs =>
      rw [skipFraction]
      exact fun _ heq => (h c rfl).2.1 (List.cons.inj heq).1
  have hexponent : skipExponent rest = some (false, rest) := by
    cases rest with
    | nil => rfl
    | cons c cs =>
      rw [skipExponent.eq_def]
      exact if_neg (not_or.mpr (h c rfl).2.2)
  have hzero : (negative && n == 0) = false := by
    cases negative <;> simp_all
  have hplain : ¬ ((digits n).head? = some '0' ∧ (digits n).length ≠ 1) := by
    rintro ⟨hhead, hlength⟩
    rw [(isPlain_digits n).2.2 hhead] at hlength
    exact hlength rfl
  simp only [number, digitRun_digits n h, Option.bind_eq_bind, Option.bind_some, if_neg hplain,
    hfraction, hexponent, valueOf_digits, hzero, Bool.or_false]
  rfl

theorem next_of_isDigit {c : Char} (hc : c.isDigit) (cs : List Char) :
    next (c :: cs) = number false (c :: cs) := by
  rw [next] <;> rintro _ heq <;> cases heq <;> exact absurd hc (by decide)

theorem next_decimalInt (n : Int) {rest : List Char} (h : EndsNumber rest) :
    next ((decimalInt n).toList ++ rest) = some (.integer n, rest) := by
  cases n with
  | ofNat n =>
    rw [decimalInt, decimal, String.toList_ofList]
    have hnumber := number_digits false n h (by simp)
    cases hd : digits n with
    | nil => exact absurd hd (digits_ne_nil n)
    | cons c cs =>
      have hc : c.isDigit := List.all_eq_true.mp (all_isDigit_digits n) c (hd ▸ List.mem_cons_self)
      rw [hd] at hnumber
      exact (next_of_isDigit hc _).trans hnumber
  | negSucc n =>
    have hnumber := number_digits true (n + 1) h (by simp)
    simpa [decimalInt, decimal, next, Int.negSucc_eq] using hnumber

/-! ### Texts -/

/-- A text is cut into these tokens. -/
def Lexes (cs : List Char) (ts : List Token) : Prop :=
  ∃ fuel, fuel ≤ cs.length ∧ tokensWithin fuel cs = some ts

theorem Lexes.nil : Lexes [] [] := ⟨0, Nat.le_refl 0, rfl⟩

theorem tokensWithin_succ {fuel : Nat} {cs : List Char} {ts : List Token}
    (h : tokensWithin fuel cs = some ts) : tokensWithin (fuel + 1) cs = some ts := by
  induction fuel generalizing cs ts with
  | zero =>
    rw [tokensWithin.eq_def] at h ⊢
    cases hcs : cs.dropWhile isBlank with
    | nil => simpa [hcs] using h
    | cons c cs => simp [hcs] at h
  | succ fuel ih =>
    rw [tokensWithin.eq_def] at h ⊢
    cases hcs : cs.dropWhile isBlank with
    | nil => simpa [hcs] using h
    | cons c cs =>
      simp only [hcs, Option.bind_eq_bind, Option.bind_eq_some_iff] at h ⊢
      obtain ⟨⟨t, rest⟩, hnext, ts', hts', hts⟩ := h
      exact ⟨(t, rest), hnext, ts', ih hts', hts⟩

theorem tokensWithin_of_le {fuel fuel' : Nat} (hle : fuel ≤ fuel') {cs : List Char}
    {ts : List Token} (h : tokensWithin fuel cs = some ts) : tokensWithin fuel' cs = some ts := by
  induction hle with
  | refl => exact h
  | step _ ih => exact tokensWithin_succ ih

theorem Lexes.tokens_eq {cs : List Char} {ts : List Token} (h : Lexes cs ts) :
    tokens cs = some ts := by
  obtain ⟨fuel, hle, h⟩ := h
  exact tokensWithin_of_le hle h

/-- A token in front of a text that is cut into tokens. -/
theorem Lexes.cons {c : Char} {cs rest : List Char} {t : Token} {ts : List Token}
    (h : Lexes rest ts) (hc : isBlank c = false)
    (hnext : next (c :: cs ++ rest) = some (t, rest)) : Lexes (c :: cs ++ rest) (t :: ts) := by
  obtain ⟨fuel, hle, h⟩ := h
  refine ⟨fuel + 1, ?_, ?_⟩
  · simp only [List.cons_append, List.length_cons, List.length_append]
    omega
  · rw [tokensWithin.eq_def]
    rw [List.cons_append] at hnext
    simp [hc, hnext, h]

/-- A token of one character. -/
theorem Lexes.mark {c : Char} {rest : List Char} {t : Token} {ts : List Token}
    (h : Lexes rest ts) (hc : isBlank c = false) (hnext : next (c :: rest) = some (t, rest)) :
    Lexes (c :: rest) (t :: ts) := by
  show Lexes ([c] ++ rest) _
  exact h.cons hc hnext

theorem Lexes.quoted {rest : List Char} {ts : List Token} (h : Lexes rest ts) (s : String) :
    Lexes (quoted s ++ rest) (.string s :: ts) :=
  h.cons (by decide) (next_quoted s rest)

theorem isBlank_of_isDigit {c : Char} (h : c.isDigit) : isBlank c = false := by
  simp only [isBlank, Bool.or_eq_false_iff, beq_eq_false_iff_ne]
  refine ⟨⟨⟨?_, ?_⟩, ?_⟩, ?_⟩ <;> rintro rfl <;> exact absurd h (by decide)

theorem Lexes.integer {rest : List Char} {ts : List Token} (h : Lexes rest ts)
    (hrest : EndsNumber rest) (n : Int) :
    Lexes ((decimalInt n).toList ++ rest) (.integer n :: ts) := by
  have hnext := next_decimalInt n hrest
  obtain ⟨c, cs, hcs, hc⟩ : ∃ c cs, (decimalInt n).toList = c :: cs ∧ isBlank c = false := by
    cases n with
    | ofNat n =>
      obtain ⟨c, cs, hcs⟩ := List.exists_cons_of_ne_nil (digits_ne_nil n)
      refine ⟨c, cs, by rw [decimalInt, decimal, String.toList_ofList, hcs], ?_⟩
      exact isBlank_of_isDigit (List.all_eq_true.mp (all_isDigit_digits n) c (by simp [hcs]))
    | negSucc n => exact ⟨'-', digits (n + 1), by simp [decimalInt, decimal], by decide⟩
  rw [hcs] at hnext ⊢
  exact h.cons hc hnext

end Token

end JobBroker.Json
