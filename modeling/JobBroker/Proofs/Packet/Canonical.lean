import JobBroker.Proofs.Packet.RoundTrip
import Mathlib.Data.List.Induction

/-!
# Canonical packets

Several payloads can be read as one and the same body: a number may have a plus sign or leading
zeros in front, a flag may be any number below 256, and a packet without fields may carry anything.
Of these the one that is written is the canonical one.

* `Text.digits_valueOf` : a run of digits is its value in plain form behind some zeros.
* `Layout.write_of_read` : what was read from a payload is written as that payload exactly when the
  payload is canonical.
* `Packet.toBytes_of_ofBytes` : the same for whole packets, which are read again as what they were
  first read as.
-/

namespace JobBroker

open Text

theorem Except.map_eq_ok_iff {ε α β : Type} {f : α → β} {x : Except ε α} {b : β} :
    x.map f = .ok b ↔ ∃ a, x = .ok a ∧ f a = b := by
  cases x <;> simp [Except.map]

/-! ### Plain numerals -/

namespace Text

/-- One or more digits, the first of which is a zero only when it stands alone. -/
def IsPlain (cs : List Char) : Prop :=
  cs ≠ [] ∧ cs.all Char.isDigit ∧ (cs.head? = some '0' → cs = ['0'])

/-- A plain numeral, or a minus sign in front of one that is not zero. -/
def IsPlainSigned (cs : List Char) : Prop :=
  IsPlain cs ∨ ∃ ds, cs = '-' :: ds ∧ IsPlain ds ∧ ds ≠ ['0']

theorem ofNat_toNat_digit {c : Char} (h : c.isDigit) :
    c.toNat - 48 < 10 ∧ Char.ofNat (48 + (c.toNat - 48)) = c := by
  have hc : 48 ≤ c.toNat ∧ c.toNat ≤ 57 := by
    simpa [Char.isDigit, UInt32.le_iff_toNat_le] using h
  refine ⟨by omega, ?_⟩
  rw [Nat.add_sub_cancel' hc.1, Char.ofNat_toNat]

/-- A run of digits is its value in plain form behind some zeros. -/
theorem digits_valueOf {cs : List Char} (hne : cs ≠ []) (hall : cs.all Char.isDigit) :
    ∃ zeros, cs = List.replicate zeros '0' ++ digits (valueOf cs) := by
  induction cs using List.reverseRecOn with
  | nil => exact absurd rfl hne
  | append_singleton ds c ih =>
    rw [List.all_append, Bool.and_eq_true, List.all_cons, List.all_nil, Bool.and_true] at hall
    obtain ⟨hlt, hofNat⟩ := ofNat_toNat_digit hall.2
    rw [valueOf_append_singleton]
    by_cases hds : ds = []
    · refine ⟨0, ?_⟩
      subst hds
      rw [digits, if_pos (by simpa [valueOf] using hlt)]
      simpa [valueOf] using hofNat.symm
    · obtain ⟨zeros, hzeros⟩ := ih hds hall.1
      generalize valueOf ds = v at hzeros ⊢
      by_cases hv : v = 0
      · -- all digits before the last are zeros
        refine ⟨zeros + 1, ?_⟩
        have hzero : digits 0 = ['0'] := by decide +kernel
        rw [hzeros, hv, hzero, Nat.zero_mul, Nat.zero_add, digits, if_pos hlt, hofNat,
          List.replicate_succ']
      · refine ⟨zeros, ?_⟩
        have hdiv : (v * 10 + (c.toNat - 48)) / 10 = v := by omega
        have hmod : (v * 10 + (c.toNat - 48)) % 10 = c.toNat - 48 := by omega
        rw [digits, if_neg (by omega), hdiv, hmod, hofNat, hzeros, List.append_assoc]

theorem isPlain_digits (n : Nat) : IsPlain (digits n) := by
  refine ⟨digits_ne_nil n, all_isDigit_digits n, ?_⟩
  fun_induction digits n with
  | case1 n h => exact fun hhead => by simpa using hhead
  | case2 n h ih =>
    intro hhead
    rw [List.head?_append, List.head?_eq_some_head (digits_ne_nil _), Option.some_or] at hhead
    have hvalue : valueOf (digits (n / 10)) = 0 := by
      rw [ih (by rw [List.head?_eq_some_head (digits_ne_nil _), hhead])]
      decide
    rw [valueOf_digits] at hvalue
    omega

/-- Digits are the plain form of their value exactly when they are plain. -/
theorem digits_valueOf_eq_iff {cs : List Char} (hne : cs ≠ []) (hall : cs.all Char.isDigit) :
    digits (valueOf cs) = cs ↔ IsPlain cs := by
  refine ⟨fun h => h ▸ isPlain_digits _, fun hplain => ?_⟩
  obtain ⟨zeros, hzeros⟩ := digits_valueOf hne hall
  cases zeros with
  | zero => simpa using hzeros.symm
  | succ zeros =>
    have hcs : cs = ['0'] := hplain.2.2 (by rw [hzeros]; simp [List.replicate_succ])
    subst hcs
    decide +kernel

theorem length_digits_valueOf {cs : List Char} (hne : cs ≠ []) (hall : cs.all Char.isDigit) :
    (digits (valueOf cs)).length ≤ cs.length := by
  obtain ⟨zeros, hzeros⟩ := digits_valueOf hne hall
  have := congrArg List.length hzeros
  rw [List.length_append] at this
  omega

theorem readDigits_eq_some_iff {cs : List Char} {n : Nat} :
    readDigits cs = some n ↔ cs ≠ [] ∧ cs.all Char.isDigit ∧ valueOf cs = n := by
  unfold readDigits
  split
  · next h => simp [h]
  · next h =>
    simp only [reduceCtorEq, false_iff]
    exact fun hread => h ⟨hread.1, hread.2.1⟩

theorem not_isPlain_sign {c : Char} (hc : c.isDigit = false) (cs : List Char) :
    ¬ IsPlain (c :: cs) := fun h => by simpa [hc] using h.2.1

/-- A number that was read is below the bound, is written no longer than it was, and is written the
same when it was plain. -/
theorem readUnsigned_eq_some {bound n : Nat} {cs : List Char}
    (h : readUnsigned bound cs = some n) :
    n < bound ∧ (digits n).length ≤ cs.length ∧ (digits n = cs ↔ IsPlain cs) := by
  unfold readUnsigned at h
  split at h
  · next cs =>
    obtain ⟨hread, hlt⟩ := Option.filter_eq_some_iff.mp h
    obtain ⟨hne, hall, rfl⟩ := readDigits_eq_some_iff.mp hread
    refine ⟨by simpa using hlt, ?_, ?_⟩
    · exact Nat.le_succ_of_le (length_digits_valueOf hne hall)
    · refine iff_of_false (fun heq => ?_) (not_isPlain_sign rfl cs)
      exact not_mem_digits (c := '+') rfl _ (heq ▸ List.mem_cons_self)
  · obtain ⟨hread, hlt⟩ := Option.filter_eq_some_iff.mp h
    obtain ⟨hne, hall, rfl⟩ := readDigits_eq_some_iff.mp hread
    exact ⟨by simpa using hlt, length_digits_valueOf hne hall, digits_valueOf_eq_iff hne hall⟩

theorem toList_decimalInt_neg {n : Nat} (h : n ≠ 0) :
    (decimalInt (-(n : Int))).toList = '-' :: digits n := by
  obtain ⟨m, rfl⟩ := Nat.exists_eq_succ_of_ne_zero h
  show ("-" ++ decimal (m + 1)).toList = _
  simp [decimal]

/-- The same for numbers with a sign. -/
theorem readSigned_eq_some {bound : Nat} (hbound : 0 < bound) {n : Int} {cs : List Char}
    (h : readSigned bound cs = some n) :
    (-(bound : Int) ≤ n ∧ n < bound) ∧ (decimalInt n).toList.length ≤ cs.length ∧
      ((decimalInt n).toList = cs ↔ IsPlainSigned cs) := by
  unfold readSigned at h
  split at h
  · next cs =>
    simp only [bind, Option.map_eq_some_iff, Option.bind_eq_some_iff, pure,
      Option.some.injEq] at h
    obtain ⟨_, ⟨m, hm, rfl⟩, rfl⟩ := h
    obtain ⟨hread, hle⟩ := Option.filter_eq_some_iff.mp hm
    obtain ⟨hne, hall, rfl⟩ := readDigits_eq_some_iff.mp hread
    have hlength := length_digits_valueOf hne hall
    have hsigned : IsPlainSigned ('-' :: cs) ↔ IsPlain cs ∧ cs ≠ ['0'] := by
      simp [IsPlainSigned, not_isPlain_sign (c := '-') rfl cs]
    have hle : valueOf cs ≤ bound := by simpa using hle
    rw [hsigned, ← digits_valueOf_eq_iff hne hall]
    by_cases hzero : valueOf cs = 0
    · -- minus zero is read as zero and written without the sign
      have hwrite : (decimalInt (-((valueOf cs : Nat) : Int))).toList = ['0'] := by
        rw [hzero]
        decide +kernel
      have hzeros : digits 0 = ['0'] := by decide +kernel
      rw [hwrite, hzero, hzeros]
      refine ⟨by omega, by simp, iff_of_false (by simp) fun h => h.2 h.1.symm⟩
    · rw [toList_decimalInt_neg hzero]
      refine ⟨by omega, by simpa using hlength, ?_⟩
      have hcs : cs ≠ ['0'] := by
        rintro rfl
        exact hzero (by decide)
      simp [hcs]
  · next hsign =>
    obtain ⟨m, hm, rfl⟩ := Option.map_eq_some_iff.mp h
    obtain ⟨hlt, hlength, hplain⟩ := readUnsigned_eq_some hm
    have hwrite : (decimalInt (Int.ofNat m)).toList = digits m := by simp [decimalInt, decimal]
    have hsigned : IsPlainSigned cs ↔ IsPlain cs := by
      refine or_iff_left ?_
      rintro ⟨ds, rfl, -⟩
      exact hsign ds rfl
    rw [hwrite, hsigned]
    exact ⟨⟨by simp, by simpa using hlt⟩, hlength, hplain⟩

end Text

/-! ### The length of texts and numbers -/

namespace Text

theorem length_toList_le_encode (s : String) : s.toList.length ≤ (Utf8.encode s).length := by
  rw [Utf8.encode_eq_flatMap]
  induction s.toList with
  | nil => simp
  | cons c cs ih =>
    have := c.utf8Size_pos
    simp only [List.flatMap_cons, List.length_append, String.length_utf8EncodeChar,
      List.length_cons]
    omega

/-- A text of ASCII characters has one octet for each of them. -/
theorem length_encode_eq {s : String} (h : ∀ c ∈ s.toList, c.utf8Size = 1) :
    (Utf8.encode s).length = s.toList.length := by
  rw [Utf8.encode_eq_flatMap]
  revert h
  induction s.toList with
  | nil => simp
  | cons c cs ih =>
    intro h
    rw [List.flatMap_cons, List.length_append, String.length_utf8EncodeChar, h c (by simp),
      ih fun c' hc' => h c' (List.mem_cons_of_mem c hc'), List.length_cons, Nat.add_comm]

theorem utf8Size_of_isDigit {c : Char} (h : c.isDigit) : c.utf8Size = 1 := by
  have hc : c.val ≤ 57 := (show 48 ≤ c.val ∧ c.val ≤ 57 by simpa [Char.isDigit] using h).2
  rw [Char.utf8Size, if_pos (UInt32.le_trans hc (by decide))]

theorem Utf8.encode_inj {s t : String} : Utf8.encode s = Utf8.encode t ↔ s = t :=
  ⟨Utf8.encode_injective, congrArg _⟩

theorem length_encode_decimal (n : Nat) : (Utf8.encode (decimal n)).length = (digits n).length := by
  have hlist : (decimal n).toList = digits n := by simp [decimal]
  rw [length_encode_eq, hlist]
  rw [hlist]
  exact fun c hc => utf8Size_of_isDigit (List.all_eq_true.mp (all_isDigit_digits n) c hc)

theorem length_encode_decimalInt (n : Int) :
    (Utf8.encode (decimalInt n)).length = (decimalInt n).toList.length := by
  refine length_encode_eq fun c hc => ?_
  have hdigit : ∀ m, c ∈ (decimal m).toList → c.utf8Size = 1 := by
    intro m hm
    rw [decimal, String.toList_ofList] at hm
    exact utf8Size_of_isDigit (List.all_eq_true.mp (all_isDigit_digits m) c hm)
  cases n with
  | ofNat m => exact hdigit m hc
  | negSucc m =>
    have hc : c = '-' ∨ c ∈ (decimal (m + 1)).toList := by simpa [decimalInt] using hc
    rcases hc with rfl | hc
    · decide
    · exact hdigit (m + 1) hc

end Text

/-! ### Canonical fields -/

namespace FieldType

/-- The octets that a value of the field is written as. -/
def Canonical : FieldType → Bytes → Prop
  | text, _ | octets, _ => True
  | flag, b => b = [48] ∨ b = [49]
  | count, b => ∃ s, b = Utf8.encode s ∧ IsPlain s.toList
  | epoch, b => ∃ s, b = Utf8.encode s ∧ IsPlainSigned s.toList

theorem readNumber_eq_ok_iff {α : Type} {read : List Char → Option α} {bytes : Bytes} {n : α} :
    readNumber read bytes = .ok n ↔ ∃ s, bytes = Utf8.encode s ∧ read s.toList = some n := by
  constructor
  · intro h
    unfold readNumber at h
    split at h
    · simp at h
    · next s hs =>
      split at h
      · simp at h
      · next m hm =>
        obtain rfl : m = n := by simpa using h
        exact ⟨s, Utf8.decode?_eq_some_iff.mp hs, hm⟩
  · rintro ⟨s, rfl, hr⟩
    exact readNumber_encode hr

/-- A run of text with a property is that of one text only. -/
theorem exists_encode_iff {s : String} {P : List Char → Prop} :
    (∃ t, Utf8.encode s = Utf8.encode t ∧ P t.toList) ↔ P s.toList :=
  ⟨fun ⟨_, ht, hp⟩ => Utf8.encode_injective ht ▸ hp, fun hp => ⟨s, rfl, hp⟩⟩

/-- The flag that is read from `0` or `1` is the one that is written so. -/
theorem write_of_read_flag {b : Bytes} {v : Bool} (h : flag.read b = .ok v) :
    (flag.write v).length ≤ b.length ∧ (flag.write v = b ↔ flag.Canonical b) := by
  obtain ⟨n, hn, rfl⟩ := Except.map_eq_ok_iff.mp h
  obtain ⟨s, rfl, hs⟩ := readNumber_eq_ok_iff.mp hn
  have hpos : 1 ≤ (Utf8.encode s).length := by
    refine Nat.le_trans ?_ (length_toList_le_encode s)
    refine Nat.le_trans ?_ (readUnsigned_eq_some hs).2.1
    exact List.length_pos_iff.mpr (digits_ne_nil n)
  refine ⟨by cases n <;> simpa [write] using hpos, ?_⟩
  have hvalue : ∀ m : Nat, m < 2 → Utf8.encode s = Utf8.encode (decimal m) → n = m := by
    intro m hm heq
    have hread : readUnsigned 256 (decimal m).toList = some m := by
      rw [decimal, String.toList_ofList]
      exact readUnsigned_digits (by omega)
    rw [Utf8.encode_injective heq, hread] at hs
    exact (Option.some.inj hs).symm
  constructor
  · intro hwrite
    rw [← hwrite, Canonical, write]
    split <;> simp
  · rintro (hzero | hone)
    · rw [hvalue 0 (by decide) (hzero.trans (by decide +kernel)), hzero]
      rfl
    · rw [hvalue 1 (by decide) (hone.trans (by decide +kernel)), hone]
      rfl

/-- The octets of a field that can be read are the ones that its value is written as exactly when
they are canonical, and no other octets for that value are fewer. -/
theorem write_of_read {t : FieldType} {b : Bytes} {v : t.Value} (h : t.read b = .ok v) :
    (t.write v).length ≤ b.length ∧ (t.write v = b ↔ t.Canonical b) := by
  cases t with
  | text =>
    cases hd : Utf8.decode? b with
    | none => simp [read, hd] at h
    | some s =>
      obtain rfl : s = v := by simpa [read, hd] using h
      rw [Utf8.decode?_eq_some_iff.mp hd]
      exact ⟨Nat.le_refl _, iff_of_true rfl trivial⟩
  | octets =>
    obtain rfl : b = v := by simpa [read] using h
    exact ⟨Nat.le_refl _, iff_of_true rfl trivial⟩
  | flag => exact write_of_read_flag h
  | count =>
    obtain ⟨n, hn, rfl⟩ := Except.map_eq_ok_iff.mp h
    obtain ⟨s, rfl, hs⟩ := readNumber_eq_ok_iff.mp hn
    obtain ⟨hlt, hlength, hplain⟩ := readUnsigned_eq_some hs
    have hwrite : write count (UInt32.ofNat n) = Utf8.encode (decimal n) := by
      rw [write, UInt32.toNat_ofNat', Nat.mod_eq_of_lt hlt]
    have hlist : (decimal n).toList = digits n := by simp [decimal]
    rw [hwrite, Canonical, exists_encode_iff, ← hplain, ← hlist, length_encode_decimal,
      Utf8.encode_inj, String.toList_inj]
    exact ⟨Nat.le_trans hlength (length_toList_le_encode s), Iff.rfl⟩
  | epoch =>
    obtain ⟨n, hn, rfl⟩ := Except.map_eq_ok_iff.mp h
    obtain ⟨s, rfl, hs⟩ := readNumber_eq_ok_iff.mp hn
    obtain ⟨⟨hlow, hhigh⟩, hlength, hplain⟩ := readSigned_eq_some (by decide) hs
    have hwrite : write epoch (Int64.ofInt n) = Utf8.encode (decimalInt n) := by
      rw [write, Int64.toInt_ofInt_of_le hlow hhigh]
    rw [hwrite, Canonical, exists_encode_iff, ← hplain, length_encode_decimalInt,
      Utf8.encode_inj, String.toList_inj]
    exact ⟨Nat.le_trans hlength (length_toList_le_encode s), Iff.rfl⟩

end FieldType

/-! ### Canonical payloads -/

namespace Layout

/-- Each field of the payload is canonical, and there is nothing where there are no fields. -/
def Canonical : Layout → Bytes → Prop
  | [], bytes => bytes = []
  | [f], bytes => f.type.Canonical bytes
  | f :: g :: fs, bytes =>
    ∃ head rest, Bytes.cut 0 bytes = some (head, rest) ∧ f.type.Canonical head ∧
      Canonical (g :: fs) rest

theorem readField_eq_ok_iff {kind : Kind} {f : Field} {bytes : Bytes} {v : f.type.Value} :
    readField kind f bytes = .ok v ↔ f.type.read bytes = .ok v := by
  unfold readField
  split <;> simp_all

/-- A field that ended at a zero octet is written without one. -/
theorem zero_not_mem_write {kind : Kind} {f : Field} (hf : f.type ≠ .octets) {head : Bytes}
    (hhead : 0 ∉ head) {v : f.type.Value} (h : readField kind f head = .ok v) :
    0 ∉ f.type.write v := fun hv => readField_ne_of_zero_mem hf hv hhead h

/-- Values that were read hold no NUL in a text before the last field. -/
theorem nul_not_mem_of_read {kind : Kind} {l : Layout} (hl : ∀ f ∈ l.dropLast, f.type ≠ .octets)
    {bytes : Bytes} {v : l.Values} (h : l.read kind bytes = .ok v) :
    ∀ s ∈ l.innerTexts v, '\x00' ∉ s.toList := by
  fun_induction innerTexts l v generalizing bytes with
  | case1 => simp
  | case2 f v => simp
  | case3 f g fs v vs ih =>
    obtain ⟨head, rest, hc, hf, hfs⟩ := read_eq_ok_iff.mp h
    have hoctets : f.type ≠ .octets := hl f (by simp)
    have hv := zero_not_mem_write hoctets (Bytes.cut_eq_some_iff.mp hc).2 hf
    intro s hs
    rcases List.mem_append.mp hs with hs | hs
    · exact fun hnul =>
        hv ((FieldType.zero_mem_write_iff hoctets v).mpr ⟨s, Option.mem_toList.mp hs, hnul⟩)
    · exact ih (fun f' hf' => hl f' (List.mem_cons_of_mem f hf')) hfs s hs

/-- Values that were read from a payload are written as that payload exactly when it is canonical,
and never as a longer one. -/
theorem write_of_read {kind : Kind} {l : Layout} (hl : ∀ f ∈ l.dropLast, f.type ≠ .octets)
    {bytes : Bytes} {v : l.Values} (h : l.read kind bytes = .ok v) :
    (l.write v).length ≤ bytes.length ∧ (l.write v = bytes ↔ l.Canonical bytes) := by
  fun_induction innerTexts l v generalizing bytes with
  | case1 => exact ⟨by simp [write], by simp [write, Canonical, eq_comm]⟩
  | case2 f v =>
    obtain ⟨v', hv', heq⟩ := Except.map_eq_ok_iff.mp h
    obtain rfl : v' = v.1 := congrArg Prod.fst heq
    exact FieldType.write_of_read (readField_eq_ok_iff.mp hv')
  | case3 f g fs v vs ih =>
    obtain ⟨head, rest, hc, hf, hfs⟩ := read_eq_ok_iff.mp h
    have hoctets : f.type ≠ .octets := hl f (by simp)
    obtain ⟨hsplit, hhead⟩ := Bytes.cut_eq_some_iff.mp hc
    obtain ⟨hlength, hfield⟩ := FieldType.write_of_read (readField_eq_ok_iff.mp hf)
    obtain ⟨hlengths, hfields⟩ := ih (fun f' hf' => hl f' (List.mem_cons_of_mem f hf')) hfs
    -- both the payload and what is written end their first field at their first zero octet
    have hcut : Bytes.cut 0 (write (f :: g :: fs) (v, vs)) =
        some (f.type.write v, write (g :: fs) vs) :=
      Bytes.cut_eq_some_iff.mpr ⟨rfl, zero_not_mem_write hoctets hhead hf⟩
    refine ⟨?_, ?_⟩
    · rw [hsplit, write]
      simp only [List.length_append, List.length_cons]
      omega
    · simp only [Canonical, hc, Option.some.injEq, Prod.mk.injEq]
      constructor
      · intro heq
        rw [heq, hc, Option.some.injEq, Prod.mk.injEq] at hcut
        exact ⟨head, rest, ⟨rfl, rfl⟩, hfield.mp hcut.1.symm, hfields.mp hcut.2.symm⟩
      · rintro ⟨_, _, ⟨rfl, rfl⟩, hcanonical, hcanonicals⟩
        rw [write, hfield.mpr hcanonical, hfields.mpr hcanonicals, hsplit]

end Layout

namespace Body

theorem kind_of_ofPayload {k : Kind} {payload : Bytes} {b : Body}
    (h : ofPayload k payload = .ok b) : b.kind = k := by
  obtain ⟨v, -, rfl⟩ := Except.map_eq_ok_iff.mp h
  exact kind_ofValues k v

/-- A body is read from a payload when its values are. -/
theorem ofPayload_eq_ok_iff {b : Body} {payload : Bytes} :
    ofPayload b.kind payload = .ok b ↔ b.kind.layout.read b.kind payload = .ok b.values := by
  rw [ofPayload, Except.map_eq_ok_iff]
  constructor
  · rintro ⟨v, hv, hb⟩
    rw [hv, (ofValues_eq_iff b v).mp hb]
  · exact fun h => ⟨_, h, ofValues_values b⟩

/-- No body that was read holds a NUL in a text before the last field. -/
theorem nul_not_mem_of_ofPayload {k : Kind} {payload : Bytes} {b : Body}
    (h : ofPayload k payload = .ok b) : ∀ s ∈ b.innerTexts, '\x00' ∉ s.toList := by
  obtain rfl := kind_of_ofPayload h
  exact Layout.nul_not_mem_of_read b.kind.type_ne_octets (ofPayload_eq_ok_iff.mp h)

end Body

/-! ### Canonical packets -/

namespace Bytes

/-- A word that was read is written as the octets that it was read from. -/
theorem eq_of_word? {bytes rest : Bytes} {w : UInt32} (h : word? bytes = some (w, rest)) :
    bytes = ofWord w ++ rest := by
  unfold word? at h
  split at h
  · next a b c d rest' =>
    obtain ⟨rfl, rfl⟩ : UInt32.ofNat (((a.toNat * 256 + b.toNat) * 256 + c.toNat) * 256 + d.toNat)
      = w ∧ rest' = rest := by simpa using h
    have ha := a.toNat_lt
    have hb := b.toNat_lt
    have hc := c.toNat_lt
    have hd := d.toNat_lt
    simp only [ofWord, List.cons_append, List.nil_append, List.cons.injEq, and_true,
      ← UInt8.toNat_inj, UInt8.toNat_ofNat', UInt32.toNat_ofNat']
    omega
  · simp at h

end Bytes

namespace Packet

theorem eq_of_header? {bytes payload : Bytes} {magic kind : UInt32} {length : Nat}
    (h : header? bytes = some (magic, kind, length, payload)) :
    length < UInt32.size ∧ bytes = Bytes.ofWord magic ++ Bytes.ofWord kind ++
      Bytes.ofWord (UInt32.ofNat length) ++ payload := by
  simp only [header?, bind, Option.bind_eq_some_iff, Prod.exists] at h
  obtain ⟨_, _, h₁, _, _, h₂, w, _, h₃, h₄⟩ := h
  simp only [pure, Option.some.injEq, Prod.mk.injEq] at h₄
  obtain ⟨rfl, rfl, rfl, rfl⟩ := h₄
  refine ⟨w.toNat_lt, ?_⟩
  rw [Bytes.eq_of_word? h₁, Bytes.eq_of_word? h₂, Bytes.eq_of_word? h₃, UInt32.ofNat_toNat]
  simp only [List.append_assoc]

theorem ofParts_eq_ok {magic kind : UInt32} {payload : Bytes} {p : Packet}
    (h : ofParts magic kind payload = .ok p) :
    p.magic.code = magic ∧ Kind.ofOrdinal? kind = some p.body.kind ∧
      Body.ofPayload p.body.kind payload = .ok p.body := by
  unfold ofParts at h
  split at h
  · simp at h
  · next m hm =>
    split at h
    · simp at h
    · next k hk =>
      obtain ⟨b, hb, rfl⟩ := Except.map_eq_ok_iff.mp h
      obtain rfl := Body.kind_of_ofPayload hb
      exact ⟨Magic.code_of_ofCode? hm, hk, hb⟩

/-- The payload is one that its body is written as: empty when the kind has no fields, with every
number in plain form and with every flag `0` or `1`. -/
def Canonical (bytes : Bytes) : Prop :=
  ∃ magic kind length payload k, header? bytes = some (magic, kind, length, payload) ∧
    Kind.ofOrdinal? kind = some k ∧ k.layout.Canonical payload

/-- A packet that was read is read again from the octets that it is written as. They are the ones
that it was read from exactly when those are canonical. -/
theorem toBytes_of_ofBytes {bytes : Bytes} {p : Packet} (h : ofBytes bytes = .ok p) :
    ofBytes p.toBytes = .ok p ∧ (p.toBytes = bytes ↔ Canonical bytes) := by
  unfold ofBytes at h
  split at h
  · simp at h
  · next magic kind length payload hheader =>
    split at h
    · next hpayload =>
      obtain ⟨hmagic, hkind, hbody⟩ := ofParts_eq_ok h
      obtain ⟨hsize, hbytes⟩ := eq_of_header? hheader
      obtain ⟨hlength, hwrite⟩ :=
        Layout.write_of_read p.body.kind.type_ne_octets (Body.ofPayload_eq_ok_iff.mp hbody)
      have hsame : p.toBytes = bytes ↔ p.body.payload = payload := by
        rw [hbytes, toBytes, hmagic, Kind.ordinal_of_ofOrdinal? hkind]
        constructor
        · exact fun heq => (List.append_inj heq (by simp)).2
        · rintro rfl
          rw [hpayload]
      have hcanonical : Canonical bytes ↔ p.body.kind.layout.Canonical payload := by
        simp [Canonical, hheader, hkind]
      refine ⟨?_, by rw [hsame, hcanonical]; exact hwrite⟩
      rw [ofBytes_toBytes (by rw [Body.payload]; omega),
        (Body.ofPayload_payload_iff p.body).mpr (Body.nul_not_mem_of_ofPayload hbody)]
      rfl
    · simp at h

/-- The status of `H`, as 5 of 7: with a plus sign and leading zeros, and in plain form. -/
theorem toBytes_of_ofBytes_status :
    let bytes : Bytes :=
      [0, 0x52, 0x45, 0x51, 0, 0, 0, 12, 0, 0, 0, 8, 72, 0, 43, 53, 0, 48, 48, 55]
    let plain : Bytes := [0, 0x52, 0x45, 0x51, 0, 0, 0, 12, 0, 0, 0, 5, 72, 0, 53, 0, 55]
    let p := request (.workStatus "H" 5 7)
    ofBytes bytes = .ok p ∧ ofBytes plain = .ok p ∧ ofBytes p.toBytes = .ok p ∧
      ¬ Canonical bytes ∧ Canonical plain := by
  intro bytes plain p
  have hbytes : ofBytes bytes = .ok p := by decide +kernel
  have hplain : ofBytes plain = .ok p := by decide +kernel
  exact ⟨hbytes, hplain, (toBytes_of_ofBytes hbytes).1,
    (not_congr (toBytes_of_ofBytes hbytes).2).mp (by decide +kernel),
    (toBytes_of_ofBytes hplain).2.mp (by decide +kernel)⟩

end Packet

end JobBroker
