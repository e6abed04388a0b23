import JobBroker.Packet.Basic
import Mathlib.Tactic.SplitIfs

/-!
# Packets read back

A field is ended by a zero octet, so a field that holds one is cut short when it is read. Numbers
and flags never do, and octets only come last, where nothing ends them. That leaves the texts.

* `Layout.read_write_iff` : the values of the fields are read back exactly when no text before the
  last field holds a NUL.
* `Packet.ofBytes_toBytes_iff` : the same for whole packets.
-/

namespace JobBroker

open Text

/-! ### Zero octets in texts and numbers -/

namespace Text

theorem zero_mem_utf8EncodeChar {c : Char} : 0 ∈ String.utf8EncodeChar c ↔ c = '\x00' := by
  have hnul : c = '\x00' ↔ c.val.toNat = 0 := by
    rw [← Char.val_inj, ← UInt32.toNat_inj]
    rfl
  have hvalid : c.val.toNat < 0x110000 := by
    have := c.valid
    simp only [UInt32.isValidChar, Nat.isValidChar] at this
    omega
  rw [hnul]
  simp only [String.utf8EncodeChar]
  generalize c.val.toNat = v at hvalid ⊢
  split_ifs <;> simp [← UInt8.toNat_inj] <;> omega

namespace Utf8

theorem encode_eq_flatMap (s : String) : encode s = s.toList.flatMap String.utf8EncodeChar := by
  show s.toByteArray.data.toList = _
  rw [← String.utf8Encode_toList, List.utf8Encode, List.data_toByteArray]

/-- Of all characters only NUL is written with a zero octet. -/
theorem zero_mem_encode {s : String} : 0 ∈ encode s ↔ '\x00' ∈ s.toList := by
  simp [encode_eq_flatMap, List.mem_flatMap, zero_mem_utf8EncodeChar]

end Utf8

theorem nul_not_mem_decimal (n : Nat) : '\x00' ∉ (decimal n).toList := by
  rw [decimal, String.toList_ofList]
  exact not_mem_digits rfl n

theorem nul_not_mem_decimalInt (n : Int) : '\x00' ∉ (decimalInt n).toList := by
  cases n with
  | ofNat n => exact nul_not_mem_decimal n
  | negSucc n => simpa [decimalInt] using nul_not_mem_decimal (n + 1)

theorem readSigned_decimalInt {bound : Nat} {n : Int} (hlow : -(bound : Int) ≤ n)
    (hhigh : n < bound) : readSigned bound (decimalInt n).toList = some n := by
  cases n with
  | ofNat n =>
    have hn : n < bound := Int.ofNat_lt.mp hhigh
    rw [decimalInt, decimal, String.toList_ofList]
    unfold readSigned
    split
    · next cs hd => exact absurd (hd ▸ List.mem_cons_self) (not_mem_digits (c := '-') rfl n)
    · rw [readUnsigned_digits hn]
      rfl
  | negSucc n =>
    have hn : n + 1 ≤ bound := by omega
    have hlist : (decimalInt (.negSucc n)).toList = '-' :: digits (n + 1) := by
      simp [decimalInt, decimal]
    show readSigned bound (decimalInt (.negSucc n)).toList = _
    rw [hlist, readSigned, readDigits_digits, Option.filter_some, if_pos (by simpa using hn)]
    rfl

end Text

/-! ### Fields -/

namespace FieldType

/-- The text in a field of text. -/
def text? : (t : FieldType) → t.Value → Option String
  | text, s => some s
  | _, _ => none

theorem readNumber_encode {α : Type} {read : List Char → Option α} {s : String} {n : α}
    (h : read s.toList = some n) : readNumber read (Utf8.encode s) = .ok n := by
  simp [readNumber, h]

/-- The octets of a field are read as the value that they were written for. -/
theorem read_write (t : FieldType) (v : t.Value) : t.read (t.write v) = .ok v := by
  cases t with
  | text => simp [read, write]
  | octets => rfl
  | flag =>
    cases v with
    | false =>
      have hread : readNumber (readUnsigned 256) [48] = .ok 0 := readNumber_encode (s := "0") rfl
      simp [read, write, hread, Except.map]
    | true =>
      have hread : readNumber (readUnsigned 256) [49] = .ok 1 := readNumber_encode (s := "1") rfl
      simp [read, write, hread, Except.map]
  | count =>
    have hread : readUnsigned UInt32.size (decimal v.toNat).toList = some v.toNat := by
      rw [decimal, String.toList_ofList]
      exact readUnsigned_digits v.toNat_lt
    simp [read, write, readNumber_encode hread, Except.map]
  | epoch =>
    have hread : readSigned 9223372036854775808 (decimalInt v.toInt).toList = some v.toInt :=
      readSigned_decimalInt v.le_toInt v.toInt_lt
    simp [read, write, readNumber_encode hread, Except.map]

theorem zero_mem_write_iff {t : FieldType} (ht : t ≠ .octets) (v : t.Value) :
    0 ∈ t.write v ↔ ∃ s, t.text? v = some s ∧ '\x00' ∈ s.toList := by
  cases t with
  | text => simp [write, text?, Utf8.zero_mem_encode]
  | octets => exact absurd rfl ht
  | flag => cases v <;> simp [write, text?]
  | count => simp [write, text?, Utf8.zero_mem_encode, nul_not_mem_decimal]
  | epoch => simp [write, text?, Utf8.zero_mem_encode, nul_not_mem_decimalInt]

end FieldType

/-! ### Payloads -/

namespace Layout

/-- The texts in all fields but the last. -/
def innerTexts : (l : Layout) → l.Values → List String
  | [], _ | [_], _ => []
  | f :: g :: fs, (v, vs) => (f.type.text? v).toList ++ innerTexts (g :: fs) vs

theorem readField_write (kind : Kind) (f : Field) (v : f.type.Value) :
    readField kind f (f.type.write v) = .ok v := by
  rw [readField, FieldType.read_write]

/-- A field that is cut short is not read as what it was. -/
theorem readField_ne_of_zero_mem {kind : Kind} {f : Field} {v : f.type.Value}
    (hf : f.type ≠ .octets) (hv : 0 ∈ f.type.write v) {head : Bytes} (hhead : 0 ∉ head) :
    readField kind f head ≠ .ok v := by
  intro h
  obtain ⟨s, hs, -⟩ := (FieldType.zero_mem_write_iff hf v).mp hv
  obtain ⟨name, t⟩ := f
  cases t with
  | text =>
    simp only [readField, FieldType.read] at h
    cases hd : Utf8.decode? head with
    | none => simp [hd] at h
    | some s' =>
      obtain rfl : s' = v := by simpa [hd] using h
      rw [Utf8.decode?_eq_some_iff.mp hd] at hhead
      exact hhead hv
  | _ => exact absurd hs (by simp [FieldType.text?])

theorem read_eq_ok_iff {kind : Kind} {f g : Field} {fs : Layout} {bytes : Bytes}
    {v : f.type.Value} {vs : Values (g :: fs)} : read kind (f :: g :: fs) bytes = .ok (v, vs) ↔
      ∃ head rest, Bytes.cut 0 bytes = some (head, rest) ∧ readField kind f head = .ok v ∧
        read kind (g :: fs) rest = .ok vs := by
  cases hc : Bytes.cut 0 bytes with
  | none => simp [read, hc]
  | some found =>
    obtain ⟨head, rest⟩ := found
    cases hf : readField kind f head with
    | error err => simp [read, hc, hf, bind, Except.bind]
    | ok v' =>
      cases hfs : read kind (g :: fs) rest <;>
        simp [read, hc, hf, hfs, bind, Except.bind, pure, Except.pure, and_assoc]

/-- Values are read back exactly when no text but that of the last field holds a NUL. -/
theorem read_write_iff (kind : Kind) {l : Layout} (hl : ∀ f ∈ l.dropLast, f.type ≠ .octets)
    (v : l.Values) :
    l.read kind (l.write v) = .ok v ↔ ∀ s ∈ l.innerTexts v, '\x00' ∉ s.toList := by
  fun_induction innerTexts l v with
  | case1 => exact iff_of_true rfl (by simp)
  | case2 f v => exact iff_of_true (by simp [read, write, readField_write, Except.map]) (by simp)
  | case3 f g fs v vs ih =>
    have hf : f.type ≠ .octets := hl f (by simp)
    have ih := ih fun f' hf' => hl f' (List.mem_cons_of_mem f hf')
    rw [read_eq_ok_iff]
    by_cases hv : 0 ∈ f.type.write v
    · -- the field is cut at its own zero octet
      obtain ⟨s, hs, hnul⟩ := (FieldType.zero_mem_write_iff hf v).mp hv
      refine iff_of_false ?_ fun h => h s (by simp [hs]) hnul
      rintro ⟨head, rest, hc, hread, -⟩
      exact readField_ne_of_zero_mem hf hv (Bytes.cut_eq_some_iff.mp hc).2 hread
    · have hc : Bytes.cut 0 (write (f :: g :: fs) (v, vs)) =
          some (f.type.write v, write (g :: fs) vs) := Bytes.cut_eq_some_iff.mpr ⟨rfl, hv⟩
      have hclean : ∀ s ∈ (f.type.text? v).toList, '\x00' ∉ s.toList := fun s hs hnul =>
        hv ((FieldType.zero_mem_write_iff hf v).mpr ⟨s, Option.mem_toList.mp hs, hnul⟩)
      simp only [hc, Option.some.injEq, Prod.mk.injEq, List.mem_append]
      constructor
      · rintro ⟨_, _, ⟨rfl, rfl⟩, -, hread⟩ s hs
        exact hs.elim (hclean s) (ih.mp hread s)
      · exact fun h =>
          ⟨_, _, ⟨rfl, rfl⟩, readField_write kind f v, ih.mpr fun s hs => h s (.inr hs)⟩

end Layout

/-- Octets stand in the last field only. -/
theorem Kind.type_ne_octets (k : Kind) : ∀ f ∈ k.layout.dropLast, f.type ≠ .octets := by
  cases k <;> simp [layout]

namespace Body

/-- The texts of a body, but for a text in the last field of its layout. -/
def innerTexts (b : Body) : List String := b.kind.layout.innerTexts b.values

/-- The values decide the body, and the body decides them. -/
theorem ofValues_eq_iff (b : Body) (v : b.kind.layout.Values) :
    ofValues b.kind v = b ↔ v = b.values := by
  refine ⟨fun h => ?_, fun h => h ▸ ofValues_values b⟩
  have hv := values_ofValues b.kind v
  rw [h] at hv
  exact (eq_of_heq hv).symm

theorem ofPayload_payload_iff (b : Body) :
    ofPayload b.kind b.payload = .ok b ↔ ∀ s ∈ b.innerTexts, '\x00' ∉ s.toList := by
  rw [innerTexts, ← Layout.read_write_iff b.kind b.kind.type_ne_octets, ofPayload, payload]
  cases h : b.kind.layout.read b.kind (b.kind.layout.write b.values) with
  | error err => simp [Except.map]
  | ok v => simp [Except.map, ofValues_eq_iff]

end Body

namespace Packet

/-- A packet whose payload has a length that the header can hold is found again with all three. -/
theorem ofBytes_toBytes {p : Packet} (h : p.body.payload.length < UInt32.size) :
    ofBytes p.toBytes = (Body.ofPayload p.body.kind p.body.payload).map (Packet.mk p.magic) := by
  have hlength : (UInt32.ofNat p.body.payload.length).toNat = p.body.payload.length := by
    rw [UInt32.toNat_ofNat']
    exact Nat.mod_eq_of_lt h
  have hheader : header? p.toBytes =
      some (p.magic.code, p.body.kind.ordinal, p.body.payload.length, p.body.payload) := by
    simp [header?, toBytes, hlength]
  simp [ofBytes, hheader, ofParts]

/-- A packet is read back from its octets exactly when no text in it, but for one in the last field
of its layout, holds a NUL. -/
theorem ofBytes_toBytes_iff (p : Packet) (h : p.body.payload.length < UInt32.size) :
    ofBytes p.toBytes = .ok p ↔ ∀ s ∈ p.body.innerTexts, '\x00' ∉ s.toList := by
  rw [ofBytes_toBytes h, ← Body.ofPayload_payload_iff]
  obtain ⟨magic, body⟩ := p
  cases Body.ofPayload body.kind body.payload <;> simp [Except.map]

/-- A NUL in the last text comes back, one in the text before it does not. -/
theorem ofBytes_toBytes_iff_nul :
    ofBytes (response (.error "C" "a\x00b")).toBytes = .ok (response (.error "C" "a\x00b")) ∧
      ofBytes (response (.error "C\x00" "ab")).toBytes ≠ .ok (response (.error "C\x00" "ab")) :=
  ⟨(ofBytes_toBytes_iff _ (by decide)).mpr (by decide),
    fun h => absurd ((ofBytes_toBytes_iff _ (by decide)).mp h) (by decide)⟩

end Packet

end JobBroker
