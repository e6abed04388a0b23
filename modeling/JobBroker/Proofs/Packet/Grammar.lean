import JobBroker.Proofs.Packet.Canonical
import Mathlib.Algebra.Group.Nat.Defs
import Mathlib.Data.List.Forall2

/-!
# The grammar of packets

Which octets are a packet, said without the reader: a header, a magic word and a number that are
known, and the fields of that kind with a zero octet between them, each of them well formed. Octets
that are no packet are refused for the first thing that is wrong with them, where the header comes
before the fields and the fields come from left to right.

* `FieldType.exists_read_iff`, `FieldType.read_eq_error_iff` : when a field is read, and why not.
* `Layout.exists_read_iff`, `Layout.read_eq_error_iff` : the same for the fields of a payload.
* `Packet.ofBytes_grammar` : the same for whole packets.
-/

namespace JobBroker

open Text

theorem Except.exists_map_eq_ok_iff {ε α β : Type} {f : α → β} {x : Except ε α} :
    (∃ b, x.map f = .ok b) ↔ ∃ a, x = .ok a := by
  cases x <;> simp [Except.map]

theorem Except.map_eq_error_iff {ε α β : Type} {f : α → β} {x : Except ε α} {err : ε} :
    x.map f = .error err ↔ x = .error err := by
  cases x <;> simp [Except.map]

/-! ### Numbers -/

namespace Text

/-- One or more ASCII digits for a value below `bound`, with or without a plus sign. -/
def IsUnsigned (bound : Nat) (cs : List Char) : Prop :=
  ∃ ds, (cs = ds ∨ cs = '+' :: ds) ∧ ds ≠ [] ∧ (∀ d ∈ ds, d.isDigit) ∧ valueOf ds < bound

/-- The same with either sign, where minus `bound` is the least value. -/
def IsSigned (bound : Nat) (cs : List Char) : Prop :=
  IsUnsigned bound cs ∨
    ∃ ds, cs = '-' :: ds ∧ ds ≠ [] ∧ (∀ d ∈ ds, d.isDigit) ∧ valueOf ds ≤ bound

theorem isSome_filter_readDigits {p : Nat → Bool} {cs : List Char} :
    ((readDigits cs).filter p).isSome ↔
      cs ≠ [] ∧ (∀ c ∈ cs, c.isDigit) ∧ p (valueOf cs) = true := by
  simp only [Option.isSome_iff_exists, Option.filter_eq_some_iff, readDigits_eq_some_iff,
    List.all_eq_true]
  constructor
  · rintro ⟨_, ⟨hne, hall, rfl⟩, hp⟩
    exact ⟨hne, hall, hp⟩
  · exact fun ⟨hne, hall, hp⟩ => ⟨_, ⟨hne, hall, rfl⟩, hp⟩

theorem isSome_readUnsigned_iff {bound : Nat} {cs : List Char} :
    (readUnsigned bound cs).isSome ↔ IsUnsigned bound cs := by
  unfold readUnsigned IsUnsigned
  split
  · next cs =>
    rw [isSome_filter_readDigits]
    constructor
    · exact fun ⟨hne, hall, hlt⟩ => ⟨cs, .inr rfl, hne, hall, by simpa using hlt⟩
    · rintro ⟨ds, rfl | heq, hne, hall, hlt⟩
      · exact absurd (hall '+' List.mem_cons_self) (by decide)
      · obtain rfl : cs = ds := by simpa using heq
        exact ⟨hne, hall, by simpa using hlt⟩
  · next hplus =>
    rw [isSome_filter_readDigits]
    constructor
    · exact fun ⟨hne, hall, hlt⟩ => ⟨cs, .inl rfl, hne, hall, by simpa using hlt⟩
    · rintro ⟨ds, rfl | rfl, hne, hall, hlt⟩
      · exact ⟨hne, hall, by simpa using hlt⟩
      · exact absurd rfl (hplus ds)

theorem isSome_readSigned_iff {bound : Nat} {cs : List Char} :
    (readSigned bound cs).isSome ↔ IsSigned bound cs := by
  unfold readSigned IsSigned
  split
  · next cs =>
    have hcast : ∀ n? : Option Nat, (do let n ← n?; pure (n : Int)).isSome = n?.isSome := by
      rintro (_ | n) <;> rfl
    rw [Option.isSome_map, hcast, isSome_filter_readDigits]
    constructor
    · exact fun ⟨hne, hall, hle⟩ => .inr ⟨cs, rfl, hne, hall, by simpa using hle⟩
    · rintro (⟨ds, rfl | heq, -, hall, -⟩ | ⟨ds, heq, hne, hall, hle⟩)
      · exact absurd (hall '-' List.mem_cons_self) (by decide)
      · simp at heq
      · obtain rfl : cs = ds := by simpa using heq
        exact ⟨hne, hall, by simpa using hle⟩
  · next hminus =>
    rw [Option.isSome_map, isSome_readUnsigned_iff, or_iff_left]
    rintro ⟨ds, rfl, -⟩
    exact hminus ds rfl

end Text

/-! ### Fields -/

namespace FieldType

/-- What a field of the type may hold. -/
def WellFormed : FieldType → Bytes → Prop
  | text, b => ∃ s, b = Utf8.encode s
  | octets, _ => True
  | flag, b => ∃ s, b = Utf8.encode s ∧ IsUnsigned 256 s.toList
  | count, b => ∃ s, b = Utf8.encode s ∧ IsUnsigned (2 ^ 32) s.toList
  | epoch, b => ∃ s, b = Utf8.encode s ∧ IsSigned (2 ^ 63) s.toList

/-- What is wrong with octets that are not well formed: they are no text, or a text that is not a
number of the type. -/
def Fault.Fits (b : Bytes) : Fault → Prop
  | .notUtf8 => ∀ s, b ≠ Utf8.encode s
  | .notNumber s => b = Utf8.encode s

theorem exists_readNumber_iff {α : Type} {read : List Char → Option α} {P : List Char → Prop}
    (hP : ∀ cs, (read cs).isSome ↔ P cs) {b : Bytes} :
    (∃ n, readNumber read b = .ok n) ↔ ∃ s, b = Utf8.encode s ∧ P s.toList := by
  simp only [readNumber_eq_ok_iff, ← hP, Option.isSome_iff_exists]
  exact ⟨fun ⟨n, s, hs, hn⟩ => ⟨s, hs, n, hn⟩, fun ⟨s, hs, n, hn⟩ => ⟨n, s, hs, hn⟩⟩

/-- No octets have two things wrong with them. -/
theorem readNumber_eq_error_iff {α : Type} {read : List Char → Option α} {b : Bytes}
    {fault : Fault} : readNumber read b = .error fault ↔
      (¬ ∃ n, readNumber read b = .ok n) ∧ fault.Fits b := by
  unfold readNumber
  split
  · next hdecode =>
    have htext : ∀ s, b ≠ Utf8.encode s := fun s hs => by
      simp [Utf8.decode?_eq_some_iff.mpr hs] at hdecode
    cases fault <;> simp [Fault.Fits, htext]
  · next s hdecode =>
    obtain rfl := Utf8.decode?_eq_some_iff.mp hdecode
    split <;> cases fault <;> simp [Fault.Fits, Utf8.encode_inj]

/-- A field is read when its octets are well formed. -/
theorem exists_read_iff {t : FieldType} {b : Bytes} :
    (∃ v, t.read b = .ok v) ↔ t.WellFormed b := by
  cases t with
  | text =>
    simp only [WellFormed, ← Utf8.decode?_eq_some_iff, read]
    cases Utf8.decode? b <;> simp
  | octets => simp [read, WellFormed]
  | flag =>
    exact Except.exists_map_eq_ok_iff.trans (exists_readNumber_iff fun _ => isSome_readUnsigned_iff)
  | count =>
    exact Except.exists_map_eq_ok_iff.trans (exists_readNumber_iff fun _ => isSome_readUnsigned_iff)
  | epoch =>
    exact Except.exists_map_eq_ok_iff.trans (exists_readNumber_iff fun _ => isSome_readSigned_iff)

/-- Octets that are not well formed are refused for what is wrong with them. -/
theorem read_eq_error_iff {t : FieldType} {b : Bytes} {fault : Fault} :
    t.read b = .error fault ↔ ¬ t.WellFormed b ∧ fault.Fits b := by
  rw [← exists_read_iff]
  cases t with
  | text =>
    simp only [read]
    cases hdecode : Utf8.decode? b with
    | none =>
      have htext : ∀ s, b ≠ Utf8.encode s := fun s hs => by
        simp [Utf8.decode?_eq_some_iff.mpr hs] at hdecode
      cases fault <;> simp [Fault.Fits, htext]
    | some s => simp
  | octets => simp [read]
  | flag | count | epoch =>
    simp only [read, Except.exists_map_eq_ok_iff, Except.map_eq_error_iff]
    exact readNumber_eq_error_iff

end FieldType

/-! ### Payloads -/

namespace Layout

/-- The payload is one well-formed part for each field, with a zero octet between two of them that
the part before it does not hold. A layout without fields takes any payload. -/
def WellFormed (l : Layout) (payload : Bytes) : Prop :=
  l = [] ∨ ∃ parts, payload = [0].intercalate parts ∧ (∀ part ∈ parts.dropLast, 0 ∉ part) ∧
    List.Forall₂ (fun f part => f.type.WellFormed part) l parts

/-- What stands in a field when `rest` is left and the fields `after` are still to come: all of it
in the last one, and in any other what comes before the first zero octet. -/
def Part (after : Layout) (rest part : Bytes) : Prop :=
  if after = [] then part = rest else 0 ∉ part ∧ ∃ tail, rest = part ++ 0 :: tail

/-- Why the field cannot be read when `rest` is left and the fields `after` are still to come. -/
inductive Refused (kind : Kind) (f : Field) (after : Layout) (rest : Bytes) : ProtocolError → Prop
  | missing : after ≠ [] → 0 ∉ rest → Refused kind f after rest (.missingField kind f.name)
  | notUtf8 {part : Bytes} : Part after rest part → ¬ f.type.WellFormed part →
      (∀ s, part ≠ Utf8.encode s) → Refused kind f after rest (.invalidUtf8 kind f.name)
  | notNumber {s : String} : Part after rest (Utf8.encode s) →
      ¬ f.type.WellFormed (Utf8.encode s) → Refused kind f after rest (.invalidNumber kind f.name s)

/-- Of the fields of a layout one is refused, and those before it are there and well formed. -/
def FirstRefused (kind : Kind) (l : Layout) (payload : Bytes) (err : ProtocolError) : Prop :=
  ∃ before f after parts rest, l = before ++ f :: after ∧
    payload = parts.flatMap (· ++ [0]) ++ rest ∧
    List.Forall₂ (fun g part => 0 ∉ part ∧ g.type.WellFormed part) before parts ∧
    Refused kind f after rest err

theorem wellFormed_nil (payload : Bytes) : WellFormed [] payload := .inl rfl

theorem wellFormed_singleton {f : Field} {payload : Bytes} :
    WellFormed [f] payload ↔ f.type.WellFormed payload := by
  simp [WellFormed, List.forall₂_cons_left_iff]

theorem wellFormed_cons_cons {f g : Field} {fs : Layout} {payload : Bytes} :
    WellFormed (f :: g :: fs) payload ↔ ∃ head rest, Bytes.cut 0 payload = some (head, rest) ∧
      f.type.WellFormed head ∧ WellFormed (g :: fs) rest := by
  simp only [WellFormed, List.forall₂_cons_left_iff, Bytes.cut_eq_some_iff, reduceCtorEq, false_or]
  constructor
  · rintro ⟨_, hp, hclean, head, _, hhead, ⟨b, bs, hb, hbs, rfl⟩, rfl⟩
    rw [List.dropLast_cons_cons] at hclean
    refine ⟨head, [0].intercalate (b :: bs), ⟨by simpa using hp, hclean _ (by simp)⟩, hhead,
      b :: bs, rfl, fun part hpart => ?_, b, bs, hb, hbs, rfl⟩
    exact hclean part (List.mem_cons_of_mem _ hpart)
  · rintro ⟨head, _, ⟨hp, hclean⟩, hhead, _, rfl, hcleans, b, bs, hb, hbs, rfl⟩
    refine ⟨head :: b :: bs, by simpa using hp, ?_, head, _, hhead, ⟨b, bs, hb, hbs, rfl⟩, rfl⟩
    rw [List.dropLast_cons_cons]
    exact List.forall_mem_cons.mpr ⟨hclean, hcleans⟩

/-- The fields of a payload are read when it is well formed. -/
theorem exists_read_iff {kind : Kind} {l : Layout} {payload : Bytes} :
    (∃ v, l.read kind payload = .ok v) ↔ l.WellFormed payload := by
  induction l generalizing payload with
  | nil => exact iff_of_true ⟨(), rfl⟩ (wellFormed_nil payload)
  | cons f fs ih =>
    cases fs with
    | nil =>
      rw [wellFormed_singleton, ← FieldType.exists_read_iff]
      simp only [read, Except.exists_map_eq_ok_iff, readField_eq_ok_iff]
    | cons g fs =>
      rw [wellFormed_cons_cons]
      simp only [← ih, ← FieldType.exists_read_iff]
      constructor
      · rintro ⟨v, hv⟩
        obtain ⟨head, rest, hcut, hf, hfs⟩ := read_eq_ok_iff.mp hv
        exact ⟨head, rest, hcut, ⟨_, readField_eq_ok_iff.mp hf⟩, _, hfs⟩
      · rintro ⟨head, rest, hcut, ⟨v, hf⟩, vs, hfs⟩
        exact ⟨(v, vs), read_eq_ok_iff.mpr ⟨head, rest, hcut, readField_eq_ok_iff.mpr hf, hfs⟩⟩

theorem not_firstRefused_nil {kind : Kind} {payload : Bytes} {err : ProtocolError} :
    ¬ FirstRefused kind [] payload err := by
  rintro ⟨before, f, after, -, -, hl, -⟩
  simp at hl

theorem firstRefused_cons {kind : Kind} {f : Field} {fs : Layout} {payload : Bytes}
    {err : ProtocolError} : FirstRefused kind (f :: fs) payload err ↔
      Refused kind f fs payload err ∨ ∃ head rest, Bytes.cut 0 payload = some (head, rest) ∧
        f.type.WellFormed head ∧ FirstRefused kind fs rest err := by
  simp only [Bytes.cut_eq_some_iff]
  constructor
  · rintro ⟨before, f', after, parts, rest, hl, rfl, hparts, href⟩
    cases hparts with
    | nil =>
      obtain ⟨rfl, rfl⟩ : f = f' ∧ fs = after := by simpa using hl
      exact .inl href
    | cons hpart hparts =>
      next g part before parts =>
      obtain ⟨rfl, rfl⟩ : f = g ∧ fs = before ++ f' :: after := by simpa using hl
      exact .inr ⟨part, parts.flatMap (· ++ [0]) ++ rest, ⟨by simp, hpart.1⟩, hpart.2,
        before, f', after, parts, rest, rfl, rfl, hparts, href⟩
  · rintro (href | ⟨head, _, ⟨rfl, hclean⟩, hhead, before, f', after, parts, rest, rfl, rfl, hparts,
      href⟩)
    · exact ⟨[], f, fs, [], payload, rfl, rfl, .nil, href⟩
    · exact ⟨f :: before, f', after, head :: parts, rest, rfl, by simp,
        .cons ⟨hclean, hhead⟩ hparts, href⟩

theorem readField_eq_error_iff {kind : Kind} {f : Field} {part : Bytes} {err : ProtocolError} :
    readField kind f part = .error err ↔ ¬ f.type.WellFormed part ∧
      ((∀ s, part ≠ Utf8.encode s) ∧ err = .invalidUtf8 kind f.name ∨
        ∃ s, part = Utf8.encode s ∧ err = .invalidNumber kind f.name s) := by
  unfold readField
  split
  · next v hv => simp [FieldType.exists_read_iff.mp ⟨v, hv⟩]
  · next hfault =>
    obtain ⟨hwf, htext⟩ := FieldType.read_eq_error_iff.mp hfault
    have htext : ∀ s, part ≠ Utf8.encode s := htext
    simp [hwf, htext, eq_comm]
  · next s hfault =>
    obtain ⟨hwf, rfl⟩ := FieldType.read_eq_error_iff.mp hfault
    simp [hwf, Utf8.encode_inj, eq_comm]

theorem refused_iff {kind : Kind} {f : Field} {after : Layout} {rest : Bytes}
    {err : ProtocolError} : Refused kind f after rest err ↔
      (after ≠ [] ∧ 0 ∉ rest ∧ err = .missingField kind f.name) ∨
        ∃ part, Part after rest part ∧ readField kind f part = .error err := by
  simp only [readField_eq_error_iff]
  constructor
  · rintro (⟨hafter, hrest⟩ | ⟨hpart, hwf, htext⟩ | ⟨hpart, hwf⟩)
    · exact .inl ⟨hafter, hrest, rfl⟩
    · exact .inr ⟨_, hpart, hwf, .inl ⟨htext, rfl⟩⟩
    · exact .inr ⟨_, hpart, hwf, .inr ⟨_, rfl, rfl⟩⟩
  · rintro (⟨hafter, hrest, rfl⟩ | ⟨part, hpart, hwf, ⟨htext, rfl⟩ | ⟨s, rfl, rfl⟩⟩)
    · exact .missing hafter hrest
    · exact .notUtf8 hpart hwf htext
    · exact .notNumber hpart hwf

theorem part_nil {rest part : Bytes} : Part [] rest part ↔ part = rest := by simp [Part]

theorem part_cons {g : Field} {fs : Layout} {rest part : Bytes} :
    Part (g :: fs) rest part ↔ ∃ tail, Bytes.cut 0 rest = some (part, tail) := by
  simp [Part, Bytes.cut_eq_some_iff, and_comm]

/-- The reader stops at the field that it cuts off or at one behind it. -/
theorem read_cons_cons_eq_error_iff {kind : Kind} {f g : Field} {fs : Layout} {payload : Bytes}
    {err : ProtocolError} : read kind (f :: g :: fs) payload = .error err ↔
      (0 ∉ payload ∧ err = .missingField kind f.name) ∨
        ∃ head rest, Bytes.cut 0 payload = some (head, rest) ∧
          (readField kind f head = .error err ∨
            f.type.WellFormed head ∧ read kind (g :: fs) rest = .error err) := by
  rw [← Bytes.cut_eq_none_iff]
  cases hcut : Bytes.cut 0 payload with
  | none => simp [read, hcut, eq_comm]
  | some found =>
    obtain ⟨head, rest⟩ := found
    have hwf : f.type.WellFormed head ↔ ∃ v, readField kind f head = .ok v := by
      simp only [readField_eq_ok_iff, FieldType.exists_read_iff]
    cases hf : readField kind f head with
    | error err' => simp [read, hcut, hf, hwf, bind, Except.bind]
    | ok v =>
      cases hfs : read kind (g :: fs) rest <;>
        simp [read, hcut, hf, hfs, hwf, bind, Except.bind, pure, Except.pure]

/-- A payload that is not well formed is refused for the first field that is refused. -/
theorem read_eq_error_iff {kind : Kind} {l : Layout} {payload : Bytes} {err : ProtocolError} :
    l.read kind payload = .error err ↔ FirstRefused kind l payload err := by
  induction l generalizing payload with
  | nil => exact iff_of_false (by simp [read]) not_firstRefused_nil
  | cons f fs ih =>
    rw [firstRefused_cons, refused_iff]
    cases fs with
    | nil => simp [read, Except.map_eq_error_iff, part_nil, not_firstRefused_nil]
    | cons g fs =>
      rw [read_cons_cons_eq_error_iff]
      simp only [ih, part_cons, ne_eq, reduceCtorEq, not_false_eq_true, true_and]
      constructor
      · rintro (hmissing | ⟨head, rest, hcut, hf | hfs⟩)
        · exact .inl (.inl hmissing)
        · exact .inl (.inr ⟨head, ⟨rest, hcut⟩, hf⟩)
        · exact .inr ⟨head, rest, hcut, hfs⟩
      · rintro ((hmissing | ⟨head, ⟨rest, hcut⟩, hf⟩) | ⟨head, rest, hcut, hfs⟩)
        · exact .inl hmissing
        · exact .inr ⟨head, rest, hcut, .inl hf⟩
        · exact .inr ⟨head, rest, hcut, .inr hfs⟩

end Layout

/-! ### Packets -/

namespace Packet

/-- The octets are the header of a magic word, the number of a kind and the length of a payload,
and then that payload. -/
structure Framed (bytes : Bytes) (magic kind : UInt32) (payload : Bytes) : Prop where
  length_lt : payload.length < 2 ^ 32
  eq : bytes = Bytes.ofWord magic ++ Bytes.ofWord kind ++
    Bytes.ofWord (UInt32.ofNat payload.length) ++ payload

/-- The octets are framed, say a side and a kind, and hold the fields of that kind. -/
def Grammatical (bytes : Bytes) : Prop :=
  ∃ (m : Magic) (k : Kind) (payload : Bytes), Framed bytes m.code k.ordinal payload ∧
    k.layout.WellFormed payload

/-- The first thing that is wrong with octets: their frame, the magic word, the kind, or a field. -/
inductive FirstFault (bytes : Bytes) : ProtocolError → Prop
  | truncated : (∀ magic kind payload, ¬ Framed bytes magic kind payload) →
      FirstFault bytes (.truncated bytes.length)
  | unknownMagic {magic kind : UInt32} {payload : Bytes} : Framed bytes magic kind payload →
      (∀ m : Magic, m.code ≠ magic) → FirstFault bytes (.unknownMagic magic)
  | unknownKind {m : Magic} {kind : UInt32} {payload : Bytes} :
      Framed bytes m.code kind payload → (∀ k : Kind, k.ordinal ≠ kind) →
      FirstFault bytes (.unknownKind kind)
  | field {m : Magic} {k : Kind} {payload : Bytes} {err : ProtocolError} :
      Framed bytes m.code k.ordinal payload → k.layout.FirstRefused k payload err →
      FirstFault bytes err

theorem framed_iff {bytes payload : Bytes} {magic kind : UInt32} :
    Framed bytes magic kind payload ↔
      header? bytes = some (magic, kind, payload.length, payload) := by
  constructor
  · rintro ⟨hlt, rfl⟩
    have hlength : (UInt32.ofNat payload.length).toNat = payload.length := by
      rw [UInt32.toNat_ofNat', Nat.mod_eq_of_lt hlt]
    simp [header?, hlength]
  · exact fun hheader => ⟨(eq_of_header? hheader).1, (eq_of_header? hheader).2⟩

theorem ofBytes_of_framed {bytes payload : Bytes} {magic kind : UInt32}
    (h : Framed bytes magic kind payload) : ofBytes bytes = ofParts magic kind payload := by
  simp [ofBytes, framed_iff.mp h]

theorem ofBytes_of_not_framed {bytes : Bytes}
    (h : ∀ magic kind payload, ¬ Framed bytes magic kind payload) :
    ofBytes bytes = .error (.truncated bytes.length) := by
  unfold ofBytes
  split
  · rfl
  · next magic kind length payload hheader =>
    refine if_neg fun hlength => h magic kind payload (framed_iff.mpr ?_)
    rw [hlength, hheader]

/-- A magic word, a number of a kind and a payload are read when both are known and the payload
holds the fields of the kind. -/
theorem exists_ofParts_iff {magic kind : UInt32} {payload : Bytes} :
    (∃ p, ofParts magic kind payload = .ok p) ↔ ∃ (m : Magic) (k : Kind), m.code = magic ∧
      k.ordinal = kind ∧ k.layout.WellFormed payload := by
  constructor
  · rintro ⟨p, hp⟩
    obtain ⟨hmagic, hkind, hbody⟩ := ofParts_eq_ok hp
    exact ⟨p.magic, p.body.kind, hmagic, Kind.ordinal_of_ofOrdinal? hkind,
      Layout.exists_read_iff.mp ⟨_, Body.ofPayload_eq_ok_iff.mp hbody⟩⟩
  · rintro ⟨m, k, rfl, rfl, hwf⟩
    obtain ⟨v, hv⟩ : ∃ v, k.layout.read k payload = .ok v := Layout.exists_read_iff.mpr hwf
    exact ⟨⟨m, Body.ofValues k v⟩, by simp [ofParts, Body.ofPayload, hv, Except.map]⟩

/-- Otherwise the magic word is blamed first, then the number, and then a field. -/
theorem ofParts_eq_error_iff {magic kind : UInt32} {payload : Bytes} {err : ProtocolError} :
    ofParts magic kind payload = .error err ↔
      ((∀ m : Magic, m.code ≠ magic) ∧ err = .unknownMagic magic) ∨
        ∃ m : Magic, m.code = magic ∧
          (((∀ k : Kind, k.ordinal ≠ kind) ∧ err = .unknownKind kind) ∨
            ∃ k : Kind, k.ordinal = kind ∧ k.layout.FirstRefused k payload err) := by
  simp only [← Layout.read_eq_error_iff]
  cases hm : Magic.ofCode? magic with
  | none =>
    have hmagic : ∀ m : Magic, m.code ≠ magic := by
      rintro m rfl
      simp at hm
    simp [ofParts, hm, hmagic, eq_comm]
  | some m =>
    obtain rfl := Magic.code_of_ofCode? hm
    cases hk : Kind.ofOrdinal? kind with
    | none =>
      have hkind : ∀ k : Kind, k.ordinal ≠ kind := by
        rintro k rfl
        simp at hk
      simp only [ofParts, hm, hk, Except.error.injEq]
      constructor
      · exact fun herr => .inr ⟨m, rfl, .inl ⟨hkind, herr.symm⟩⟩
      · rintro (⟨hmagic, -⟩ | ⟨-, -, ⟨-, rfl⟩ | ⟨k, hk', -⟩⟩)
        · exact absurd rfl (hmagic m)
        · rfl
        · exact absurd hk' (hkind k)
    | some k =>
      obtain rfl := Kind.ordinal_of_ofOrdinal? hk
      simp only [ofParts, hm, hk, Except.map_eq_error_iff, Body.ofPayload]
      constructor
      · exact fun herr => .inr ⟨m, rfl, .inr ⟨k, rfl, herr⟩⟩
      · rintro (⟨hmagic, -⟩ | ⟨m', -, ⟨hkind, -⟩ | ⟨k', hk', herr⟩⟩)
        · exact absurd rfl (hmagic m)
        · exact absurd rfl (hkind k)
        · obtain rfl : k = k' := by simpa [hk', hk] using Kind.ofOrdinal?_ordinal k'
          exact herr

/-- Octets are read as a packet exactly when they are grammatical, and otherwise refused for the
first thing that is wrong with them. -/
theorem ofBytes_grammar (bytes : Bytes) :
    ((∃ p, ofBytes bytes = .ok p) ↔ Grammatical bytes) ∧
      ∀ err, ofBytes bytes = .error err ↔ FirstFault bytes err := by
  by_cases hframed : ∃ magic kind payload, Framed bytes magic kind payload
  · obtain ⟨magic, kind, payload, h⟩ := hframed
    -- octets are framed in one way only
    have hinj : ∀ {magic' kind' payload'}, Framed bytes magic' kind' payload' →
        magic' = magic ∧ kind' = kind ∧ payload' = payload := by
      intro magic' kind' payload' h'
      have hheader := (framed_iff.mp h').symm.trans (framed_iff.mp h)
      simp only [Option.some.injEq, Prod.mk.injEq] at hheader
      exact ⟨hheader.1, hheader.2.1, hheader.2.2.2⟩
    rw [ofBytes_of_framed h]
    refine ⟨exists_ofParts_iff.trans ⟨?_, ?_⟩, fun err => ofParts_eq_error_iff.trans ⟨?_, ?_⟩⟩
    · rintro ⟨m, k, rfl, rfl, hfields⟩
      exact ⟨m, k, payload, h, hfields⟩
    · rintro ⟨m, k, payload', h', hfields⟩
      obtain ⟨hmagic, hkind, rfl⟩ := hinj h'
      exact ⟨m, k, hmagic, hkind, hfields⟩
    · rintro (⟨hmagic, rfl⟩ | ⟨m, rfl, ⟨hkind, rfl⟩ | ⟨k, rfl, hfield⟩⟩)
      · exact .unknownMagic h hmagic
      · exact .unknownKind h hkind
      · exact .field h hfield
    · rintro (hnone | ⟨h', hmagic⟩ | ⟨h', hkind⟩ | ⟨h', hfield⟩)
      · exact absurd h (hnone magic kind payload)
      · obtain ⟨rfl, rfl, rfl⟩ := hinj h'
        exact .inl ⟨hmagic, rfl⟩
      · obtain ⟨hmagic, rfl, rfl⟩ := hinj h'
        exact .inr ⟨_, hmagic, .inl ⟨hkind, rfl⟩⟩
      · obtain ⟨hmagic, hkind, rfl⟩ := hinj h'
        exact .inr ⟨_, hmagic, .inr ⟨_, hkind, hfield⟩⟩
  · simp only [not_exists] at hframed
    rw [ofBytes_of_not_framed hframed]
    refine ⟨iff_of_false (by simp) fun ⟨m, k, payload, h, _⟩ => hframed _ _ payload h, ?_⟩
    intro err
    constructor
    · rintro ⟨⟩
      exact .truncated hframed
    · rintro (_ | ⟨h, _⟩ | ⟨h, _⟩ | ⟨h, _⟩)
      · rfl
      all_goals exact absurd h (hframed _ _ _)

end Packet

end JobBroker
