import JobBroker.Proofs.Frame.Units
import JobBroker.Proofs.Packet.Canonical

/-!
# What is left in the buffer

Between two reads the buffer of a decoder holds what no step can use yet: the first octets of a
header, a line without its end, or a part of an announced payload. Together with the header that was
taken off before it, this is what the stream has behind its last whole unit (`Stands`), and because
a stream falls into units in one way only (`units_append_inj`) it is nothing exactly when the stream
ends with a unit.

* `steps_step` : all that a step can find, and what stands in the buffer then.
* `nextWithin_length` : how many steps it takes to find the next event.
* `residue_calls` : what is left whenever nothing more is found, however the stream is fed.
-/

namespace JobBroker

namespace StreamUnit

/-- The unit can be told from what follows it, however long it is. -/
def Whole : StreamUnit → Prop
  | packet magic _ payload => magic.toNat < 16777216 ∧ payload.length < UInt32.size
  | line text => text.head? ≠ some 0 ∧ 10 ∉ text

/-- The octets are some whole units, one after the other. -/
def Units (bytes : Bytes) : Prop :=
  ∃ us : List StreamUnit, (∀ u ∈ us, u.Whole) ∧ bytes = us.flatMap toBytes

/-- What stands before the payload of a packet. -/
def head (magic kind : UInt32) (length : Nat) : Bytes :=
  Bytes.ofWord magic ++ Bytes.ofWord kind ++ Bytes.ofWord (UInt32.ofNat length)

@[simp] theorem length_head (magic kind : UInt32) (length : Nat) :
    (head magic kind length).length = 12 := rfl

theorem head?_head {magic : UInt32} (h : magic.toNat < 16777216) (kind : UInt32) (length : Nat)
    (rest : Bytes) : (head magic kind length ++ rest).head? = some 0 := by
  have hfirst : UInt8.ofNat (magic.toNat / 16777216) = 0 := by
    rw [Nat.div_eq_of_lt h]
    rfl
  rw [head, Bytes.ofWord, hfirst]
  rfl

theorem header?_head (magic kind : UInt32) {length : Nat} (h : length < UInt32.size)
    (rest : Bytes) :
    Packet.header? (head magic kind length ++ rest) = some (magic, kind, length, rest) := by
  have hlength : (UInt32.ofNat length).toNat = length := by
    rw [UInt32.toNat_ofNat', Nat.mod_eq_of_lt h]
  simp [head, Packet.header?, hlength]

theorem toBytes_packet (magic kind : UInt32) (payload : Bytes) :
    (packet magic kind payload).toBytes = head magic kind payload.length ++ payload := rfl

theorem head?_line {text : Bytes} (h : (line text).Whole) (rest : Bytes) :
    ((line text).toBytes ++ rest).head? ≠ some 0 := by
  cases text with
  | nil => simp [toBytes]
  | cons b text => simpa [toBytes] using h.1

/-! ### One way to fall into units -/

theorem toBytes_append_inj {u v : StreamUnit} (hu : u.Whole) (hv : v.Whole) {rest rest' : Bytes}
    (h : u.toBytes ++ rest = v.toBytes ++ rest') : u = v ∧ rest = rest' := by
  cases u with
  | packet magic kind payload =>
    cases v with
    | packet magic' kind' payload' =>
      rw [toBytes_packet, toBytes_packet, List.append_assoc, List.append_assoc] at h
      have hheader := header?_head magic kind hu.2 (payload ++ rest)
      rw [h, header?_head magic' kind' hv.2] at hheader
      simp only [Option.some.injEq, Prod.mk.injEq] at hheader
      obtain ⟨rfl, rfl, hlength, hrest⟩ := hheader
      obtain ⟨rfl, rfl⟩ := List.append_inj hrest hlength
      exact ⟨rfl, rfl⟩
    | line text' =>
      refine absurd ?_ (head?_line hv rest')
      rw [← h, toBytes_packet, List.append_assoc]
      exact head?_head hu.1 ..
  | line text =>
    cases v with
    | packet magic' kind' payload' =>
      refine absurd ?_ (head?_line hu rest)
      rw [h, toBytes_packet, List.append_assoc]
      exact head?_head hv.1 ..
    | line text' =>
      simp only [toBytes, List.append_assoc, List.singleton_append] at h
      have hcut : Bytes.cut 10 (text ++ 10 :: rest) = some (text, rest) :=
        Bytes.cut_eq_some_iff.mpr ⟨rfl, hu.2⟩
      rw [Bytes.cut_eq_some_iff.mpr ⟨h, hv.2⟩] at hcut
      simp only [Option.some.injEq, Prod.mk.injEq] at hcut
      exact ⟨congrArg line hcut.1.symm, hcut.2.symm⟩

theorem toBytes_ne_nil (u : StreamUnit) : u.toBytes ≠ [] := by
  cases u <;> simp [toBytes, Bytes.ofWord]

/-- Units at the start of a stream of units are the first of these. -/
theorem units_append_inj {us vs : List StreamUnit} (hus : ∀ u ∈ us, u.Whole)
    (hvs : ∀ v ∈ vs, v.Whole) {rest : Bytes}
    (h : us.flatMap toBytes ++ rest = vs.flatMap toBytes) : Units rest := by
  induction us generalizing vs with
  | nil => exact ⟨vs, hvs, h⟩
  | cons u us ih =>
    cases vs with
    | nil =>
      simp only [List.flatMap_cons, List.flatMap_nil, List.append_eq_nil_iff] at h
      exact absurd h.1.1 (toBytes_ne_nil u)
    | cons v vs =>
      rw [List.flatMap_cons, List.flatMap_cons, List.append_assoc] at h
      obtain ⟨-, hrest⟩ := toBytes_append_inj (hus u (by simp)) (hvs v (by simp)) h
      exact ih (fun u' hu' => hus u' (List.mem_cons_of_mem u hu'))
        (fun v' hv' => hvs v' (List.mem_cons_of_mem v hv')) hrest

end StreamUnit

namespace Decoder

open StreamUnit (Units Whole head)

/-! ### What a step finds -/

/-- The ways in which a step goes, and what stands in the buffer for each of them. -/
inductive Steps : Decoder → Step → Prop
  | empty {limits} : Steps ⟨limits, .header, []⟩ .wait
  | openHeader {limits rest} (hshort : (0 :: rest).length < 12) :
      Steps ⟨limits, .header, 0 :: rest⟩ .wait
  | openLine {limits text} (hfirst : text.head? ≠ some 0) (hopen : 10 ∉ text)
      (hlimit : text.length ≤ limits.line) : Steps ⟨limits, .header, text⟩ .wait
  | openPayload {limits magic kind length buffer} (hshort : buffer.length < length) :
      Steps ⟨limits, .payload magic kind length, buffer⟩ .wait
  | header {limits magic kind length rest} (hmagic : magic.toNat < 16777216)
      (hlimit : length ≤ limits.payload) (hsize : length < UInt32.size) :
      Steps ⟨limits, .header, head magic kind length ++ rest⟩
        (.advance ⟨limits, .payload magic kind length, rest⟩)
  | blank {limits text rest} (hwhole : (StreamUnit.line text).Whole) :
      Steps ⟨limits, .header, (StreamUnit.line text).toBytes ++ rest⟩
        (.advance ⟨limits, .header, rest⟩)
  | line {limits text rest f} (hwhole : (StreamUnit.line text).Whole) :
      Steps ⟨limits, .header, (StreamUnit.line text).toBytes ++ rest⟩
        (.emit (.frame f) ⟨limits, .header, rest⟩)
  | payload {limits magic kind payload rest e} :
      Steps ⟨limits, .payload magic kind payload.length, payload ++ rest⟩
        (.emit e ⟨limits, .header, rest⟩)
  | fatal {d d' e} (hfatal : e.isFatal = true) : Steps d (.emit e d')

variable {limits : Limits} {d d' : Decoder} {e : Event}

theorem word?_isSome (bytes : Bytes) (h : 4 ≤ bytes.length) :
    ∃ w rest, Bytes.word? bytes = some (w, rest) ∧ bytes.length = rest.length + 4 := by
  match bytes, h with
  | a :: b :: c :: d :: rest, _ => exact ⟨_, rest, rfl, rfl⟩

/-- A header is read as soon as its octets are there. -/
theorem length_of_header?_none {bytes : Bytes} (h : Packet.header? bytes = none) :
    bytes.length < 12 := by
  by_contra hlong
  obtain ⟨_, bytes₁, h₁, hl₁⟩ := word?_isSome bytes (by omega)
  obtain ⟨_, bytes₂, h₂, hl₂⟩ := word?_isSome bytes₁ (by omega)
  obtain ⟨_, bytes₃, h₃, -⟩ := word?_isSome bytes₂ (by omega)
  simp [Packet.header?, h₁, h₂, h₃] at h

theorem magic_lt_of_head? {magic kind : UInt32} {length : Nat} {rest : Bytes}
    (h : (head magic kind length ++ rest).head? = some 0) : magic.toNat < 16777216 := by
  have hfirst : UInt8.ofNat (magic.toNat / 16777216) = 0 := Option.some.inj h
  have hmagic := magic.toNat_lt
  have hzero := congrArg UInt8.toNat hfirst
  rw [UInt8.toNat_ofNat', UInt8.toNat_zero] at hzero
  omega

theorem steps_stepHeader {rest : Bytes} :
    Steps ⟨limits, .header, 0 :: rest⟩ (stepHeader ⟨limits, .header, 0 :: rest⟩) := by
  unfold stepHeader
  split
  · next hnone => exact .openHeader (length_of_header?_none hnone)
  · next magic kind length tail hsome =>
    obtain ⟨hsize, hbytes⟩ := Packet.eq_of_header? hsome
    split
    · exact .fatal rfl
    · next hlimit =>
      have hzero : (head magic kind length ++ tail).head? = some 0 := by
        rw [head, ← hbytes]
        rfl
      have hmagic : magic.toNat < 16777216 := magic_lt_of_head? hzero
      change Steps ⟨limits, .header, 0 :: rest⟩ _
      rw [show 0 :: rest = head magic kind length ++ tail from hbytes]
      exact .header hmagic (Nat.le_of_not_lt hlimit) hsize

theorem steps_stepLine {buffer : Bytes} (hfirst : buffer.head? ≠ some 0) :
    Steps ⟨limits, .header, buffer⟩ (stepLine ⟨limits, .header, buffer⟩) := by
  unfold stepLine
  split
  · next hnone =>
    split
    · exact .fatal rfl
    · next hlimit =>
      exact .openLine hfirst (Bytes.cut_eq_none_iff.mp hnone) (Nat.le_of_not_lt hlimit)
  · next text rest hsome =>
    obtain ⟨hbytes, hfree⟩ := Bytes.cut_eq_some_iff.mp hsome
    obtain rfl : buffer = (StreamUnit.line text).toBytes ++ rest := by
      simpa [StreamUnit.toBytes] using hbytes
    have hwhole : (StreamUnit.line text).Whole := by
      refine ⟨fun h => hfirst ?_, hfree⟩
      rw [StreamUnit.toBytes, List.append_assoc, List.head?_append, h]
      rfl
    split
    · exact .fatal rfl
    · split
      · exact .blank hwhole
      · exact .line hwhole

theorem steps_step (d : Decoder) : Steps d d.step := by
  obtain ⟨limits, awaiting, buffer⟩ := d
  cases awaiting with
  | payload magic kind length =>
    by_cases hshort : buffer.length < length
    · rw [show step ⟨limits, .payload magic kind length, buffer⟩ = .wait by simp [step, hshort]]
      exact .openPayload hshort
    · obtain ⟨payload, rest, rfl, rfl⟩ : ∃ payload rest, buffer = payload ++ rest ∧
          length = payload.length :=
        ⟨buffer.take length, buffer.drop length, (List.take_append_drop ..).symm,
          by rw [List.length_take]; omega⟩
      rw [step_payload]
      exact .payload
  | header =>
    cases buffer with
    | nil => exact .empty
    | cons b rest =>
      by_cases hb : b = 0
      · subst hb
        exact steps_stepHeader
      · rw [show step ⟨limits, .header, b :: rest⟩ = stepLine ⟨limits, .header, b :: rest⟩ by
          simp [step, hb]]
        exact steps_stepLine (by simpa using hb)

/-! ### How many steps to an event -/

/-- What is found in so many steps. -/
def nextWithin : Nat → Decoder → Option (Option Event × Decoder)
  | 0, _ => none
  | n + 1, d =>
    match d.step with
    | .wait => some (none, d)
    | .advance d' => nextWithin n d'
    | .emit e d' => some (some e, d')

theorem nextWithin_of_weight {n : Nat} (h : d.weight < n) : nextWithin n d = some d.next := by
  induction n generalizing d with
  | zero => exact absurd h (Nat.not_lt_zero _)
  | succ n ih =>
    unfold nextWithin
    cases hs : d.step with
    | wait => rw [next_of_wait hs]
    | advance d' =>
      have hless := weight_lt_of_advance hs
      rw [next_of_advance hs]
      exact ih (by omega)
    | emit e d' => rw [next_of_emit hs]

/-- No more steps than two for each octet and two besides. -/
theorem nextWithin_length (d : Decoder) :
    nextWithin (2 * d.buffer.length + 2) d = some d.next := by
  apply nextWithin_of_weight
  unfold weight
  split <;> omega

/-! ### What the stream has behind its last unit -/

/-- The octets that the decoder has before it, with those of a header that it took off already. -/
def pending (d : Decoder) : Bytes :=
  match d.awaiting with
  | .header => d.buffer
  | .payload magic kind length => head magic kind length ++ d.buffer

/-- The decoder has read a stream up to the end of some unit, and stands before the rest of it. -/
structure Stands (limits : Limits) (fed : Bytes) (d : Decoder) : Prop where
  limits_eq : d.limits = limits
  units : ∃ us : List StreamUnit, (∀ u ∈ us, u.Whole) ∧
    fed = us.flatMap StreamUnit.toBytes ++ d.pending
  announced : ∀ {magic kind length}, d.awaiting = .payload magic kind length →
    magic.toNat < 16777216 ∧ length ≤ limits.payload ∧ length < UInt32.size

variable {fed : Bytes}

theorem stands_new (limits : Limits) : Stands limits [] (new limits) where
  limits_eq := rfl
  units := ⟨[], by simp, rfl⟩
  announced h := absurd h (by simp [new])

theorem pending_feed (d : Decoder) (bytes : Bytes) :
    (d.feed bytes).pending = d.pending ++ bytes := by
  obtain ⟨limits, awaiting, buffer⟩ := d
  cases awaiting with
  | header => rfl
  | payload magic kind length => exact (List.append_assoc ..).symm

theorem Stands.feed (h : Stands limits fed d) (bytes : Bytes) :
    Stands limits (fed ++ bytes) (d.feed bytes) where
  limits_eq := h.limits_eq
  units := by
    obtain ⟨us, hus, rfl⟩ := h.units
    exact ⟨us, hus, by rw [pending_feed, List.append_assoc]⟩
  announced := h.announced

/-- A unit that is taken off is one more of those that were read. -/
theorem Stands.concat (h : Stands limits fed d) {u : StreamUnit} (hu : u.Whole) {rest : Bytes}
    (hpending : d.pending = u.toBytes ++ rest) : Stands limits fed ⟨limits, .header, rest⟩ where
  limits_eq := rfl
  units := by
    obtain ⟨us, hus, rfl⟩ := h.units
    refine ⟨us ++ [u], fun v hv => ?_, ?_⟩
    · rcases List.mem_append.mp hv with hv | hv
      · exact hus v hv
      · exact List.mem_singleton.mp hv ▸ hu
    · rw [hpending, List.flatMap_append, List.flatMap_singleton, List.append_assoc]
      rfl
  announced h := absurd h (by simp)

theorem Stands.advance (h : Stands limits fed d) (hs : d.step = .advance d') :
    Stands limits fed d' := by
  have hsteps := steps_step d
  rw [hs] at hsteps
  obtain rfl := h.limits_eq
  cases hsteps with
  | header hmagic hlimit hsize =>
    refine ⟨rfl, h.units, fun hawaiting => ?_⟩
    obtain ⟨rfl, rfl, rfl⟩ := Awaiting.payload.inj hawaiting
    exact ⟨hmagic, hlimit, hsize⟩
  | blank hwhole => exact h.concat hwhole rfl

theorem Stands.emit (h : Stands limits fed d) (hs : d.step = .emit e d')
    (he : e.isFatal = false) : Stands limits fed d' := by
  have hsteps := steps_step d
  rw [hs] at hsteps
  obtain rfl := h.limits_eq
  cases hsteps with
  | line hwhole => exact h.concat hwhole rfl
  | @payload _ magic kind payload rest _ =>
    obtain ⟨hmagic, -, hsize⟩ := h.announced rfl
    have hpacket : (StreamUnit.packet magic kind payload).Whole := ⟨hmagic, hsize⟩
    refine h.concat hpacket ?_
    rw [StreamUnit.toBytes_packet, List.append_assoc]
    rfl
  | fatal hfatal => exact absurd (hfatal.symm.trans he) (by simp)

theorem Stands.next (h : Stands limits fed d) (hquiet : ∀ e ∈ d.next.1, e.isFatal = false) :
    Stands limits fed d.next.2 := by
  fun_induction Decoder.next d with
  | case1 d hs => exact h
  | case2 d d₁ hs ih => exact ih (h.advance hs) hquiet
  | case3 d e d₁ hs => exact h.emit hs (hquiet e rfl)

/-- What a buffer may hold when nothing can be taken off it. -/
def Residue (d : Decoder) : Prop :=
  match d.awaiting with
  | .header => d.buffer = [] ∨ d.buffer.head? = some 0 ∧ d.buffer.length < 12 ∨
      d.buffer.head? ≠ some 0 ∧ d.buffer.length ≤ d.limits.line ∧ 10 ∉ d.buffer
  | .payload _ _ length => d.buffer.length < length ∧ length ≤ d.limits.payload

theorem Stands.residue (h : Stands limits fed d) (hs : d.step = .wait) : d.Residue := by
  have hsteps := steps_step d
  rw [hs] at hsteps
  obtain rfl := h.limits_eq
  cases hsteps with
  | empty => exact .inl rfl
  | openHeader hshort => exact .inr (.inl ⟨rfl, hshort⟩)
  | openLine hfirst hopen hlimit => exact .inr (.inr ⟨hfirst, hlimit, hopen⟩)
  | openPayload hshort => exact ⟨hshort, (h.announced rfl).2.1⟩

/-- No unit begins what is left. -/
theorem Residue.not_unit (h : d.Residue)
    (hannounced : ∀ {magic kind length}, d.awaiting = .payload magic kind length →
      magic.toNat < 16777216 ∧ length < UInt32.size)
    {u : StreamUnit} (hu : u.Whole) (rest : Bytes) : d.pending ≠ u.toBytes ++ rest := by
  obtain ⟨limits, awaiting, buffer⟩ := d
  intro hp
  cases awaiting with
  | header =>
    obtain rfl : buffer = u.toBytes ++ rest := hp
    rcases h with h | ⟨hfirst, hshort⟩ | ⟨hfirst, -, hopen⟩
    · exact StreamUnit.toBytes_ne_nil u (List.append_eq_nil_iff.mp h).1
    · cases u with
      | packet magic kind payload =>
        simp only [StreamUnit.toBytes_packet, List.length_append, StreamUnit.length_head] at hshort
        omega
      | line text => exact StreamUnit.head?_line hu rest hfirst
    · cases u with
      | packet magic kind payload =>
        rw [StreamUnit.toBytes_packet, List.append_assoc] at hfirst
        exact hfirst (StreamUnit.head?_head hu.1 ..)
      | line text => exact hopen (by simp [StreamUnit.toBytes])
  | payload magic kind length =>
    have hp : head magic kind length ++ buffer = u.toBytes ++ rest := hp
    obtain ⟨hmagic, hsize⟩ := hannounced rfl
    cases u with
    | packet magic' kind' payload =>
      rw [StreamUnit.toBytes_packet, List.append_assoc] at hp
      have hheader := StreamUnit.header?_head magic kind hsize buffer
      rw [hp, StreamUnit.header?_head magic' kind' hu.2] at hheader
      simp only [Option.some.injEq, Prod.mk.injEq] at hheader
      obtain ⟨-, -, hlength, hbuffer⟩ := hheader
      have hshort : buffer.length < length := h.1
      rw [← hbuffer, List.length_append] at hshort
      omega
    | line text =>
      exact StreamUnit.head?_line hu rest (hp ▸ StreamUnit.head?_head hmagic kind length buffer)

/-- What was fed are whole units exactly when nothing of it is left. -/
theorem Stands.units_iff (h : Stands limits fed d) (hs : d.step = .wait) :
    Units fed ↔ d.isClean = true := by
  have hclean : d.isClean = true ↔ d.pending = [] := by
    obtain ⟨limits, awaiting, buffer⟩ := d
    cases awaiting <;> simp [isClean, pending, head, Bytes.ofWord]
  rw [hclean]
  obtain ⟨us, hus, rfl⟩ := h.units
  constructor
  · rintro ⟨vs, hvs, hfed⟩
    obtain ⟨ws, hws, hpending⟩ := StreamUnit.units_append_inj hus hvs hfed
    cases ws with
    | nil => exact hpending
    | cons w ws =>
      refine absurd hpending ((h.residue hs).not_unit (fun ha => ?_) (hws w (by simp)) _)
      exact ⟨(h.announced ha).1, (h.announced ha).2.2⟩
  · intro hnil
    exact ⟨us, hus, by rw [hnil, List.append_nil]⟩

/-! ### Feeding and reading in any order -/

/-- One call of a decoder. -/
inductive Call
  | feed (bytes : Bytes)
  | next
deriving DecidableEq, Repr

def call (d : Decoder) : Call → Decoder
  | .feed bytes => d.feed bytes
  | .next => d.next.2

def calls (d : Decoder) (cs : List Call) : Decoder :=
  cs.foldl call d

/-- The events that calls return, in their order. -/
def found (d : Decoder) : List Call → List Event
  | [] => []
  | .feed bytes :: cs => (d.feed bytes).found cs
  | .next :: cs => d.next.1.toList ++ d.next.2.found cs

/-- All octets that calls feed. -/
def fedBy : List Call → Bytes
  | [] => []
  | .feed bytes :: cs => bytes ++ fedBy cs
  | .next :: cs => fedBy cs

theorem Stands.calls (h : Stands limits fed d) {cs : List Call}
    (hquiet : ∀ e ∈ d.found cs, e.isFatal = false) :
    Stands limits (fed ++ fedBy cs) (d.calls cs) := by
  induction cs generalizing d fed with
  | nil => rwa [fedBy, List.append_nil]
  | cons c cs ih =>
    cases c with
    | feed bytes =>
      rw [fedBy, ← List.append_assoc]
      exact ih (h.feed bytes) hquiet
    | next =>
      have hnext : ∀ e ∈ d.next.1, e.isFatal = false := fun e he =>
        hquiet e (List.mem_append_left _ (Option.mem_toList.mpr he))
      exact ih (h.next hnext) fun e he => hquiet e (List.mem_append_right _ he)

/-- A decoder is fed and read from in any order. Every read comes to an end; and when one has found
nothing, with no fatal event before it, no more is left in the buffer than the part of a header, of
a line within the limit or of an announced payload within the limit, and at the end of the stream
nothing is wrong exactly when all that was fed are whole units. -/
theorem residue_calls (limits : Limits) (cs : List Call) :
    nextWithin (2 * ((new limits).calls cs).buffer.length + 2) ((new limits).calls cs) =
        some ((new limits).calls cs).next ∧
      ∀ d, (∀ e ∈ (new limits).found cs, e.isFatal = false) →
        ((new limits).calls cs).next = (none, d) →
        d.limits = limits ∧ d.Residue ∧ (d.finish = ([], d) ↔ Units (fedBy cs)) ∧
          (¬ Units (fedBy cs) → d.finish = ([.error (.truncated d.buffer.length)], d)) := by
  refine ⟨nextWithin_length _, fun d hquiet hnone => ?_⟩
  have hwait := step_of_next_none hnone
  have hstands : Stands limits (fedBy cs) d := by
    have hnext := ((stands_new limits).calls hquiet).next (by simp [hnone])
    rwa [hnone, List.nil_append] at hnext
  refine ⟨hstands.limits_eq, hstands.residue hwait, ?_, fun hcut => ?_⟩
  · rw [hstands.units_iff hwait, finish, drain_of_wait hwait]
    cases hclean : d.isClean <;> simp [hclean]
  · rw [hstands.units_iff hwait, Bool.not_eq_true] at hcut
    simp [finish, drain_of_wait hwait, hcut]

/-- A line, a blank line, and a packet that ends one octet before its announced length. -/
theorem residue_calls_short_payload :
    let stream : Bytes :=
      [104, 105, 10, 10, 0, 0x52, 0x45, 0x51, 0, 0, 0, 16, 0, 0, 0, 3, 1, 2]
    let d : Decoder := ⟨⟨4, 2⟩, .payload 0x00524551 16 3, [1, 2]⟩
    ((new ⟨4, 2⟩).calls [.feed stream, .next]).next = (none, d) ∧ d.Residue ∧
      d.finish = ([.error (.truncated 2)], d) ∧ ¬ Units stream := by
  intro stream d
  have hquiet : ∀ e ∈ (new ⟨4, 2⟩).found [.feed stream, .next], e.isFatal = false := by
    decide +kernel
  have hnone : ((new ⟨4, 2⟩).calls [.feed stream, .next]).next = (none, d) := by decide +kernel
  have hfinish : d.finish = ([.error (.truncated 2)], d) := by decide +kernel
  obtain ⟨-, hresidue, hwhole, -⟩ := (residue_calls _ _).2 d hquiet hnone
  refine ⟨hnone, hresidue, hfinish, fun hunits => ?_⟩
  have hclean := hwhole.mpr (by simpa [fedBy] using hunits)
  exact absurd (hfinish.symm.trans hclean) (by simp)

end Decoder

end JobBroker
