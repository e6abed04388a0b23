import JobBroker.Frame.Decoder

/-!
# Reading a stream in chunks

A stream comes in chunks that may be cut anywhere. What the decoder finds in it does not depend on
the cuts: a step that has enough octets does the same when more of them follow (`step_feed`), so
draining the octets that are there and draining the rest later is draining them all (`drain_feed`).

* `readChunks_eq_drain` : reading chunks gives what draining the whole stream at once gives.
* `readChunks_congr` : two ways to cut one stream give the same events up to the first fatal one,
  and the same decoder when there is none.
-/

namespace JobBroker.Decoder

/-- Takes chunks in one after the other, and after each of them the events that are then complete,
up to the first fatal one. -/
def readChunks (d : Decoder) : List Bytes → List Event × Decoder
  | [] => ([], d)
  | c :: cs =>
    let (events, d) := (d.feed c).drain
    if events.any Event.isFatal then (events, d)
    else
      let (rest, d) := d.readChunks cs
      (events ++ rest, d)

/-! ### A step with more octets behind it -/

section Step

variable {d d' : Decoder} {e : Event}

@[simp] theorem feed_nil (d : Decoder) : d.feed [] = d := by simp [feed]

theorem feed_append (d : Decoder) (a b : Bytes) : d.feed (a ++ b) = (d.feed a).feed b := by
  simp [feed]

/-- What a step finds when `b` has come as well. -/
def Step.feed (b : Bytes) : Step → Step
  | .wait => .wait
  | .advance d => .advance (d.feed b)
  | .emit e d => .emit e (d.feed b)

theorem word?_append {a rest : Bytes} {w : UInt32} (h : Bytes.word? a = some (w, rest))
    (b : Bytes) : Bytes.word? (a ++ b) = some (w, rest ++ b) := by
  unfold Bytes.word? at h
  split at h
  · simp only [Option.some.injEq, Prod.mk.injEq] at h
    obtain ⟨rfl, rfl⟩ := h
    rfl
  · exact absurd h (by simp)

theorem header?_append {a rest : Bytes} {magic kind : UInt32} {length : Nat}
    (h : Packet.header? a = some (magic, kind, length, rest)) (b : Bytes) :
    Packet.header? (a ++ b) = some (magic, kind, length, rest ++ b) := by
  simp only [Packet.header?, bind, Option.bind_eq_some_iff, Prod.exists] at h ⊢
  obtain ⟨_, _, h₁, _, _, h₂, _, _, h₃, h₄⟩ := h
  simp only [pure, Option.some.injEq, Prod.mk.injEq] at h₄ ⊢
  obtain ⟨rfl, rfl, rfl, rfl⟩ := h₄
  exact ⟨_, _, word?_append h₁ b, _, _, word?_append h₂ b, _, _, word?_append h₃ b, rfl, rfl, rfl,
    rfl⟩

theorem stepHeader_feed (h : d.stepHeader ≠ .wait) (b : Bytes) :
    (d.feed b).stepHeader = d.stepHeader.feed b := by
  cases hh : Packet.header? d.buffer with
  | none => exact absurd (by simp [stepHeader, hh]) h
  | some found =>
    obtain ⟨magic, kind, length, rest⟩ := found
    have hb : Packet.header? (d.feed b).buffer = some (magic, kind, length, rest ++ b) :=
      header?_append hh b
    simp only [stepHeader, hh, hb]
    by_cases hl : d.limits.payload < length
    · rw [if_pos hl, if_pos (show (d.feed b).limits.payload < length from hl)]
      rfl
    · rw [if_neg hl, if_neg (show ¬ (d.feed b).limits.payload < length from hl)]
      rfl

/-- A line without an end that is too long stays too long, whether or not its end comes. -/
theorem stepLine_feed_of_open (hc : Bytes.cut 10 d.buffer = none)
    (hl : d.limits.line < d.buffer.length) (b : Bytes) :
    (d.feed b).stepLine = .emit (.error (.lineTooLong d.limits.line)) (d.feed b) := by
  have hopen : (10 : UInt8) ∉ d.buffer := Bytes.cut_eq_none_iff.mp hc
  cases hb : Bytes.cut 10 (d.feed b).buffer with
  | none =>
    have hlen : d.limits.line < (d.feed b).buffer.length := by
      simp only [feed, List.length_append]
      omega
    simp only [stepLine, hb]
    rw [if_pos (show (d.feed b).limits.line < (d.feed b).buffer.length from hlen)]
    rfl
  | some found =>
    obtain ⟨line, rest⟩ := found
    obtain ⟨hsplit, -⟩ := Bytes.cut_eq_some_iff.mp hb
    -- the first end of a line lies in `b`, so that the line holds the whole buffer
    have hlen : d.buffer.length ≤ line.length := by
      refine Nat.le_of_not_lt fun hlt => hopen ?_
      have hline : line ++ [10] <+: d.buffer ++ b := ⟨rest, by simp [← hsplit, feed]⟩
      have hprefix : line ++ [10] <+: d.buffer :=
        List.prefix_of_prefix_length_le hline (List.prefix_append _ _)
          (by simpa using Nat.succ_le_of_lt hlt)
      exact hprefix.subset (by simp)
    simp only [stepLine, hb]
    rw [if_pos (show (d.feed b).limits.line < line.length by
      show d.limits.line < line.length
      omega)]
    rfl

theorem stepLine_feed (h : d.stepLine ≠ .wait) (b : Bytes) :
    (d.feed b).stepLine = d.stepLine.feed b := by
  cases hc : Bytes.cut 10 d.buffer with
  | none =>
    by_cases hl : d.limits.line < d.buffer.length
    · rw [stepLine_feed_of_open hc hl b]
      simp [stepLine, hc, hl, Step.feed]
    · exact absurd (by simp [stepLine, hc, hl]) h
  | some found =>
    obtain ⟨line, rest⟩ := found
    obtain ⟨hsplit, hfree⟩ := Bytes.cut_eq_some_iff.mp hc
    have hb : Bytes.cut 10 (d.feed b).buffer = some (line, rest ++ b) :=
      Bytes.cut_eq_some_iff.mpr ⟨by simp [feed, hsplit], hfree⟩
    simp only [stepLine, hc, hb]
    by_cases hl : d.limits.line < line.length
    · rw [if_pos hl, if_pos (show (d.feed b).limits.line < line.length from hl)]
      rfl
    · rw [if_neg hl, if_neg (show ¬ (d.feed b).limits.line < line.length from hl)]
      cases Frame.ofLine? line <;> rfl

/-- A step that finds something finds the same when more octets follow. -/
theorem step_feed (h : d.step ≠ .wait) (b : Bytes) : (d.feed b).step = d.step.feed b := by
  obtain ⟨limits, awaiting, buffer⟩ := d
  cases awaiting with
  | payload magic kind length =>
    by_cases hl : buffer.length < length
    · exact absurd (by simp [step, hl]) h
    · have hlb : ¬ (buffer ++ b).length < length := by
        simp only [List.length_append]
        omega
      simp only [step, feed, if_neg hl, if_neg hlb, Step.feed,
        List.take_append_of_le_length (Nat.le_of_not_lt hl),
        List.drop_append_of_le_length (Nat.le_of_not_lt hl)]
  | header =>
    cases buffer with
    | nil => exact absurd rfl h
    | cons a rest =>
      by_cases ha : a = 0
      · have hs : step ⟨limits, .header, a :: rest⟩ = stepHeader ⟨limits, .header, a :: rest⟩ := by
          simp [step, ha]
        rw [hs] at h ⊢
        rw [← stepHeader_feed h b]
        simp [step, feed, ha]
      · have hs : step ⟨limits, .header, a :: rest⟩ = stepLine ⟨limits, .header, a :: rest⟩ := by
          simp [step, ha]
        rw [hs] at h ⊢
        rw [← stepLine_feed h b]
        simp [step, feed, ha]

end Step

/-! ### Draining what is there, and the rest later -/

section Drain

variable {d d' : Decoder} {e : Event}

theorem next_of_wait (h : d.step = .wait) : d.next = (none, d) := by
  rw [next]
  split
  · rfl
  · next hs => exact absurd (h.symm.trans hs) (by simp)
  · next hs => exact absurd (h.symm.trans hs) (by simp)

theorem next_of_advance (h : d.step = .advance d') : d.next = d'.next := by
  rw [next]
  split
  · next hs => exact absurd (h.symm.trans hs) (by simp)
  · next hs =>
    obtain rfl : d' = _ := by simpa using h.symm.trans hs
    rfl
  · next hs => exact absurd (h.symm.trans hs) (by simp)

theorem next_of_emit (h : d.step = .emit e d') : d.next = (some e, d') := by
  rw [next]
  split
  · next hs => exact absurd (h.symm.trans hs) (by simp)
  · next hs => exact absurd (h.symm.trans hs) (by simp)
  · next hs =>
    obtain ⟨rfl, rfl⟩ : e = _ ∧ d' = _ := by simpa using h.symm.trans hs
    rfl

theorem step_of_next_none (h : d.next = (none, d')) : d'.step = .wait := by
  fun_induction next d with
  | case1 d hs =>
    obtain rfl : d = d' := by simpa using h
    exact hs
  | case2 d d₁ hs ih => exact ih h
  | case3 d e₁ d₁ hs => exact absurd h (by simp)

/-- An event that is complete is the next one also when more octets follow. -/
theorem next_feed_of_some (h : d.next = (some e, d')) (b : Bytes) :
    (d.feed b).next = (some e, d'.feed b) := by
  fun_induction next d with
  | case1 d hs => exact absurd h (by simp)
  | case2 d d₁ hs ih =>
    have hf : (d.feed b).step = .advance (d₁.feed b) := by
      rw [step_feed (by simp [hs]) b, hs]
      rfl
    rw [next_of_advance hf]
    exact ih h
  | case3 d e₁ d₁ hs =>
    obtain ⟨rfl, rfl⟩ : e₁ = e ∧ d₁ = d' := by simpa using h
    refine next_of_emit ?_
    rw [step_feed (by simp [hs]) b, hs]
    rfl

/-- Blank lines and headers that were taken off already are not missed. -/
theorem next_feed_of_none (h : d.next = (none, d')) (b : Bytes) :
    (d.feed b).next = (d'.feed b).next := by
  fun_induction next d with
  | case1 d hs =>
    obtain rfl : d = d' := by simpa using h
    rfl
  | case2 d d₁ hs ih =>
    have hf : (d.feed b).step = .advance (d₁.feed b) := by
      rw [step_feed (by simp [hs]) b, hs]
      rfl
    rw [next_of_advance hf]
    exact ih h
  | case3 d e₁ d₁ hs => exact absurd h (by simp)

theorem drain_of_next_none (h : d.next = (none, d')) : d.drain = ([], d') := by
  rw [drain]
  split
  · next hn =>
    obtain rfl : d' = _ := by simpa using h.symm.trans hn
    rfl
  · next hn => exact absurd (h.symm.trans hn) (by simp)

theorem drain_of_next_some (h : d.next = (some e, d')) :
    d.drain = if e.isFatal then ([e], d') else (e :: d'.drain.1, d'.drain.2) := by
  rw [drain]
  split
  · next hn => exact absurd (h.symm.trans hn) (by simp)
  · next hn =>
    obtain ⟨rfl, rfl⟩ : e = _ ∧ d' = _ := by simpa using h.symm.trans hn
    split <;> rfl

/-- Two decoders with the same next event have the same events. -/
theorem drain_congr {d₁ d₂ : Decoder} (h : d₁.next = d₂.next) : d₁.drain = d₂.drain := by
  cases hn : d₂.next with
  | mk found d' =>
    cases found with
    | none => rw [drain_of_next_none hn, drain_of_next_none (h.trans hn)]
    | some e => rw [drain_of_next_some hn, drain_of_next_some (h.trans hn)]

theorem drain_of_wait (h : d.step = .wait) : d.drain = ([], d) :=
  drain_of_next_none (next_of_wait h)

/-- A decoder that has been drained waits for more, unless the stream has failed. -/
theorem step_of_drain (h : d.drain.1.any Event.isFatal = false) : d.drain.2.step = .wait := by
  fun_induction drain d with
  | case1 d d' hn => exact step_of_next_none hn
  | case2 d e d' hn he => simp [he] at h
  | case3 d e d' hn he ih =>
    simp only [List.any_cons, Bool.or_eq_false_iff] at h
    exact ih h.2

/-- A stream that has failed has failed in the same place when more octets follow. -/
theorem drain_feed_of_fatal (h : d.drain.1.any Event.isFatal = true) (b : Bytes) :
    (d.feed b).drain.1 = d.drain.1 := by
  fun_induction drain d with
  | case1 d d' hn => simp at h
  | case2 d e d' hn he => rw [drain_of_next_some (next_feed_of_some hn b), if_pos he]
  | case3 d e d' hn he ih =>
    simp only [List.any_cons, Bool.not_eq_true _ ▸ he, Bool.false_or] at h
    rw [drain_of_next_some (next_feed_of_some hn b), if_neg he, ih h]

/-- Draining what is there and draining the rest later is draining all of it. -/
theorem drain_feed (h : d.drain.1.any Event.isFatal = false) (b : Bytes) :
    (d.feed b).drain =
      (d.drain.1 ++ (d.drain.2.feed b).drain.1, (d.drain.2.feed b).drain.2) := by
  fun_induction drain d with
  | case1 d d' hn => exact drain_congr (next_feed_of_none hn b)
  | case2 d e d' hn he => simp [he] at h
  | case3 d e d' hn he ih =>
    simp only [List.any_cons, Bool.or_eq_false_iff] at h
    rw [drain_of_next_some (next_feed_of_some hn b), if_neg he, ih h.2]
    rfl

end Drain

/-! ### Whole streams -/

theorem step_new (limits : Limits) : (new limits).step = .wait := rfl

/-- Reading a stream in chunks finds what draining it at once finds, and ends in the same decoder
unless the stream fails. -/
theorem readChunks_eq_drain {d : Decoder} (h : d.step = .wait) (cs : List Bytes) :
    (d.readChunks cs).1 = (d.feed cs.flatten).drain.1 ∧
      ((d.readChunks cs).1.any Event.isFatal = false →
        (d.readChunks cs).2 = (d.feed cs.flatten).drain.2) := by
  induction cs generalizing d with
  | nil => simp [readChunks, drain_of_wait h]
  | cons c cs ih =>
    rw [List.flatten_cons, feed_append]
    by_cases hf : (d.feed c).drain.1.any Event.isFatal = true
    · have hr : d.readChunks (c :: cs) = (d.feed c).drain := by simp [readChunks, hf]
      rw [hr, drain_feed_of_fatal hf, hf]
      exact ⟨rfl, fun h => absurd h (by simp)⟩
    · have hf := Bool.eq_false_iff.mpr hf
      have hr : d.readChunks (c :: cs) =
          ((d.feed c).drain.1 ++ ((d.feed c).drain.2.readChunks cs).1,
            ((d.feed c).drain.2.readChunks cs).2) := by simp [readChunks, hf]
      obtain ⟨hevents, hend⟩ := ih (step_of_drain hf)
      rw [hr, drain_feed hf, hevents]
      refine ⟨rfl, fun h => hend ?_⟩
      rw [List.any_append, Bool.or_eq_false_iff] at h
      exact hevents ▸ h.2

/-- Two ways to cut one stream give the same events up to the first fatal one. When there is none
they leave the same decoder, with the same octets in its buffer, and what it says at the end of the
stream is the same too. -/
theorem readChunks_congr (limits : Limits) {cs cs' : List Bytes} (h : cs.flatten = cs'.flatten) :
    ((new limits).readChunks cs).1 = ((new limits).readChunks cs').1 ∧
      (((new limits).readChunks cs).1.any Event.isFatal = false →
        ((new limits).readChunks cs).2 = ((new limits).readChunks cs').2 ∧
        ((new limits).readChunks cs).2.finish = ((new limits).readChunks cs').2.finish) := by
  obtain ⟨hevents, hend⟩ := readChunks_eq_drain (step_new limits) cs
  obtain ⟨hevents', hend'⟩ := readChunks_eq_drain (step_new limits) cs'
  have hsame : ((new limits).readChunks cs).1 = ((new limits).readChunks cs').1 := by
    rw [hevents, hevents', h]
  refine ⟨hsame, fun hf => ?_⟩
  have hdecoder : ((new limits).readChunks cs).2 = ((new limits).readChunks cs').2 := by
    rw [hend hf, hend' (hsame ▸ hf), h]
  exact ⟨hdecoder, by rw [hdecoder]⟩

/-- A line, a blank line and a packet of no known magic, cut inside the packet's header or not. -/
theorem readChunks_congr_cut_header :
    ([[97], [10, 10, 0, 1], [], [2, 3, 0, 0, 0, 1, 0, 0, 0, 1, 7, 0]] : List Bytes).flatten =
        ([[97, 10, 10], [0, 1, 2, 3, 0, 0, 0, 1, 0, 0, 0, 1, 7], [0]] : List Bytes).flatten ∧
      ((new ⟨4, 4⟩).readChunks [[97], [10, 10, 0, 1], [], [2, 3, 0, 0, 0, 1, 0, 0, 0, 1, 7, 0]]).2 =
        ((new ⟨4, 4⟩).readChunks
          [[97, 10, 10], [0, 1, 2, 3, 0, 0, 0, 1, 0, 0, 0, 1, 7], [0]]).2 ∧
      ((new ⟨4, 4⟩).readChunks
          [[97], [10, 10, 0, 1], [], [2, 3, 0, 0, 0, 1, 0, 0, 0, 1, 7, 0]]).1 =
        [.frame (.text "a"), .error (.unknownMagic 0x010203)] :=
  ⟨by decide, ((readChunks_congr ⟨4, 4⟩ (by decide)).2 (by decide +kernel)).1, by decide +kernel⟩

end JobBroker.Decoder
