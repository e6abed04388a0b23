import JobBroker.Proofs.Json.Tokens

/-!
# Written values are read again

Every value that has a written form of its own is read from that form, whatever characters stand in
its strings and however large its numbers are.

* `lexes_write` : a written value is cut into the tokens of the value.
* `valueWithin_tokens` : the tokens of a value are read as the value.
* `ofText_toText` : a written value is read as itself.
-/

namespace JobBroker.Json

open Token (Lexes EndsNumber)

mutual

/-- The value has a written form of its own: no fraction and no unpaired string stands in it. -/
def IsWritable : Json → Prop
  | fraction | unpaired => False
  | array items => AreWritable items
  | object members => AreMembers members
  | _ => True

def AreWritable : List Json → Prop
  | [] => True
  | v :: vs => v.IsWritable ∧ AreWritable vs

/-- Members that have names, with values that can be written. -/
def AreMembers : List (Json × Json) → Prop
  | [] => True
  | (string _, v) :: ms => v.IsWritable ∧ AreMembers ms
  | _ :: _ => False

end

mutual

def tokens : Json → List Token
  | null => [.null]
  | bool b => [.bool b]
  | integer n => [.integer n]
  | fraction => [.fraction]
  | string s => [.string s]
  | unpaired => [.unpaired]
  | array items => .openBracket :: itemTokens items ++ [.closeBracket]
  | object members => .openBrace :: memberTokens members ++ [.closeBrace]

def itemTokens : List Json → List Token
  | [] => []
  | [v] => tokens v
  | v :: w :: vs => tokens v ++ .comma :: itemTokens (w :: vs)

def memberTokens : List (Json × Json) → List Token
  | [] => []
  | [(name, v)] => tokens name ++ .colon :: tokens v
  | (name, v) :: m :: ms => tokens name ++ .colon :: tokens v ++ .comma :: memberTokens (m :: ms)

end

/-! ### Writing -/

theorem endsNumber_nil : EndsNumber [] := fun _ h => by cases h

theorem endsNumber_cons {c : Char} (h : c = ',' ∨ c = ']' ∨ c = '}') (cs : List Char) :
    EndsNumber (c :: cs) := by
  rintro _ ⟨⟩
  rcases h with rfl | rfl | rfl <;> decide

mutual

theorem lexes_write : ∀ {v : Json}, v.IsWritable → ∀ {rest : List Char} {ts : List Token},
    EndsNumber rest → Lexes rest ts → Lexes (v.write ++ rest) (v.tokens ++ ts)
  | null, _, _, _, _, h => h.cons (by decide) rfl
  | bool true, _, _, _, _, h => h.cons (by decide) rfl
  | bool false, _, _, _, _, h => h.cons (by decide) rfl
  | integer n, _, _, _, hrest, h => h.integer hrest n
  | string s, _, _, _, _, h => h.quoted s
  | array items, hv, rest, ts, _, h => by
    have hclose : Lexes (']' :: rest) (.closeBracket :: ts) := h.mark (by decide) rfl
    have hitems := lexes_writeItems hv (endsNumber_cons (by simp) rest) hclose
    have hopen : Lexes ('[' :: (writeItems items ++ ']' :: rest)) _ :=
      hitems.mark (by decide) rfl
    simpa [write, tokens] using hopen
  | object members, hv, rest, ts, _, h => by
    have hclose : Lexes ('}' :: rest) (.closeBrace :: ts) := h.mark (by decide) rfl
    have hmembers := lexes_writeMembers hv (endsNumber_cons (by simp) rest) hclose
    have hopen : Lexes ('{' :: (writeMembers members ++ '}' :: rest)) _ :=
      hmembers.mark (by decide) rfl
    simpa [write, tokens] using hopen

theorem lexes_writeItems : ∀ {vs : List Json}, AreWritable vs → ∀ {rest : List Char}
    {ts : List Token}, EndsNumber rest → Lexes rest ts →
      Lexes (writeItems vs ++ rest) (itemTokens vs ++ ts)
  | [], _, _, _, _, h => h
  | [_], hv, _, _, hrest, h => lexes_write hv.1 hrest h
  | v :: w :: vs, hv, rest, ts, hrest, h => by
    have hrest' := lexes_writeItems hv.2 hrest h
    have hcomma : Lexes (',' :: (writeItems (w :: vs) ++ rest)) _ :=
      hrest'.mark (by decide) rfl
    simpa [writeItems, itemTokens] using
      lexes_write hv.1 (endsNumber_cons (by simp) _) hcomma

theorem lexes_writeMembers : ∀ {ms : List (Json × Json)}, AreMembers ms → ∀ {rest : List Char}
    {ts : List Token}, EndsNumber rest → Lexes rest ts →
      Lexes (writeMembers ms ++ rest) (memberTokens ms ++ ts)
  | [], _, _, _, _, h => h
  | [(string s, v)], hv, rest, ts, hrest, h => by
    have hvalue := lexes_write hv.1 hrest h
    have hcolon : Lexes (':' :: (v.write ++ rest)) _ := hvalue.mark (by decide) rfl
    simpa [writeMembers, memberTokens, write, tokens] using hcolon.quoted s
  | (string s, v) :: m :: ms, hv, rest, ts, hrest, h => by
    have hrest' := lexes_writeMembers hv.2 hrest h
    have hcomma : Lexes (',' :: (writeMembers (m :: ms) ++ rest)) _ :=
      hrest'.mark (by decide) rfl
    have hvalue := lexes_write hv.1 (endsNumber_cons (by simp) _) hcomma
    have hcolon : Lexes (':' :: (v.write ++ _)) _ := hvalue.mark (by decide) rfl
    simpa [writeMembers, memberTokens, write, tokens] using hcolon.quoted s

end

/-! ### Reading -/

/-- A value starts with a token that closes nothing. -/
theorem exists_tokens_eq (v : Json) :
    ∃ t ts, v.tokens = t :: ts ∧ t ≠ .closeBracket ∧ t ≠ .closeBrace := by
  cases v <;> simp [tokens]

theorem head?_itemTokens (v : Json) (vs : List Json) (rest : List Token) :
    (itemTokens (v :: vs) ++ rest).head? ≠ some .closeBracket := by
  obtain ⟨t, ts, htokens, hne, -⟩ := exists_tokens_eq v
  cases vs <;> simpa [itemTokens, htokens] using hne

theorem head?_memberTokens (m : Json × Json) (ms : List (Json × Json)) (rest : List Token) :
    (memberTokens (m :: ms) ++ rest).head? ≠ some .closeBrace := by
  obtain ⟨t, ts, htokens, -, hne⟩ := exists_tokens_eq m.1
  cases ms <;> simpa [memberTokens, htokens] using hne

theorem valueWithin_openBracket (fuel : Nat) {ts : List Token}
    (h : ts.head? ≠ some .closeBracket) : valueWithin (fuel + 1) (.openBracket :: ts) =
      (itemsWithin fuel ts).map fun p => (array p.1, p.2) := by
  rw [valueWithin]
  rintro ts' rfl
  exact h rfl

theorem valueWithin_openBrace (fuel : Nat) {ts : List Token}
    (h : ts.head? ≠ some .closeBrace) : valueWithin (fuel + 1) (.openBrace :: ts) =
      (membersWithin fuel ts).map fun p => (object p.1, p.2) := by
  rw [valueWithin]
  rintro ts' rfl
  exact h rfl

theorem tokens_array_append (vs : List Json) (rest : List Token) : (array vs).tokens ++ rest =
    .openBracket :: (itemTokens vs ++ .closeBracket :: rest) := by
  simp [tokens]

theorem tokens_object_append (ms : List (Json × Json)) (rest : List Token) :
    (object ms).tokens ++ rest = .openBrace :: (memberTokens ms ++ .closeBrace :: rest) := by
  simp [tokens]

-- Each value takes one unit of fuel for itself, and what is inside it one more for each item.
mutual

theorem valueWithin_tokens : ∀ {v : Json}, v.IsWritable → ∀ (fuel : Nat) (rest : List Token),
    2 * v.tokens.length ≤ fuel → valueWithin fuel (v.tokens ++ rest) = some (v, rest)
  | v, _, 0, _, hfuel => by
    obtain ⟨t, ts, htokens, -⟩ := exists_tokens_eq v
    rw [htokens] at hfuel
    exact absurd hfuel (by simp)
  | null, _, _ + 1, _, _ => rfl
  | bool _, _, _ + 1, _, _ => rfl
  | integer _, _, _ + 1, _, _ => rfl
  | string _, _, _ + 1, _, _ => rfl
  | array [], _, _ + 1, _, _ => rfl
  | array (v :: vs), hv, fuel + 1, rest, hfuel => by
    have hlength : 2 * (itemTokens (v :: vs)).length + 1 ≤ fuel := by
      simp only [tokens, List.length_cons, List.length_append, List.length_nil] at hfuel
      omega
    rw [tokens_array_append, valueWithin_openBracket fuel (head?_itemTokens v vs _),
      itemsWithin_itemTokens (List.cons_ne_nil v vs) hv fuel rest hlength, Option.map_some]
  | object [], _, _ + 1, _, _ => rfl
  | object (m :: ms), hv, fuel + 1, rest, hfuel => by
    have hlength : 2 * (memberTokens (m :: ms)).length + 1 ≤ fuel := by
      simp only [tokens, List.length_cons, List.length_append, List.length_nil] at hfuel
      omega
    rw [tokens_object_append, valueWithin_openBrace fuel (head?_memberTokens m ms _),
      membersWithin_memberTokens (List.cons_ne_nil m ms) hv fuel rest hlength, Option.map_some]

theorem itemsWithin_itemTokens : ∀ {vs : List Json}, vs ≠ [] → AreWritable vs → ∀ (fuel : Nat)
    (rest : List Token), 2 * (itemTokens vs).length + 1 ≤ fuel →
      itemsWithin fuel (itemTokens vs ++ .closeBracket :: rest) = some (vs, rest)
  | [], hne, _, _, _, _ => absurd rfl hne
  | _ :: _, _, _, 0, _, hfuel => absurd hfuel (by simp)
  | [v], _, hv, fuel + 1, rest, hfuel => by
    have hvalue := valueWithin_tokens hv.1 fuel (.closeBracket :: rest)
      (Nat.le_of_succ_le_succ hfuel)
    rw [itemsWithin, itemTokens, hvalue]
  | v :: w :: vs, _, hv, fuel + 1, rest, hfuel => by
    rw [itemTokens, List.length_append, List.length_cons] at hfuel
    have hvalue := valueWithin_tokens hv.1 fuel
      (.comma :: (itemTokens (w :: vs) ++ .closeBracket :: rest)) (by omega)
    have hitems := itemsWithin_itemTokens (List.cons_ne_nil w vs) hv.2 fuel rest (by omega)
    rw [itemsWithin, itemTokens, List.append_assoc, List.cons_append, hvalue]
    show (itemsWithin fuel _).map _ = _
    rw [hitems, Option.map_some]

theorem membersWithin_memberTokens : ∀ {ms : List (Json × Json)}, ms ≠ [] → AreMembers ms →
    ∀ (fuel : Nat) (rest : List Token), 2 * (memberTokens ms).length + 1 ≤ fuel →
      membersWithin fuel (memberTokens ms ++ .closeBrace :: rest) = some (ms, rest)
  | [], hne, _, _, _, _ => absurd rfl hne
  | _ :: _, _, _, 0, _, hfuel => absurd hfuel (by simp)
  | [(string s, v)], _, hv, fuel + 1, rest, hfuel => by
    simp only [memberTokens, tokens, List.length_append, List.length_cons] at hfuel
    have hvalue := valueWithin_tokens hv.1 fuel (.closeBrace :: rest) (by omega)
    simp only [memberTokens, tokens, List.cons_append, List.nil_append, membersWithin, hvalue]
  | (string s, v) :: m :: ms, _, hv, fuel + 1, rest, hfuel => by
    simp only [memberTokens, tokens, List.length_append, List.length_cons] at hfuel
    have hvalue := valueWithin_tokens hv.1 fuel
      (.comma :: (memberTokens (m :: ms) ++ .closeBrace :: rest)) (by omega)
    have hmembers := membersWithin_memberTokens (List.cons_ne_nil m ms) hv.2 fuel rest (by omega)
    simp only [memberTokens, tokens, List.cons_append, List.nil_append, List.append_assoc,
      membersWithin, hvalue, hmembers, Option.map_some]

end

/-- A written value is read as itself. -/
theorem ofText_toText {v : Json} (h : v.IsWritable) : ofText v.toText = some v := by
  have hlexes := lexes_write h endsNumber_nil .nil
  rw [List.append_nil, List.append_nil] at hlexes
  have hvalue := valueWithin_tokens h _ [] (Nat.le_refl (2 * v.tokens.length))
  rw [List.append_nil] at hvalue
  rw [ofText, toText, String.toList_ofList, hlexes.tokens_eq]
  simp [hvalue]

end JobBroker.Json
