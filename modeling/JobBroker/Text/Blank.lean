/-!
# White space

The characters with the Unicode property `White_Space`, and the two operations on text that go by
them: cutting blanks off both ends, and splitting into words. Some formats know only the space and
the tab.
-/

namespace JobBroker.Text

/-- The Unicode property `White_Space`. -/
def isBlank (c : Char) : Bool :=
  let n := c.toNat
  (9 ≤ n && n ≤ 13) || n == 0x20 || n == 0x85 || n == 0xA0 || n == 0x1680
    || (0x2000 ≤ n && n ≤ 0x200A) || n == 0x2028 || n == 0x2029 || n == 0x202F || n == 0x205F
    || n == 0x3000

/-- The two blanks that may stand between the parts of a line. -/
def isPadding (c : Char) : Bool := c = ' ' || c = '\t'

/-- A text without the blanks at its two ends. -/
def trim (cs : List Char) : List Char :=
  ((cs.dropWhile isBlank).reverse.dropWhile isBlank).reverse

/-- Puts `c` in front of the first word, where there is one to extend. -/
private def consWord (c : Char) : List (List Char) → List (List Char)
  | [] => [[c]]
  | word :: words => (c :: word) :: words

/-- The maximal runs without blanks, in order. -/
def words : List Char → List (List Char)
  | [] => []
  | c :: rest =>
    if isBlank c then words rest
    else
      match rest with
      | [] => [[c]]
      | d :: _ => if isBlank d then [c] :: words rest else consWord c (words rest)

private theorem not_isBlank_of_mem_consWord {c : Char} {ws : List (List Char)} (hc : ¬ isBlank c)
    (hws : ∀ word ∈ ws, ∀ d ∈ word, ¬ isBlank d) :
    ∀ word ∈ consWord c ws, ∀ d ∈ word, ¬ isBlank d := by
  cases ws with
  | nil => exact List.forall_mem_singleton.mpr (List.forall_mem_singleton.mpr hc)
  | cons first rest =>
    obtain ⟨hfirst, hrest⟩ := List.forall_mem_cons.mp hws
    exact List.forall_mem_cons.mpr ⟨List.forall_mem_cons.mpr ⟨hc, hfirst⟩, hrest⟩

theorem not_isBlank_of_mem_words (cs : List Char) :
    ∀ word ∈ words cs, ∀ c ∈ word, ¬ isBlank c := by
  fun_induction words cs with
  | case1 => exact List.forall_mem_nil _
  | case2 c rest _ ih => exact ih
  | case3 c hc => exact List.forall_mem_singleton.mpr (List.forall_mem_singleton.mpr hc)
  | case4 c hc d rest _ ih => exact List.forall_mem_cons.mpr ⟨List.forall_mem_singleton.mpr hc, ih⟩
  | case5 c hc d rest _ ih => exact not_isBlank_of_mem_consWord hc ih

end JobBroker.Text
