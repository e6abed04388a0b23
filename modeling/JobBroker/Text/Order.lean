/-!
# Order of texts

Texts are compared character by character, which is also the order of their octets in UTF-8. Lists
are sorted by insertion, and equals keep their order.

* `sortBy_perm` : a sorted list has the elements of the list it was made of.
-/

namespace JobBroker.Text

def charsLE : List Char → List Char → Bool
  | [], _ => true
  | _ :: _, [] => false
  | a :: as, b :: bs =>
    if a.toNat < b.toNat then true else if b.toNat < a.toNat then false else charsLE as bs

/-- One text stands before another, or they are equal. -/
def le (s t : String) : Bool := charsLE s.toList t.toList

/-- Pairs are ordered by their first texts, and where these are equal by their second. -/
def pairLE (p q : String × String) : Bool := if p.1 = q.1 then le p.2 q.2 else le p.1 q.1

section Sorting

variable {α : Type} (r : α → α → Bool)

def insertBy (a : α) : List α → List α
  | [] => [a]
  | b :: bs => if r a b then a :: b :: bs else b :: insertBy a bs

/-- The list in the order `r`. -/
def sortBy (as : List α) : List α := as.foldr (insertBy r) []

variable {r}

theorem insertBy_perm (a : α) (as : List α) : (insertBy r a as).Perm (a :: as) := by
  induction as with
  | nil => exact .refl _
  | cons b bs ih =>
    unfold insertBy
    split
    · exact .refl _
    · exact (ih.cons b).trans (.swap _ _ _)

theorem sortBy_perm (as : List α) : (sortBy r as).Perm as := by
  induction as with
  | nil => exact .refl _
  | cons a as ih => exact (insertBy_perm a _).trans (ih.cons a)

end Sorting

/-- The list in the order of the texts that `key` gives. -/
def sortOn {α : Type} (key : α → String) : List α → List α := sortBy fun a b => le (key a) (key b)

end JobBroker.Text
