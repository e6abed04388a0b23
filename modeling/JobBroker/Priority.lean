/-!
# Priorities

The three priorities of a submission.
-/

namespace JobBroker

inductive Priority
  | high
  | normal
  | low
deriving DecidableEq, Repr

namespace Priority

instance : Inhabited Priority := ⟨normal⟩

/-- From most to least urgent. -/
def all : List Priority := [high, normal, low]

def name : Priority → String
  | high => "high"
  | normal => "normal"
  | low => "low"

end Priority

end JobBroker
