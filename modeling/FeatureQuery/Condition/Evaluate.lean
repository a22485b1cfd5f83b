import FeatureQuery.Condition
import FeatureQuery.Outcomes

/-!
# Asking a condition about a feature

A condition asks something of a feature only along conjunctions and negations: what stands in a
disjunction may be met by another operand.
-/

namespace FeatureQuery.Condition

mutual

/-- What `c` asks of the feature with this key. -/
def evaluate (key : Text) : Condition → Outcomes
  | .feature .invalid _ => .empty
  | .feature .declaration k | .feature .function k => if k = key then .only true else .empty
  | .not c => (evaluate key c).negate
  | .group .all cs => evaluateAll key cs
  | .group .any _ | .group .mixed _ => .empty

def evaluateAll (key : Text) : List Condition → Outcomes
  | [] => .empty
  | c :: cs => (evaluate key c).union (evaluateAll key cs)

end

theorem contains_evaluateAll (key : Text) (cs : List Condition) (b : Bool) :
    (evaluateAll key cs).contains b ↔ ∃ c ∈ cs, (evaluate key c).contains b := by
  induction cs with
  | nil => simp [evaluateAll]
  | cons c cs ih => simp [evaluateAll, ih]

end FeatureQuery.Condition
