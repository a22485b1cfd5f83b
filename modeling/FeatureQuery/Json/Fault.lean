/-!
# Faults in JSON text

A text is read from left to right, and the first fault decides.
-/

namespace FeatureQuery.Json

inductive Fault where
  /-- The text ends too soon. -/
  | truncated
  /-- The text is no JSON. -/
  | malformed
  /-- The value is not one that may stand here. -/
  | unfit
  deriving DecidableEq, Repr

/-- The fault at a place where something else was due. -/
def Fault.ofRest {α : Type} (rest : List α) : Fault :=
  if rest.isEmpty then .truncated else .malformed

end FeatureQuery.Json
