import FeatureQuery.Token

/-!
# Why a condition was refused
-/

namespace FeatureQuery

/-- Levels that may be open at once. -/
def maxDepth : Nat := 256

inductive ParseError where
  /-- There is nothing but blanks. -/
  | emptyInput
  /-- A token that may not stand where it does. -/
  | unexpectedToken (value : Text) (span : Span)
  /-- A level ended without its `)`; `found` is the token in its place, if there is one. -/
  | expectedCloser (found : Option Span)
  /-- The tokens ended where an operand was due. -/
  | invalidSyntax (input : Text)
  /-- One `(` or `not` too many was open. -/
  | nestingTooDeep (span : Span)
  deriving DecidableEq, Repr

namespace ParseError

/-- The closing token that `expectedCloser` misses. -/
def closer : Text := [')']

def message : ParseError → Text
  | .emptyInput => "Empty condition provided".toList
  | .unexpectedToken value _ => "Unexpected token: '".toList ++ value ++ "'".toList
  | .expectedCloser _ => "Expected token: '".toList ++ closer ++ "'".toList
  | .invalidSyntax input => "Invalid supports syntax: '".toList ++ input ++ "'".toList
  | .nestingTooDeep _ =>
    "Nesting too deep: more than ".toList ++ Text.ofNat maxDepth ++ " levels".toList

end ParseError

/-- Two answers are the same when they are the same value or the same error. -/
instance decEqAnswer {ε α : Type} [DecidableEq ε] [DecidableEq α] : DecidableEq (Except ε α)
  | .ok a, .ok b => decidable_of_iff (a = b) (by simp)
  | .error e, .error f => decidable_of_iff (e = f) (by simp)
  | .ok _, .error _ | .error _, .ok _ => .isFalse (by simp)

end FeatureQuery
