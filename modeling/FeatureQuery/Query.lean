import FeatureQuery.Condition.Parser
import FeatureQuery.Condition.Evaluate

/-!
# Feature queries

A query is a condition that features are checked against. A strict query reports what is wrong
with a condition or a feature; a silent one takes a condition that asks nothing, or answers that
nothing is determined.
-/

namespace FeatureQuery

inductive QueryError where
  /-- There is nothing but blanks. -/
  | emptyCondition
  /-- There is nothing after the at-keyword. -/
  | missingCondition
  /-- The feature has an empty key. -/
  | emptyFeature
  | parse (cause : ParseError)
  deriving DecidableEq, Repr

def QueryError.message : QueryError → Text
  | .emptyCondition => "Empty condition provided".toList
  | .missingCondition => "Invalid condition syntax".toList
  | .emptyFeature => "Empty feature provided".toList
  | .parse cause => cause.message

structure Query where
  condition : Condition
  silent : Bool
  deriving DecidableEq, Repr

namespace Query

def atKeyword : Text := "@supports".toList

/-- The condition in a text: trimmed, and without one at-keyword in front. -/
def conditionText (t : Text) : Except QueryError Text :=
  let whole := Text.trim t
  if whole.isEmpty then .error .emptyCondition
  else
    let condition := Text.trim ((Text.dropStart? atKeyword whole).getD whole)
    if condition.isEmpty then .error .missingCondition else .ok condition

/-- Reads a condition that may start with the at-keyword. -/
def read (t : Text) : Except QueryError Condition :=
  match conditionText t with
  | .error e => .error e
  | .ok condition => (Condition.parse condition).mapError .parse

/-- The condition of a silent query that could not be read. No feature has its key. -/
def placeholder : Condition := .feature .declaration []

def build (silent : Bool) (t : Text) : Except QueryError Query :=
  match read t with
  | .ok condition => .ok ⟨condition, silent⟩
  | .error e => if silent then .ok ⟨placeholder, silent⟩ else .error e

def outcomes (q : Query) (feature : Text) : Except QueryError Outcomes :=
  let key := Key.normalize feature
  if key.isEmpty then .error .emptyFeature else .ok (q.condition.evaluate key)

/-- Whether a feature passes, fails, or is left open. -/
def check (q : Query) (feature : Text) : Except QueryError (Option Bool) :=
  match q.outcomes feature with
  | .ok s => .ok s.resolve
  | .error e => if q.silent then .ok none else .error e

end Query

end FeatureQuery
