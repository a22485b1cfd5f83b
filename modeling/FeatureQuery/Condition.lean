import FeatureQuery.Token

/-!
# Conditions

A condition is a tree over features. A level that mixes `and` with `or` has no meaning, but it is
kept as a group of its own, as an unrecognised feature is kept as a leaf.
-/

namespace FeatureQuery

inductive Junction where
  | all
  | any
  /-- Both `and` and `or` occurred on one level. -/
  | mixed
  deriving DecidableEq, Repr

inductive Condition where
  | feature (kind : Feature.Kind) (key : Text)
  | not (c : Condition)
  | group (j : Junction) (cs : List Condition)
  deriving Repr

namespace Condition

@[elab_as_elim, induction_eliminator]
def induct {motive : Condition → Sort u}
    (feature : ∀ kind key, motive (.feature kind key))
    (not : ∀ c, motive c → motive (.not c))
    (group : ∀ j cs, (∀ c ∈ cs, motive c) → motive (.group j cs)) (c : Condition) : motive c :=
  match c with
  | .feature kind key => feature kind key
  | .not c => not c (induct feature not group c)
  | .group j cs => group j cs fun c _ => induct feature not group c

mutual

def decEq : (a b : Condition) → Decidable (a = b)
  | .feature k x, .feature l y => decidable_of_iff (k = l ∧ x = y) (by simp)
  | .not a, .not b =>
    match decEq a b with
    | .isTrue h => .isTrue (by rw [h])
    | .isFalse h => .isFalse (by simpa using h)
  | .group j as, .group k bs =>
    match decEqAll as bs with
    | .isTrue h => decidable_of_iff (j = k) (by simp [h])
    | .isFalse h => .isFalse (by simp [h])
  | .feature .., .not _ | .feature .., .group .. | .not _, .feature .. | .not _, .group ..
  | .group .., .feature .. | .group .., .not _ => .isFalse (by simp)

def decEqAll : (as bs : List Condition) → Decidable (as = bs)
  | [], [] => .isTrue rfl
  | a :: as, b :: bs =>
    match decEq a b, decEqAll as bs with
    | .isTrue h, .isTrue hs => .isTrue (by rw [h, hs])
    | .isFalse h, _ => .isFalse (by simp [h])
    | _, .isFalse hs => .isFalse (by simp [hs])
  | [], _ :: _ | _ :: _, [] => .isFalse (by simp)

end

instance : DecidableEq Condition := decEq

/-- The condition `c` under `n` negations. -/
def negated (n : Nat) (c : Condition) : Condition := n.repeat .not c

@[simp] theorem negated_zero (c : Condition) : negated 0 c = c := rfl

@[simp] theorem negated_succ (n : Nat) (c : Condition) :
    negated (n + 1) c = .not (negated n c) := rfl

end Condition

end FeatureQuery
