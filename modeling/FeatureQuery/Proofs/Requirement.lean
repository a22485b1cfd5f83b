import FeatureQuery.Proofs.Truth
import FeatureQuery.Proofs.Silence

/-!
# What a false answer requires

A feature is answered false when there is a path to it under an odd number of negations. The
feature then has to fail, if every conjunction on the path is under an even number of them. A
conjunction that is denied may be false for another of its operands, and then nothing is required.
-/

namespace FeatureQuery

namespace Condition

variable {key : Text} {v b : Bool} {c : Condition} {i : Nat} {path : List Nat}

/-- When the condition has the truth value `v`, no conjunction that the path crosses has to be
false. -/
def AffirmsOn (v : Bool) (c : Condition) (path : List Nat) : Prop :=
  ∀ n < path.length, ∀ cs, c.Leads (path.take n) (.group .all cs) →
    c.negations (path.take n) % 2 = if v then 0 else 1

theorem affirmsOn_nil (v : Bool) (c : Condition) : AffirmsOn v c [] := by
  intro n inside
  cases inside

theorem affirmsOn_not : AffirmsOn v (.not c) (0 :: path) ↔ AffirmsOn (!v) c path := by
  constructor
  · intro h n inside cs leads
    have longer := leads_cons.mpr ⟨.inr rfl, c, child_not.mpr ⟨rfl, rfl⟩, leads⟩
    exact parity_not.mp (h (n + 1) (Nat.succ_lt_succ inside) cs longer)
  · intro h n inside cs leads
    cases n with
    | zero => cases leads_nil.mp leads
    | succ n =>
      obtain ⟨-, d, child, inner⟩ := leads_cons.mp leads
      obtain ⟨-, rfl⟩ := child_not.mp child
      exact parity_not.mpr (h n (Nat.lt_of_succ_lt_succ inside) cs inner)

theorem affirmsOn_all {cs : List Condition} (child : cs[i]? = some c) :
    AffirmsOn v (.group .all cs) (i :: path) ↔ v = true ∧ AffirmsOn v c path := by
  constructor
  · intro h
    constructor
    · have parity := h 0 (Nat.succ_pos _) cs (leads_nil.mpr rfl)
      cases v with
      | true => rfl
      | false => cases parity
    · intro n inside ds leads
      have longer := (leads_cons (c := .group .all cs)).mpr ⟨.inl rfl, c, child, leads⟩
      have parity := h (n + 1) (Nat.succ_lt_succ inside) ds longer
      rwa [List.take_succ_cons, negations_cons (c := .group .all cs) child] at parity
  · rintro ⟨rfl, h⟩ n inside ds leads
    cases n with
    | zero => rfl
    | succ n =>
      obtain ⟨-, d, found, inner⟩ := leads_cons.mp leads
      cases child.symm.trans found
      rw [List.take_succ_cons, negations_cons (c := .group .all cs) child]
      exact h n (Nat.lt_of_succ_lt_succ inside) ds inner

/-- In a condition that is `v`, the feature at the end of a path is what is asked of it there, or
the opposite for a false `v`. -/
theorem feature_of_asksFor {a : Assignment} (asked : AsksFor key b c path)
    (affirms : AffirmsOn v c path) (truth : a.holds c = v) : a.feature key = (b == v) := by
  obtain ⟨reached, parity⟩ := asked
  induction path generalizing a v b c with
  | nil =>
    obtain ⟨kind, valid, rfl⟩ := reaches_nil.mp reached
    cases b with
    | false => cases parity
    | true => rcases valid with rfl | rfl <;> simpa [Assignment.holds] using truth
  | cons i path ih =>
    obtain ⟨here, d, child, inner⟩ := reaches_cons.mp reached
    cases c with
    | feature => simp [children] at child
    | not c =>
      -- Both are turned around, the truth value and what is asked.
      obtain ⟨rfl, rfl⟩ := child_not.mp child
      rw [Assignment.holds] at truth
      have opposite : (a.under 0).holds c = !v := by rw [← truth, Bool.not_not]
      have turned := ih (affirmsOn_not.mp affirms) opposite inner (parity_not.mp parity)
      rw [Assignment.feature_under] at turned
      rw [turned]
      cases b <;> cases v <;> rfl
    | group j cs =>
      obtain rfl := all_of_crossed here
      obtain ⟨rfl, affirms⟩ := (affirmsOn_all child).mp affirms
      rw [negations_cons child] at parity
      rw [Assignment.holds] at truth
      have operand := Assignment.holds_of_holdsAll truth child
      rw [← Assignment.feature_under]
      exact ih affirms operand inner parity

end Condition

namespace Query

variable {q : Query} {feature : Text}

theorem check_eq_false_iff (q : Query) (feature : Text) :
    q.check feature = .ok (some false) ↔ Key.normalize feature ≠ [] ∧
      ∃ path, Condition.AsksFor (Key.normalize feature) false q.condition path := by
  rw [← Condition.contains_evaluate_iff_asksFor, ← Outcomes.resolve_eq_false_iff]
  by_cases empty : Key.normalize feature = []
  · rw [check_of_empty q empty]
    cases q.silent <;> simp [empty]
  · rw [check_of_normalize_ne_nil q empty]
    simp [empty]

/-- A false answer comes from a path that asks the feature to fail. Where no conjunction on such a
path is denied, the condition is false for every assignment that lets the feature pass. -/
theorem check_false_requires (failed : q.check feature = .ok (some false)) :
    let key := Key.normalize feature
    (∃ path, Condition.AsksFor key false q.condition path) ∧
      ∀ path, Condition.AsksFor key false q.condition path →
        Condition.AffirmsOn true q.condition path →
          ∀ a : Assignment, a.feature key = true → a.holds q.condition = false := by
  intro key
  obtain ⟨-, asked⟩ := (check_eq_false_iff q feature).mp failed
  refine ⟨asked, ?_⟩
  intro path asked affirms a passes
  apply Bool.eq_false_iff.mpr
  intro truth
  have fails := Condition.feature_of_asksFor asked affirms truth
  rw [passes] at fails
  cases fails

/-- The second operand of `not ((a: 1) and (b: 2)) and not (a: 1)` requires that `a: 1` fails. -/
theorem check_false_requires_second :
    let t := "not ((a: 1) and (b: 2)) and not (a: 1)".toList
    ∃ q, build false t = .ok q ∧ q.check "A:1".toList = .ok (some false) ∧
      ∀ a : Assignment, a.feature "a:1".toList = true → a.holds q.condition = false := by
  intro t
  let k := "a:1".toList
  let a : Condition := .feature .declaration k
  let b : Condition := .feature .declaration "b:2".toList
  let q : Query := ⟨.group .all [.not (.group .all [a, b]), .not a], false⟩
  have accepted : build false t = .ok q := by decide +kernel
  have failed : q.check "A:1".toList = .ok (some false) := by decide +kernel
  have key : Key.normalize "A:1".toList = k := by decide +kernel
  have reached : q.condition.Reaches k [1, 0] :=
    ⟨⟨.declaration, .inl rfl, rfl⟩, by decide +kernel⟩
  have affirms : Condition.AffirmsOn true q.condition [1, 0] := by
    rw [Condition.affirmsOn_all rfl, Condition.affirmsOn_not]
    exact ⟨rfl, Condition.affirmsOn_nil false a⟩
  obtain ⟨-, required⟩ := check_false_requires failed
  rw [key] at required
  exact ⟨q, accepted, failed, required [1, 0] ⟨reached, rfl⟩ affirms⟩

/-- Of `not ((a: 1) and (b: 2))` the feature `a: 1` is answered false. It may pass where `b: 2`
fails. -/
theorem check_false_of_denied :
    let t := "not ((a:1) and (b:2))".toList
    let feature := "a:1".toList
    let a : Assignment := ⟨fun key => key = feature, fun _ => false⟩
    ∃ q, build false t = .ok q ∧ q.check feature = .ok (some false) ∧
      a.feature (Key.normalize feature) = true ∧ a.holds q.condition = true := by
  intro t feature a
  let q : Query := ⟨.not (.group .all [.feature .declaration feature,
    .feature .declaration "b:2".toList]), false⟩
  exact ⟨q, by decide +kernel, by decide +kernel, by decide +kernel, by decide +kernel⟩

end Query

end FeatureQuery
