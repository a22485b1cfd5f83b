import FeatureQuery.Proofs.Paths

/-!
# Truth

A condition is true or false once its features are, and once something is made up for the nodes
that have no meaning. When a condition is true, then a feature is what the condition asks of it, as
long as no conjunction is denied: a false conjunction does not say which of its operands is false.
-/

namespace FeatureQuery

/-- Truth values for features, by key, and for the nodes that have no meaning, by path. -/
structure Assignment where
  feature : Text → Bool
  invalid : List Nat → Bool

namespace Assignment

/-- The assignment as it is seen from the `i`-th child of the root. -/
def under (i : Nat) (a : Assignment) : Assignment :=
  { a with invalid := fun path => a.invalid (i :: path) }

@[simp] theorem feature_under (i : Nat) (a : Assignment) : (a.under i).feature = a.feature := rfl

mutual

def holds (a : Assignment) : Condition → Bool
  | .feature .invalid _ | .group .mixed _ => a.invalid []
  | .feature .declaration key | .feature .function key => a.feature key
  | .not c => !(a.under 0).holds c
  | .group .all cs => a.holdsAll 0 cs
  | .group .any cs => a.holdsAny 0 cs

/-- All of these are true, where the first is child `i`. -/
def holdsAll (a : Assignment) (i : Nat) : List Condition → Bool
  | [] => true
  | c :: cs => (a.under i).holds c && a.holdsAll (i + 1) cs

/-- One of these is true, where the first is child `i`. -/
def holdsAny (a : Assignment) (i : Nat) : List Condition → Bool
  | [] => false
  | c :: cs => (a.under i).holds c || a.holdsAny (i + 1) cs

end

theorem holds_of_holdsAll {a : Assignment} {i n : Nat} {c : Condition} {cs : List Condition}
    (all : a.holdsAll n cs = true) (child : cs[i]? = some c) :
    (a.under (n + i)).holds c = true := by
  induction cs generalizing n i with
  | nil => simp at child
  | cons d cs ih =>
    rw [holdsAll, Bool.and_eq_true] at all
    cases i with
    | zero =>
      cases child
      exact all.1
    | succ i =>
      have later := ih all.2 child
      rwa [Nat.add_right_comm] at later

end Assignment

namespace Condition

variable {key : Text} {v b : Bool} {c : Condition}

/-- When the condition has the truth value `v`, no conjunction within reach has to be false. -/
def Affirms (v : Bool) (c : Condition) : Prop :=
  ∀ path cs, c.Leads path (.group .all cs) → c.negations path % 2 = if v then 0 else 1

theorem affirms_feature (v : Bool) (kind : Feature.Kind) (k : Text) :
    Affirms v (.feature kind k) := by
  intro path cs leads
  cases path with
  | nil => cases leads_nil.mp leads
  | cons i path =>
    obtain ⟨-, d, child, -⟩ := leads_cons.mp leads
    simp [children] at child

theorem affirms_not : Affirms v (.not c) ↔ Affirms (!v) c := by
  constructor
  · intro h path cs leads
    have longer := leads_cons.mpr ⟨.inr rfl, c, child_not.mpr ⟨rfl, rfl⟩, leads⟩
    exact parity_not.mp (h (0 :: path) cs longer)
  · intro h path cs leads
    cases path with
    | nil => cases leads_nil.mp leads
    | cons i path =>
      obtain ⟨-, d, child, inner⟩ := leads_cons.mp leads
      obtain ⟨rfl, rfl⟩ := child_not.mp child
      exact parity_not.mpr (h path cs inner)

theorem affirms_group {j : Junction} {cs : List Condition} :
    Affirms v (.group j cs) ↔ (j = .all → v = true ∧ ∀ c ∈ cs, Affirms v c) := by
  constructor
  · rintro h rfl
    constructor
    · have parity := h [] cs (leads_nil.mpr rfl)
      cases v with
      | true => rfl
      | false => cases parity
    · intro c mem path ds leads
      obtain ⟨i, child⟩ := List.mem_iff_getElem?.mp mem
      have parity := h (i :: path) ds (leads_cons.mpr ⟨.inl rfl, c, child, leads⟩)
      rw [negations_cons (c := .group .all cs) child] at parity
      exact parity
  · intro h path ds leads
    cases path with
    | nil =>
      cases leads_nil.mp leads
      rw [(h rfl).1]
      rfl
    | cons i path =>
      obtain ⟨here, c, child, inner⟩ := leads_cons.mp leads
      obtain rfl := all_of_crossed here
      rw [negations_cons child]
      exact (h rfl).2 c (List.mem_of_getElem? child) path ds inner

/-- In a condition that is `v`, a feature is what is asked of it, or the opposite for a false `v`. -/
theorem feature_of_holds {a : Assignment} (affirms : Affirms v c)
    (asked : (evaluate key c).contains b = true) (truth : a.holds c = v) :
    a.feature key = (b == v) := by
  induction c generalizing a v b with
  | feature kind k =>
    by_cases hit : k = key <;> cases kind <;> simp_all [evaluate, Assignment.holds]
  | not c ih =>
    -- Both are turned around, the truth value and what is asked.
    rw [evaluate, Outcomes.contains_negate] at asked
    rw [Assignment.holds] at truth
    have opposite : (a.under 0).holds c = !v := by rw [← truth, Bool.not_not]
    have inner := ih (affirms_not.mp affirms) asked opposite
    rw [Assignment.feature_under] at inner
    rw [inner]
    cases b <;> cases v <;> rfl
  | group j cs ih =>
    cases j with
    | all =>
      obtain ⟨rfl, each⟩ := affirms_group.mp affirms rfl
      rw [evaluate, contains_evaluateAll] at asked
      obtain ⟨c, mem, asked⟩ := asked
      obtain ⟨i, child⟩ := List.mem_iff_getElem?.mp mem
      rw [Assignment.holds] at truth
      have inner := ih c mem (each c mem) asked (Assignment.holds_of_holdsAll truth child)
      rwa [Assignment.feature_under] at inner
    | any | mixed => simp [evaluate] at asked

/-- Where no conjunction is denied, a condition is only true when each feature is what the condition
asks of it. What is asked to pass and to fail makes the condition false throughout. -/
theorem evaluate_sound {c : Condition} (affirms : Affirms true c) (key : Text) :
    (∀ b, (evaluate key c).contains b = true →
      ∀ a : Assignment, a.holds c = true → a.feature key = b) ∧
    ((evaluate key c).contains true = true → (evaluate key c).contains false = true →
      ∀ a : Assignment, a.holds c = false) := by
  have asked (b : Bool) (h : (evaluate key c).contains b = true) (a : Assignment)
      (truth : a.holds c = true) : a.feature key = b := by
    simpa using feature_of_holds affirms h truth
  refine ⟨asked, ?_⟩
  intro pass fail a
  apply Bool.eq_false_iff.mpr
  intro truth
  have passes := asked true pass a truth
  rw [asked false fail a truth] at passes
  cases passes

/-- A conjunction under two negations says that its second operand fails; where it is also asked to
pass, nothing makes the condition true. -/
theorem evaluate_sound_twice_negated :
    let k := "c(1)".toList
    let inner := Condition.group .all
      [.feature .declaration "a:1".toList, .not (.feature .function k)]
    let c := Condition.group .all [.not (.not inner), .not (.group .any [.feature .invalid k])]
    let d := Condition.group .all [c, .feature .function k]
    let a : Assignment := ⟨fun key => key ≠ k, fun _ => false⟩
    (Affirms true c ∧ (evaluate k c).contains false = true ∧ a.holds c = true ∧
      a.feature k = false) ∧
    (Affirms true d ∧ ∀ a : Assignment, a.holds d = false) := by
  intro k inner c d a
  have affirms : Affirms true c := by
    simp [c, inner, affirms_group, affirms_not, affirms_feature]
  have both : Affirms true d := by
    simp [d, affirms_group, affirms_feature, affirms]
  have asked : (evaluate k c).contains false = true := by decide +kernel
  have truth : a.holds c = true := by decide +kernel
  refine ⟨⟨affirms, asked, truth, (evaluate_sound affirms k).1 false asked a truth⟩, both, ?_⟩
  exact (evaluate_sound both k).2 (by decide +kernel) (by decide +kernel)

end Condition

end FeatureQuery
