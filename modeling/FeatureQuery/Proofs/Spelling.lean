import FeatureQuery.Proofs.Key
import FeatureQuery.Proofs.Silence

/-!
# Spellings of a feature

A feature may be spelled in many ways, and of them the key is one. What a query answers depends on
the key alone; and two features with different keys are told apart by some query.
-/

namespace FeatureQuery

variable {feature other : Text}

namespace Query

theorem check_congr (same : Key.normalize feature = Key.normalize other) (q : Query) :
    q.check feature = q.check other := by
  simp only [check, outcomes, same]

/-- A strict query that asks for one key. -/
def ofKey (key : Text) : Query := ⟨.feature .declaration key, false⟩

theorem check_ofKey (key feature : Text) : (ofKey key).check feature =
    if Key.normalize feature = [] then .error .emptyFeature
    else .ok (if Key.normalize feature = key then some true else none) := by
  split
  · exact check_of_empty _ ‹_›
  · rw [check_of_normalize_ne_nil _ ‹_›, ofKey, Condition.evaluate]
    by_cases same : Key.normalize feature = key
    · rw [if_pos same.symm, if_pos same]
      rfl
    · rw [if_neg (Ne.symm same), if_neg same]
      rfl

theorem forall_check_eq_iff :
    (∀ q : Query, q.check feature = q.check other) ↔
      Key.normalize feature = Key.normalize other := by
  constructor
  · intro alike
    have answers := alike (ofKey (Key.normalize feature))
    rw [check_ofKey, check_ofKey, if_pos rfl] at answers
    by_cases empty : Key.normalize feature = [] <;> by_cases blank : Key.normalize other = []
    · rw [empty, blank]
    · simp [empty, blank] at answers
    · simp [empty, blank] at answers
    · simpa [empty, blank, eq_comm] using answers
  · exact check_congr

end Query

namespace Key

/-- A key is its own key and has no blanks, and only blanks have the empty key. The key of two texts
in a row is that of the one and then that of the other. A query answers a feature as it answers its
key, with the same error where there is one. -/
theorem normalize_projects (t : Text) :
    normalize (normalize t) = normalize t ∧
      (∀ a ∈ normalize t, Text.isBlank a = false) ∧
      (normalize t = [] ↔ ∀ a ∈ t, Text.isBlank a = true) ∧
      (∀ s, normalize (t ++ s) = normalize t ++ normalize s) ∧
      ∀ q : Query, q.check t = q.check (normalize t) := by
  refine ⟨normalize_normalize t, ?_, normalize_eq_nil_iff, normalize_append t, ?_⟩
  · intro a mem
    exact isBlank_of_mem_normalize mem
  · exact Query.forall_check_eq_iff.mpr (normalize_normalize t).symm

/-- A dotted capital I becomes two characters, and the sign of a unit becomes a letter. -/
theorem normalize_projects_wide :
    let t := "\u0130:\u2003\u212A".toList
    normalize t = "i\u0307:k".toList ∧ normalize "i\u0307:k".toList = "i\u0307:k".toList ∧
      'k' ∈ normalize t ∧ Text.isBlank 'k' = false ∧
      ¬(∀ a ∈ t, Text.isBlank a = true) ∧
      (Query.ofKey "i\u0307:k".toList).check t = .ok (some true) ∧
      (Query.ofKey "i\u0307:k".toList).check "i\u0307:k".toList = .ok (some true) := by
  intro t
  obtain ⟨again, solid, empty, -, answers⟩ := normalize_projects t
  have key : normalize t = "i\u0307:k".toList := by decide +kernel
  have mem : 'k' ∈ normalize t := by decide +kernel
  have asked : (Query.ofKey "i\u0307:k".toList).check t = .ok (some true) := by decide +kernel
  rw [key] at again answers
  refine ⟨key, again, mem, solid _ mem, ?_, asked, ?_⟩
  · intro blank
    have none := empty.mpr blank
    rw [none] at key
    cases key
  · rw [← answers, asked]

end Key

end FeatureQuery
