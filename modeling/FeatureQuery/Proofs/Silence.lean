import FeatureQuery.Proofs.Answer
import FeatureQuery.Proofs.Shape

/-!
# Silent queries

A silent query answers where a strict one does, and answers alike; where a strict query reports an
error, it leaves the question open. A text that could not be read is as good as the placeholder,
which has a key that no feature has and no text is read as.
-/

namespace FeatureQuery.Query

variable {q : Query} {t feature : Text} {c : Condition} {e : QueryError}

theorem check_of_empty (q : Query) (empty : Key.normalize feature = []) :
    q.check feature = if q.silent then .ok none else .error .emptyFeature := by
  simp [check, outcomes, empty]

theorem exists_check_of_silent (silent : q.silent = true) (feature : Text) :
    ∃ answer, q.check feature = .ok answer := by
  by_cases empty : Key.normalize feature = []
  · exact ⟨none, by rw [check_of_empty q empty, if_pos silent]⟩
  · exact ⟨_, check_of_normalize_ne_nil q empty⟩

theorem evaluate_placeholder {key : Text} (nonempty : key ≠ []) :
    placeholder.evaluate key = .empty := by
  simp [placeholder, Condition.evaluate, nonempty.symm]

theorem check_placeholder (feature : Text) : check ⟨placeholder, true⟩ feature = .ok none := by
  by_cases empty : Key.normalize feature = []
  · rw [check_of_empty _ empty, if_pos rfl]
  · rw [check_of_normalize_ne_nil _ empty, evaluate_placeholder empty]
    rfl

theorem read_ne_placeholder : read t ≠ .ok placeholder := by
  intro accepted
  obtain ⟨text, -, parsed⟩ := read_eq_ok accepted
  have proper := Condition.everywhere_proper_of_parse parsed
  exact (proper [] placeholder rfl).1 rfl

theorem build_of_read (silent : Bool) (accepted : read t = .ok c) :
    build silent t = .ok ⟨c, silent⟩ := by
  simp [build, accepted]

theorem build_of_read_error (silent : Bool) (refused : read t = .error e) :
    build silent t = if silent then .ok ⟨placeholder, silent⟩ else .error e := by
  simp [build, refused]

/-- A silent query is built from every text, and never answers with an error. Where the strict query
is built, its condition is the same, and not the placeholder, and the answers are the same but for
a feature with an empty key. Where it is not, the condition is the placeholder, and every feature is
left open. -/
theorem silent_refines_strict (t : Text) :
    ∃ q, build true t = .ok q ∧ q.silent = true ∧
      (∀ feature, ∃ answer, q.check feature = .ok answer) ∧
      match build false t with
      | .ok strict =>
        strict.silent = false ∧ strict.condition ≠ placeholder ∧ q.condition = strict.condition ∧
          ∀ feature,
            if Key.normalize feature = [] then
              strict.check feature = .error .emptyFeature ∧ q.check feature = .ok none
            else q.check feature = strict.check feature
      | .error _ => q.condition = placeholder ∧ ∀ feature, q.check feature = .ok none := by
  cases found : read t with
  | error e =>
    rw [build_of_read_error true found, build_of_read_error false found]
    exact ⟨⟨placeholder, true⟩, rfl, rfl, exists_check_of_silent rfl, rfl, check_placeholder⟩
  | ok c =>
    rw [build_of_read true found, build_of_read false found]
    refine ⟨⟨c, true⟩, rfl, rfl, exists_check_of_silent rfl, rfl, ?_, rfl, ?_⟩
    · rintro rfl
      exact read_ne_placeholder found
    · intro feature
      split
      · rename_i empty
        exact ⟨check_of_empty _ empty, check_of_empty _ empty⟩
      · rename_i asked
        rw [check_of_normalize_ne_nil _ asked, check_of_normalize_ne_nil _ asked]

/-- A strict query that is built and knows an answer, and a feature without a key. -/
theorem silent_refines_strict_accepted :
    let t := "@supports (A: 1)".toList
    ∃ q strict, build true t = .ok q ∧ build false t = .ok strict ∧
      q.condition = .feature .declaration "a:1".toList ∧ strict.condition = q.condition ∧
      strict.check "a:1".toList = .ok (some true) ∧ q.check "a:1".toList = .ok (some true) ∧
      strict.check " ".toList = .error .emptyFeature ∧ q.check " ".toList = .ok none := by
  intro t
  let strict : Query := ⟨.feature .declaration "a:1".toList, false⟩
  have built : build false t = .ok strict := by decide +kernel
  have answer : strict.check "a:1".toList = .ok (some true) := by decide +kernel
  obtain ⟨q, silent, -, -, refined⟩ := silent_refines_strict t
  rw [built] at refined
  obtain ⟨-, -, same, answers⟩ := refined
  have asked := answers "a:1".toList
  rw [if_neg (by decide +kernel), answer] at asked
  have blank := answers " ".toList
  rw [if_pos (by decide +kernel)] at blank
  exact ⟨q, strict, silent, built, same, same.symm, answer, asked, blank⟩

end FeatureQuery.Query
