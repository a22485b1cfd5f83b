import FeatureQuery.Query
import Mathlib.Data.List.DropRight

/-!
# Padding

Blanks around a condition and one at-keyword in front of it are gone before the condition is read.
So they change neither the tree nor an error, and the places that an error tells of are counted from
the condition itself.
-/

namespace FeatureQuery

namespace Text

variable {before after front t : Text}

/-- All that `trimEnd` takes away are blanks. -/
theorem exists_trimEnd_append (t : Text) :
    ∃ after, allBlank after = true ∧ t = trimEnd t ++ after := by
  refine ⟨t.rtakeWhile isBlank, ?_, List.rdropWhile_append_rtakeWhile.symm⟩
  exact List.all_eq_true.mpr fun _ => List.mem_rtakeWhile_imp

theorem trim_of_allBlank (blank : allBlank t = true) : trim t = [] := by
  have none : trimStart t = [] := List.dropWhile_eq_nil_iff.mpr (List.all_eq_true.mp blank)
  simp [trim, none, trimEnd]

theorem trim_append_left (blank : allBlank before = true) (t : Text) :
    trim (before ++ t) = trim t := by
  have all := List.all_eq_true.mp blank
  simp only [trim, trimStart, List.dropWhile_append_of_pos all]

theorem trim_append_right (blank : allBlank after = true) (t : Text) :
    trim (t ++ after) = trim t := by
  have all := List.all_eq_true.mp blank
  by_cases empty : trimStart t = []
  · have both : allBlank (t ++ after) = true := by
      simpa [allBlank] using ⟨List.dropWhile_eq_nil_iff.mp empty, all⟩
    rw [trim_of_allBlank both, trim, empty]
    rfl
  · have start : trimStart (t ++ after) = trimStart t ++ after :=
      List.dropWhile_append.trans (if_neg (mt List.isEmpty_iff.mp empty))
    have all' : ∀ c ∈ after.reverse, isBlank c = true := by simpa using all
    simp only [trim, start, trimEnd, List.reverse_append, List.dropWhile_append_of_pos all']

theorem trim_trim (t : Text) : trim (trim t) = trim t := by
  obtain ⟨after, blank, whole⟩ := exists_trimEnd_append (trimStart t)
  have again : trimStart (trimStart t) = trimStart t := List.dropWhile_idempotent isBlank t
  calc trim (trim t) = trim (trimEnd (trimStart t) ++ after) := (trim_append_right blank _).symm
    _ = trim (trimStart t) := by rw [← whole]
    _ = trim t := by rw [trim, again, trim]

theorem trim_eq_nil_iff : trim t = [] ↔ allBlank t = true := by
  refine ⟨?_, trim_of_allBlank⟩
  intro empty
  obtain ⟨after, blank, whole⟩ := exists_trimEnd_append (trimStart t)
  rw [show trimEnd (trimStart t) = [] from empty, List.nil_append] at whole
  rw [← List.takeWhile_append_dropWhile (p := isBlank) (l := t), allBlank, List.all_append,
    show t.dropWhile isBlank = after from whole, ← allBlank, ← allBlank, blank, Bool.and_true]
  exact List.all_takeWhile

/-- Behind a text that no blank begins or ends, only the end is trimmed. -/
theorem trim_append_of_solid (nonempty : front ≠ []) (first : trimStart front = front)
    (last : trimEnd front = front) (t : Text) : trim (front ++ t) = front ++ trimEnd t := by
  have start : trimStart (front ++ t) = front ++ t := by
    have kept : front.dropWhile isBlank = front := first
    rw [trimStart, List.dropWhile_append, kept, if_neg (mt List.isEmpty_iff.mp nonempty)]
  have kept : front.reverse.dropWhile isBlank = front.reverse := List.reverse_eq_iff.mp last
  rw [trim, start, trimEnd, List.reverse_append, List.dropWhile_append, kept]
  split
  · rename_i blank
    simp [trimEnd, List.isEmpty_iff.mp blank]
  · simp [trimEnd]

end Text

namespace Reading

/-- Tokens are never refused for want of a condition. -/
theorem run_ne_emptyInput (limit : Option Nat) (input : Text) (tokens : List Token) (s : Reading) :
    (s.run limit input tokens).1 ≠ .error .emptyInput := by
  induction tokens generalizing s with
  | nil =>
    simp only [run, finish]
    split
    · simp
    · split <;> simp
  | cons token tokens ih =>
    cases fed : s.feed limit token with
    | ok s' => simpa [run, fed] using ih s'
    | error e =>
      have other : e ≠ .emptyInput := by
        rintro rfl
        unfold feed at fed
        split at fed
        · split at fed <;> first | cases fed | (split at fed <;> cases fed)
        · split at fed <;> cases fed
      simpa [run, fed] using other

end Reading

namespace Query

variable {t t' c u v w : Text}

theorem conditionText_congr (same : Text.trim t = Text.trim t') :
    conditionText t = conditionText t' := by
  simp only [conditionText, same]

theorem conditionText_plain (nonempty : Text.trim t ≠ []) (plain : ¬atKeyword <+: Text.trim t) :
    conditionText t = .ok (Text.trim t) := by
  have kept : Text.dropStart? atKeyword (Text.trim t) = none := by
    simp [Text.dropStart?, List.isPrefixOf_iff_prefix, plain]
  simp [conditionText, nonempty, kept, Text.trim_trim]

theorem atKeyword_ne_nil : atKeyword ≠ [] := List.cons_ne_nil _ _

theorem trim_atKeyword_append (t : Text) :
    Text.trim (atKeyword ++ t) = atKeyword ++ Text.trimEnd t :=
  Text.trim_append_of_solid (by decide) (by decide +kernel) (by decide +kernel) t

theorem conditionText_atKeyword (t : Text) : conditionText (atKeyword ++ t) =
    if Text.allBlank t then .error .missingCondition else .ok (Text.trim t) := by
  obtain ⟨after, blank, whole⟩ := Text.exists_trimEnd_append t
  have same : Text.trim (Text.trimEnd t) = Text.trim t := by
    conv => rhs; rw [whole]
    exact (Text.trim_append_right blank _).symm
  have dropped :
      Text.dropStart? atKeyword (atKeyword ++ Text.trimEnd t) = some (Text.trimEnd t) := by
    simp [Text.dropStart?]
  have nonempty : atKeyword ++ Text.trimEnd t ≠ [] :=
    List.append_ne_nil_of_left_ne_nil atKeyword_ne_nil _
  simp [conditionText, trim_atKeyword_append, nonempty, dropped, same, Text.trim_eq_nil_iff]

/-- A text is blank, or the at-keyword alone, or has a condition that is not blank. -/
theorem conditionText_cases (t : Text) :
    (Text.trim t = [] ∧ conditionText t = .error .emptyCondition) ∨
      (Text.trim t = atKeyword ∧ conditionText t = .error .missingCondition) ∨
      (Text.trim t ≠ [] ∧ Text.trim t ≠ atKeyword ∧
        ∃ c, Text.allBlank c = false ∧ conditionText t = .ok c) := by
  have solid (s : Text) (nonempty : Text.trim s ≠ []) : Text.allBlank (Text.trim s) = false := by
    rwa [← Bool.not_eq_true, ← Text.trim_eq_nil_iff, Text.trim_trim]
  by_cases empty : Text.trim t = []
  · exact .inl ⟨empty, by simp [conditionText, empty]⟩
  by_cases starts : atKeyword <+: Text.trim t
  · obtain ⟨rest, split⟩ := starts
    have found : conditionText t = conditionText (atKeyword ++ rest) := by
      rw [split]
      exact conditionText_congr (Text.trim_trim t).symm
    rw [conditionText_atKeyword] at found
    have trimmed : Text.trimEnd rest = rest := by
      have again := Text.trim_trim t
      rw [← split, trim_atKeyword_append] at again
      exact List.append_cancel_left again
    by_cases blank : Text.allBlank rest = true
    · have none : Text.trimEnd rest = [] :=
        List.rdropWhile_eq_nil_iff.mpr (List.all_eq_true.mp blank)
      refine .inr (.inl ⟨?_, by rw [found, if_pos blank]⟩)
      rw [← split, ← trimmed, none, List.append_nil]
    · have more : rest ≠ [] := by
        rintro rfl
        exact blank rfl
      refine .inr (.inr ⟨empty, ?_, Text.trim rest, solid rest ?_, by rw [found, if_neg blank]⟩)
      · rw [← split]
        exact mt List.append_right_eq_self.mp more
      · exact mt Text.trim_eq_nil_iff.mp blank
  · refine .inr (.inr ⟨empty, ?_, Text.trim t, solid t empty, conditionText_plain empty starts⟩)
    intro same
    exact starts (same ▸ List.prefix_rfl)

theorem read_cases (t : Text) :
    (Text.trim t = [] ∧ read t = .error .emptyCondition) ∨
      (Text.trim t = atKeyword ∧ read t = .error .missingCondition) ∨
      (Text.trim t ≠ [] ∧ Text.trim t ≠ atKeyword ∧
        ∀ e, read t = .error e → ∃ cause, e = .parse cause ∧ cause ≠ .emptyInput) := by
  rcases conditionText_cases t with
    ⟨empty, found⟩ | ⟨alone, found⟩ | ⟨empty, alone, c, solid, found⟩
  · exact .inl ⟨empty, by rw [read, found]⟩
  · exact .inr (.inl ⟨alone, by rw [read, found]⟩)
  · refine .inr (.inr ⟨empty, alone, ?_⟩)
    intro e refused
    have parsed : Condition.parse c = (Parser.ofTokens c (tokenize c)).parse.1 := by
      rw [Condition.parse, solid]
      rfl
    cases answer : Condition.parse c with
    | ok condition =>
      simp only [read, found, answer] at refused
      cases refused
    | error cause =>
      simp only [read, found, answer] at refused
      cases refused
      refine ⟨cause, rfl, ?_⟩
      rintro rfl
      rw [parsed] at answer
      exact Reading.run_ne_emptyInput _ _ _ _ answer

theorem build_congr (same : conditionText t = conditionText t') (silent : Bool) :
    build silent t = build silent t' := by
  simp only [build, read, same]

theorem conditionText_padded (blankU : Text.allBlank u = true) (blankW : Text.allBlank w = true)
    (c : Text) : conditionText (u ++ c ++ w) = conditionText c := by
  apply conditionText_congr
  rw [Text.trim_append_right blankW, Text.trim_append_left blankU]

theorem conditionText_prefixed (nonempty : Text.trim c ≠ []) (plain : ¬atKeyword <+: Text.trim c)
    (blankU : Text.allBlank u = true) (blankV : Text.allBlank v = true)
    (blankW : Text.allBlank w = true) :
    conditionText (u ++ atKeyword ++ v ++ c ++ w) = conditionText c := by
  have solid : ¬Text.allBlank (v ++ c) = true := by
    rw [← Text.trim_eq_nil_iff, Text.trim_append_left blankV]
    exact nonempty
  calc conditionText (u ++ atKeyword ++ v ++ c ++ w)
      = conditionText (u ++ (atKeyword ++ (v ++ c)) ++ w) := by simp only [List.append_assoc]
    _ = conditionText (atKeyword ++ (v ++ c)) := conditionText_padded blankU blankW _
    _ = .ok (Text.trim c) := by
        rw [conditionText_atKeyword, if_neg solid, Text.trim_append_left blankV]
    _ = conditionText c := (conditionText_plain nonempty plain).symm

/-- A condition that is not blank and has no at-keyword is built alike with blanks around it, and
with one at-keyword between them: the same tree, or the same error in all that it tells. A text is
refused as empty only when it is blank, as missing its condition only when it is the at-keyword and
blanks around it, and never as an empty input of the parser. -/
theorem build_padded :
    (∀ c u v w : Text, Text.trim c ≠ [] → ¬atKeyword <+: Text.trim c →
      Text.allBlank u = true → Text.allBlank v = true → Text.allBlank w = true →
      ∀ silent, build silent (u ++ atKeyword ++ v ++ c ++ w) = build silent c ∧
        build silent (u ++ c ++ w) = build silent c) ∧
      ∀ t : Text, build false t ≠ .error (.parse .emptyInput) ∧
        (build false t = .error .emptyCondition ↔ Text.allBlank t = true) ∧
        (build false t = .error .missingCondition ↔ Text.trim t = atKeyword) := by
  constructor
  · intro c u v w nonempty plain blankU blankV blankW silent
    have prefixed := conditionText_prefixed nonempty plain blankU blankV blankW
    exact ⟨build_congr prefixed silent, build_congr (conditionText_padded blankU blankW c) silent⟩
  · intro t
    have refused (e : QueryError) : build false t = .error e ↔ read t = .error e := by
      cases answer : read t <;> simp [build, answer]
    simp only [ne_eq, refused, ← Text.trim_eq_nil_iff]
    rcases read_cases t with ⟨empty, answer⟩ | ⟨alone, answer⟩ | ⟨empty, alone, others⟩
    · simp [answer, empty, atKeyword_ne_nil.symm]
    · simp [answer, alone, atKeyword_ne_nil]
    · have no (e : QueryError) (not : ∀ cause, e = .parse cause → cause = .emptyInput) :
          read t ≠ .error e := by
        intro answer
        obtain ⟨cause, same, other⟩ := others e answer
        exact other (not cause same)
      refine ⟨no _ fun _ same => (QueryError.parse.inj same).symm, ?_, ?_⟩
      · exact iff_of_false (no _ nofun) empty
      · exact iff_of_false (no _ nofun) alone

/-- The span of a token that may not stand where it does is counted from the condition: neither wide
blanks nor the at-keyword, with nothing between it and the condition, shift it. -/
theorem build_padded_error :
    let c := "(é:1) )".toList
    let u := "\n\u3000".toList
    let w := "\u00a0\t".toList
    (Text.trim c ≠ [] ∧ ¬atKeyword <+: Text.trim c ∧ Text.allBlank u = true ∧
      Text.allBlank [] = true ∧ Text.allBlank w = true) ∧
      build false c = .error (.parse (.unexpectedToken ")".toList ⟨9, 10⟩)) ∧
      build false (u ++ atKeyword ++ [] ++ c ++ w) = build false c ∧
      build false (u ++ c ++ w) = build false c := by
  intro c u w
  have nonempty : Text.trim c ≠ [] := by decide +kernel
  have plain : ¬atKeyword <+: Text.trim c := by decide +kernel
  have blankU : Text.allBlank u = true := by decide +kernel
  have blankW : Text.allBlank w = true := by decide +kernel
  have answer : build false c = .error (.parse (.unexpectedToken ")".toList ⟨9, 10⟩)) := by
    decide +kernel
  have padded := build_padded.1 c u [] w nonempty plain blankU rfl blankW false
  exact ⟨⟨nonempty, plain, blankU, rfl, blankW⟩, answer, padded⟩

/-- Only one at-keyword is taken off. -/
example : conditionText "@supports @supports".toList = .ok atKeyword := by decide +kernel

end Query

end FeatureQuery
