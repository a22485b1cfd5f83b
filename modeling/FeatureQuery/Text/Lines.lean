import FeatureQuery.Text.Basic

/-!
# Lines

A line ends with a line feed, or with a carriage return and a line feed. What follows the last
line feed is a line when it is not empty, and keeps its carriage return.
-/

namespace FeatureQuery.Text

variable {front : Text}

/-- The parts of a text, each up to and including a line feed. -/
def parts : Text → List Text
  | [] => []
  | c :: t =>
    if c = '\n' then [c] :: parts t
    else match parts t with
      | [] => [[c]]
      | part :: others => (c :: part) :: others

theorem flatten_parts (t : Text) : (parts t).flatten = t := by
  fun_induction parts t <;> simp_all

theorem parts_cons_lineFeed (t : Text) : parts ('\n' :: t) = ['\n'] :: parts t := rfl

theorem parts_cons {c d : Char} (letter : c ≠ '\n') (t : Text) :
    ∃ part others, parts (d :: t) = part :: others ∧
      parts (c :: d :: t) = (c :: part) :: others := by
  cases found : parts (d :: t) with
  | nil =>
    have whole := flatten_parts (d :: t)
    simp [found] at whole
  | cons part others => exact ⟨part, others, rfl, by rw [parts, if_neg letter, found]⟩

/-- Behind a finished line the parts start afresh. -/
theorem parts_append (whole : ∀ c ∈ front.getLast?, c = '\n') (later : Text) :
    parts (front ++ later) = parts front ++ parts later := by
  induction front with
  | nil => rfl
  | cons c front ih =>
    by_cases lineFeed : c = '\n'
    · subst lineFeed
      have tail := ih (fun c last => whole c (by simp_all [List.getLast?_cons]))
      rw [List.cons_append, parts_cons_lineFeed, parts_cons_lineFeed, tail]
      rfl
    · -- The line goes on, so there is a character behind this one.
      cases front with
      | nil => exact absurd (whole c rfl) lineFeed
      | cons d front =>
        have tail := ih (by simpa only [List.getLast?_cons_cons] using whole)
        obtain ⟨part, others, first, joined⟩ := parts_cons (d := d) lineFeed front
        obtain ⟨part', others', first', joined'⟩ := parts_cons (d := d) lineFeed (front ++ later)
        rw [List.cons_append, first', first, List.cons_append] at tail
        obtain ⟨rfl, rfl⟩ := List.cons.inj tail
        rw [List.cons_append, List.cons_append, joined', joined]
        rfl

def dropLineFeed (part : Text) : Text :=
  if part.getLast? = some '\n' then part.dropLast else part

def dropLineEnd (part : Text) : Text :=
  if part.getLast? = some '\n' then
    if part.dropLast.getLast? = some '\r' then part.dropLast.dropLast else part.dropLast
  else part

def lines (t : Text) : List Text := (parts t).map dropLineEnd

theorem lines_append (whole : ∀ c ∈ front.getLast?, c = '\n') (later : Text) :
    lines (front ++ later) = lines front ++ lines later := by
  rw [lines, parts_append whole, List.map_append]
  rfl

end FeatureQuery.Text
