import FeatureQuery.Proofs.Locality

/-!
# What a body is made of

A body is a sequence of letters, parentheses and quoted strings, and ends in front of the first
closing mark that it leaves over, or with the text. What a quoted string is can be seen from the
string alone; that a quote is never closed can only be seen from everything that follows.
-/

namespace FeatureQuery

/-- Only quotes and plain characters share their mark with another character. -/
theorem eq_of_mark {a b : Char} (same : mark a = mark b)
    (single : mark b = .escape ∨ mark b = .opening ∨ mark b = .closing) : a = b := by
  have code (n : Nat) : (Mark.ofCode n = .escape → n = 0x5C) ∧
      (Mark.ofCode n = .opening → n = 0x28) ∧ (Mark.ofCode n = .closing → n = 0x29) := by
    unfold Mark.ofCode
    split <;> simp
  obtain ⟨escapeA, openingA, closingA⟩ := code a.toNat
  obtain ⟨escapeB, openingB, closingB⟩ := code b.toNat
  apply Char.toNat_inj.mp
  rcases single with is | is | is
  · exact (escapeA (same.trans is)).trans (escapeB is).symm
  · exact (openingA (same.trans is)).trans (openingB is).symm
  · exact (closingA (same.trans is)).trans (closingB is).symm

namespace Body

variable {α : Type} [DecidableEq α] [Marked α] {quote : α} {escaped : Bool}
  {letters body rest : List α} {depth k : Nat} {terminated : Bool}

/-- The first `quote` after `content` that closes is the one directly after it. -/
def Quoted (quote : α) (content : List α) : Prop :=
  closer quote (content ++ [quote]) = some content.length

/-- With `depth` parentheses open, a body is read and `rest` is left over. -/
inductive Reads : Nat → List α → List α → Bool → Prop where
  | ended {depth : Nat} : Reads depth [] [] true
  | stopped {a : α} {rest : List α} : mark a = .closing → Reads 0 [] (a :: rest) true
  | quoted {depth : Nat} {a : α} {content body rest : List α} {terminated : Bool} :
      mark a = .quote → Quoted a content → Reads depth body rest terminated →
      Reads depth (a :: (content ++ a :: body)) rest terminated
  | unclosed {depth : Nat} {a : α} {body rest : List α} {terminated : Bool} :
      mark a = .quote → closer a (body ++ rest) = none → Reads depth body rest terminated →
      Reads depth (a :: body) rest false
  | opening {depth : Nat} {a : α} {body rest : List α} {terminated : Bool} :
      mark a = .opening → Reads (depth + 1) body rest terminated →
      Reads depth (a :: body) rest terminated
  | closing {depth : Nat} {a : α} {body rest : List α} {terminated : Bool} :
      mark a = .closing → Reads depth body rest terminated →
      Reads (depth + 1) (a :: body) rest terminated
  | letter {depth : Nat} {a : α} {body rest : List α} {terminated : Bool} :
      mark a = .escape ∨ mark a = .plain → Reads depth body rest terminated →
      Reads depth (a :: body) rest terminated

theorem exists_content (h : closerFrom quote escaped letters = some k) :
    ∃ content more, letters = content ++ quote :: more ∧ content.length = k ∧
      closerFrom quote escaped (content ++ [quote]) = some k := by
  induction letters generalizing escaped k with
  | nil => cases h
  | cons a rest ih =>
    simp only [closerFrom] at h
    split at h
    · rename_i closes
      cases h
      obtain ⟨rfl, unescaped⟩ := closes
      refine ⟨[], rest, rfl, rfl, ?_⟩
      simp [closerFrom, unescaped]
    · rename_i goesOn
      obtain ⟨j, found, rfl⟩ := Option.map_eq_some_iff.mp h
      obtain ⟨content, more, rfl, length, alone⟩ := ih found
      refine ⟨a :: content, more, rfl, by simp [length], ?_⟩
      rw [List.cons_append, closerFrom, if_neg goesOn, alone, Option.map_some]

theorem exists_quoted (h : closer quote letters = some k) :
    ∃ content more, letters = content ++ quote :: more ∧ content.length = k ∧
      Quoted quote content := by
  obtain ⟨content, more, whole, length, alone⟩ := exists_content h
  refine ⟨content, more, whole, length, ?_⟩
  rw [Quoted, closer, alone, length]

theorem Quoted.closer_append {content : List α} (h : Quoted quote content) (more : List α) :
    closer quote (content ++ quote :: more) = some content.length := by
  have append := closerFrom_append h more
  rwa [List.append_assoc] at append

theorem closer_eq_none_of_append {more : List α} (h : closer quote (letters ++ more) = none) :
    closer quote letters = none := by
  cases found : closer quote letters with
  | none => rfl
  | some k =>
    have append := closerFrom_append found more
    rw [closer] at h
    rw [h] at append
    cases append

theorem scan_quoted (depth : Nat) (content letters : List α) :
    scan depth content.length (content ++ letters) =
      (scan depth 0 letters).after content.length := by
  induction content with
  | nil => simp [Extent.after]
  | cons a content ih =>
    rw [List.length_cons, List.cons_append, scan, ih]
    simp only [Extent.after, Extent.mk.injEq, and_true]
    omega

/-- The scan stops where the body ends, and tells whether it is in order. -/
theorem scan_of_reads (h : Reads depth body rest terminated) :
    (scan depth 0 (body ++ rest)).length = body.length ∧
      (scan depth 0 (body ++ rest)).terminated = terminated := by
  induction h with
  | ended => simp [scan]
  | stopped closes => simp [scan, closes]
  | @quoted depth a content body rest terminated isQuote closed _ ih =>
    have found : closer a (content ++ a :: (body ++ rest)) = some content.length :=
      closed.closer_append _
    have skipped := scan_quoted depth (content ++ [a]) (body ++ rest)
    simp only [List.length_append, List.length_singleton, List.append_assoc,
      List.singleton_append] at skipped
    simp only [List.cons_append, List.append_assoc, scan, isQuote, found, skipped]
    simp only [Extent.after, ih, List.length_cons, List.length_append, and_true]
    omega
  | unclosed isQuote found _ ih =>
    simp [scan, isQuote, found, Extent.after, Extent.spoiled, ih, Nat.add_comm]
  | opening opens _ ih => simp [scan, opens, Extent.after, ih, Nat.add_comm]
  | closing closes _ ih => simp [scan, closes, Extent.after, ih, Nat.add_comm]
  | letter other _ ih =>
    rcases other with other | other <;> simp [scan, other, Extent.after, ih, Nat.add_comm]

/-- Every text starts with a body. -/
theorem exists_reads (depth : Nat) (letters : List α) :
    ∃ body rest terminated, letters = body ++ rest ∧ Reads depth body rest terminated := by
  match letters with
  | [] => exact ⟨[], [], true, rfl, .ended⟩
  | a :: letters =>
    cases kind : mark a with
    | quote =>
      cases found : closer a letters with
      | some k =>
        obtain ⟨content, more, rfl, -, closed⟩ := exists_quoted found
        obtain ⟨body, rest, terminated, rfl, reads⟩ := exists_reads depth more
        exact ⟨_, rest, terminated, by simp, .quoted kind closed reads⟩
      | none =>
        obtain ⟨body, rest, terminated, rfl, reads⟩ := exists_reads depth letters
        exact ⟨_, rest, false, rfl, .unclosed kind found reads⟩
    | opening =>
      obtain ⟨body, rest, terminated, rfl, reads⟩ := exists_reads (depth + 1) letters
      exact ⟨_, rest, terminated, rfl, .opening kind reads⟩
    | closing =>
      cases depth with
      | zero => exact ⟨[], a :: letters, true, rfl, .stopped kind⟩
      | succ depth =>
        obtain ⟨body, rest, terminated, rfl, reads⟩ := exists_reads depth letters
        exact ⟨_, rest, terminated, rfl, .closing kind reads⟩
    | escape =>
      obtain ⟨body, rest, terminated, rfl, reads⟩ := exists_reads depth letters
      exact ⟨_, rest, terminated, rfl, .letter (.inl kind) reads⟩
    | plain =>
      obtain ⟨body, rest, terminated, rfl, reads⟩ := exists_reads depth letters
      exact ⟨_, rest, terminated, rfl, .letter (.inr kind) reads⟩
termination_by letters.length
decreasing_by all_goals simp_all <;> omega

theorem Reads.closes (h : Reads depth body rest terminated) :
    ∀ a ∈ rest.head?, mark a = .closing := by
  induction h with
  | ended => simp
  | stopped closes => simpa using closes
  | quoted _ _ _ ih | unclosed _ _ _ ih | opening _ _ ih | closing _ _ ih | letter _ _ ih => exact ih

/-- A body is read alone as it is read in front of what follows. -/
theorem Reads.alone (h : Reads depth body rest terminated) : Reads depth body [] terminated := by
  induction h with
  | ended | stopped => exact .ended
  | quoted isQuote closed _ ih => exact .quoted isQuote closed ih
  | unclosed isQuote found _ ih =>
    refine .unclosed isQuote ?_ ih
    rw [List.append_nil]
    exact closer_eq_none_of_append found
  | opening opens _ ih => exact .opening opens ih
  | closing closes _ ih => exact .closing closes ih
  | letter other _ ih => exact .letter other ih

end Body

end FeatureQuery
