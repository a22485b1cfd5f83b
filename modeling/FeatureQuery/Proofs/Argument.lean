import FeatureQuery.Proofs.Restart
import FeatureQuery.Proofs.Spread

/-!
# The argument of a call

The body of a call is scanned up to the parenthesis that encloses the call, so behind the call's own
`)` there may be blanks that belong to the token. The `)` is dropped only from the very end.
-/

namespace FeatureQuery

namespace Body

variable {α : Type} [DecidableEq α] [Marked α] {letters body rest : List α} {depth : Nat}
  {terminated : Bool}

/-- Letters, closed quoted strings and pairs of parentheses. -/
inductive Balanced : List α → Prop where
  | ended : Balanced []
  | letter {a : α} {more : List α} : mark a = .escape ∨ mark a = .plain → Balanced more →
      Balanced (a :: more)
  | quoted {a : α} {content more : List α} : mark a = .quote → Quoted a content → Balanced more →
      Balanced (a :: (content ++ a :: more))
  | parens {a b : α} {inner more : List α} : mark a = .opening → Balanced inner →
      mark b = .closing → Balanced more → Balanced (a :: (inner ++ b :: more))

theorem Balanced.reads (balanced : Balanced letters) (reads : Reads depth body rest terminated) :
    Reads depth (letters ++ body) rest terminated := by
  induction balanced generalizing depth body with
  | ended => exact reads
  | letter other _ ih => exact .letter other (ih reads)
  | quoted isQuote closed _ ih =>
    rw [List.cons_append, List.append_assoc]
    exact .quoted isQuote closed (ih reads)
  | parens opens _ closes _ ihInner ihMore =>
    rw [List.cons_append, List.append_assoc]
    exact .opening opens (ihInner (.closing closes (ihMore reads)))

theorem Reads.terminated_eq {other : Bool} (reads : Reads depth body rest terminated)
    (reads' : Reads depth body rest other) : terminated = other :=
  (scan_of_reads reads).2.symm.trans (scan_of_reads reads').2

end Body

namespace Text

variable {c : Char} {after : Text}

theorem trim_append_cons (solid : isBlank c = false) (blank : allBlank after = true) (t : Text) :
    trim (t ++ c :: after) = trimStart t ++ [c] := by
  have front : trimStart (t ++ c :: after) = trimStart t ++ c :: after :=
    dropWhile_append_cons solid t after
  have all : ∀ b ∈ after.reverse, isBlank b = true := by
    simpa using List.all_eq_true.mp blank
  have back : (trimStart t ++ c :: after).reverse = after.reverse ++ c :: (trimStart t).reverse := by
    simp
  rw [trim, front, trimEnd, back, List.dropWhile_append_of_pos all, List.dropWhile_cons_of_neg]
  · simp
  · simp [solid]

theorem length_trimEnd_le (t : Text) : (trimEnd t).length ≤ t.length := by
  have shorter := (List.dropWhile_suffix isBlank (l := t.reverse)).length_le
  rw [List.length_reverse] at shorter
  rwa [trimEnd, List.length_reverse]

end Text

namespace Token

variable {t raw rest argument after : Text} {token : Token} {f : Feature}

theorem dropCloser_append_closer (argument : Text) : dropCloser (argument ++ [')']) = argument := by
  simp [dropCloser]

theorem dropCloser_append_blanks (blank : Text.allBlank after = true) (more : after ≠ [])
    (front : Text) : dropCloser (front ++ after) = front ++ after := by
  have last := List.getLast?_eq_some_getLast more
  have isBlank := List.all_eq_true.mp blank _ (List.getLast_mem more)
  have other : after.getLast more ≠ ')' := by
    intro same
    rw [same] at isBlank
    cases isBlank
  simp [dropCloser, last, other]

theorem AtCloser.reads (ends : AtCloser rest) : Body.Reads 0 [] rest true := by
  rcases ends.eq_nil_or_cons with rfl | ⟨more, rfl⟩
  · exact .ended
  · exact .stopped rfl

/-- A token with the text of a call is a call, and has this text as its body. -/
theorem Lexed.eq_of_call (lexed : Lexed (.feature f) raw rest)
    (split : raw = f.left ++ '(' :: (argument ++ ')' :: after)) (balanced : Body.Balanced argument)
    (blank : Text.allBlank after = true) :
    f.kind = .function ∧ f.right = Text.trim (dropCloser (argument ++ ')' :: after)) := by
  cases lexed with
  | keyword listed _ => simp [keywords] at listed
  | name is ends =>
    have length := congrArg List.length split
    simp [Feature.bare] at length
  | @body call name body _ terminated is reads =>
    have same : Feature.separator call :: body = '(' :: (argument ++ ')' :: after) :=
      List.append_cancel_left split
    obtain ⟨separator, rfl⟩ := List.cons.inj same
    obtain rfl : call = true := by
      cases call with
      | true => rfl
      | false => cases separator
    have blanks := Body.Reads.blanks blank (atCloser_of_reads reads).reads
    rw [List.append_nil] at blanks
    have scanned : Body.Reads 1 (argument ++ ')' :: after) rest true :=
      balanced.reads (.closing rfl blanks)
    obtain rfl := reads.terminated_eq scanned
    exact ⟨rfl, rfl⟩

/-- What a call has on its right is its argument, trimmed, just when its `)` ends the token. With
blanks behind it the `)` stays. -/
theorem right_of_call (mem : token ∈ tokenize t) (isFeature : token.kind = .feature f)
    (split : token.raw = f.left ++ '(' :: (argument ++ ')' :: after))
    (balanced : Body.Balanced argument) (blank : Text.allBlank after = true) :
    f.kind = .function ∧ (f.right = Text.trim argument ↔ after = []) ∧
      (after ≠ [] → f.right = Text.trimStart argument ++ [')']) := by
  obtain ⟨before, behind, whole⟩ := List.append_of_mem mem
  have cuts := cuts_tokenize t
  rw [whole] at cuts
  obtain ⟨passed, rest, -, -, lexed, -⟩ := cuts.exists_lexed
  rw [isFeature] at lexed
  obtain ⟨kind, right⟩ := lexed.eq_of_call split balanced blank
  by_cases ended : after = []
  · subst ended
    rw [dropCloser_append_closer] at right
    simp [kind, right]
  · have kept : dropCloser (argument ++ ')' :: after) = argument ++ ')' :: after := by
      have keeps := dropCloser_append_blanks blank ended (argument ++ [')'])
      rwa [List.append_assoc] at keeps
    rw [kept, Text.trim_append_cons (by decide) blank] at right
    have longer : (Text.trim argument).length < (Text.trimStart argument ++ [')']).length := by
      rw [List.length_append, List.length_singleton]
      exact Nat.lt_succ_of_le (Text.length_trimEnd_le (Text.trimStart argument))
    refine ⟨kind, ⟨?_, fun empty => absurd empty ended⟩, fun _ => right⟩
    intro trimmed
    rw [← right, trimmed] at longer
    exact absurd longer (Nat.lt_irrefl _)

/-- A quoted `)` does not end the argument. -/
theorem right_of_call_quoted :
    let argument := " (\")\") ".toList
    Body.Balanced argument ∧ ∃ token ∈ tokenize "(f( (\")\") ))".toList,
      ∃ f, token.kind = .feature f ∧ token.raw = f.left ++ '(' :: (argument ++ ')' :: []) ∧
        f.right = Text.trim argument ∧ Text.trim argument = "(\")\")".toList := by
  intro argument
  let f : Feature := ⟨.function, true, "f".toList, "(\")\")".toList⟩
  let token : Token := ⟨.feature f, "f( (\")\") )".toList, ⟨1, 11⟩⟩
  have blank : Body.Balanced [' '] := .letter (.inr rfl) .ended
  have quoted : Body.Balanced ('"' :: ([')'] ++ '"' :: [])) := .quoted rfl rfl .ended
  have pair : Body.Balanced ('(' :: ("\")\"".toList ++ ')' :: [' '])) := .parens rfl quoted rfl blank
  have balanced : Body.Balanced argument := .letter (.inr rfl) pair
  have mem : token ∈ tokenize "(f( (\")\") ))".toList := by decide +kernel
  obtain ⟨-, trimmed, -⟩ := right_of_call mem rfl rfl balanced (show Text.allBlank [] = true from rfl)
  exact ⟨balanced, token, mem, f, rfl, rfl, trimmed.mpr rfl, by decide⟩

/-- A blank behind the call leaves its `)` on the right. -/
theorem right_of_call_before_blank :
    let argument := "p".toList
    Body.Balanced argument ∧ ∃ token ∈ tokenize "selector(p) ".toList,
      ∃ f, token.kind = .feature f ∧ f.kind = .function ∧
        token.raw = f.left ++ '(' :: (argument ++ ')' :: [' ']) ∧
        f.right = "p)".toList ∧ f.right ≠ Text.trim argument := by
  intro argument
  let f : Feature := ⟨.function, true, "selector".toList, "p)".toList⟩
  let token : Token := ⟨.feature f, "selector(p) ".toList, ⟨0, 12⟩⟩
  have mem : token ∈ tokenize "selector(p) ".toList := by decide +kernel
  exact ⟨.letter (.inr rfl) .ended, token, mem, f, rfl, rfl, rfl, rfl, by decide⟩

end Token

end FeatureQuery
