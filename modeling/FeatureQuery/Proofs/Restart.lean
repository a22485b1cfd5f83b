import FeatureQuery.Proofs.Cutting

/-!
# Starting at a token

The text of a token is one token, and the text from a token on has the tokens from there on. So
what was read of a text never matters to the rest of it, and the lexer need not look back.
-/

namespace FeatureQuery

open Token (Lexed isGap)

variable {n : Nat} {t raw rest : Text} {kind : Token.Kind} {token : Token}
  {before after tokens : List Token} {c : Cursor}

theorem Token.Lexed.alone (h : Lexed kind raw rest) : Lexed kind raw [] := by
  cases h with
  | opening => exact .opening
  | closing => exact .closing
  | keyword listed _ => exact .keyword listed rfl
  | name is _ => exact .name is (by simp [AtCloser])
  | body is reads => exact .body is reads.alone

theorem Token.exists_split {i : Nat} (here : tokens[i]? = some token) :
    ∃ before after, tokens = before ++ token :: after ∧ before.length = i := by
  obtain ⟨inside, found⟩ := List.getElem?_eq_some_iff.mp here
  have split := List.take_append_drop i tokens
  rw [List.drop_eq_getElem_cons inside, found] at split
  exact ⟨_, _, split.symm, List.length_take_of_le (Nat.le_of_lt inside)⟩

namespace Cuts

theorem of_lexed (lexed : Lexed kind raw rest) (tail : Cuts (n + raw.width) rest tokens) :
    Cuts n (raw ++ rest) (⟨kind, raw, ⟨n, n + raw.width⟩⟩ :: tokens) :=
  .token (show List.all [] isGap = true from rfl) lexed tail

/-- Where a token stands, and how the text is cut behind it. -/
theorem exists_after (cuts : Cuts n t (before ++ token :: after)) :
    ∃ passed rest, t = passed ++ (token.raw ++ rest) ∧
      token.span = ⟨n + passed.width, n + passed.width + token.raw.width⟩ ∧
      Lexed token.kind token.raw rest ∧ Cuts token.span.stop rest after := by
  induction before generalizing n t with
  | nil =>
    cases cuts with
    | @token _ gap kind raw rest _ gaps lexed tail => exact ⟨gap, rest, rfl, rfl, lexed, tail⟩
  | cons first before ih =>
    cases cuts with
    | @token _ gap kind raw rest _ gaps lexed tail =>
      obtain ⟨passed, more, rfl, span, here, next⟩ := ih tail
      refine ⟨gap ++ (raw ++ passed), more, by simp, ?_, here, next⟩
      simp only [span, Text.width_append, ← Nat.add_assoc]

/-- Where a token stands, and how the text is cut from there on. -/
theorem exists_lexed (cuts : Cuts n t (before ++ token :: after)) :
    ∃ passed rest, t = passed ++ (token.raw ++ rest) ∧
      token.span = ⟨n + passed.width, n + passed.width + token.raw.width⟩ ∧
      Lexed token.kind token.raw rest ∧
      Cuts token.span.start (token.raw ++ rest) (token :: after) := by
  obtain ⟨passed, rest, whole, span, lexed, tail⟩ := cuts.exists_after
  refine ⟨passed, rest, whole, span, lexed, ?_⟩
  rw [span] at tail
  have here := of_lexed lexed tail
  rw [← span] at here
  rwa [span]

theorem exists_lexed_of_mem (cuts : Cuts n t tokens) (mem : token ∈ tokens) :
    ∃ passed rest, t = passed ++ (token.raw ++ rest) ∧
      token.span = ⟨n + passed.width, n + passed.width + token.raw.width⟩ ∧
      Lexed token.kind token.raw rest := by
  obtain ⟨before, after, rfl⟩ := List.append_of_mem mem
  obtain ⟨passed, rest, whole, span, lexed, -⟩ := cuts.exists_lexed
  exact ⟨passed, rest, whole, span, lexed⟩

theorem shift (m : Nat) (cuts : Cuts n t tokens) : Cuts (n + m) t (tokens.map (Token.shift m)) := by
  induction cuts with
  | ended gaps => exact .ended gaps
  | @token n gap kind raw rest tokens gaps lexed _ ih =>
    have tail : Cuts (n + m + gap.width + raw.width) rest (tokens.map (Token.shift m)) := by
      simpa only [Nat.add_right_comm] using ih
    have whole := Cuts.token gaps lexed tail
    simpa only [List.map_cons, Token.shift, Span.shift, Nat.add_right_comm] using whole

theorem eq_shift_tokenize (cuts : Cuts n t tokens) : tokens = (tokenize t).map (Token.shift n) := by
  have shifted := (cuts_tokenize t).shift n
  rw [Nat.zero_add] at shifted
  exact (cuts_iff.mp cuts).symm.trans (cuts_iff.mp shifted)

theorem tokenize_raw (cuts : Cuts n t (before ++ token :: after)) :
    tokenize token.raw = [⟨token.kind, token.raw, ⟨0, token.raw.width⟩⟩] := by
  obtain ⟨_, _, -, -, lexed, -⟩ := cuts.exists_lexed
  have ended : Cuts (0 + token.raw.width) [] [] := .ended (by simp)
  have alone := Cuts.of_lexed lexed.alone ended
  rw [List.append_nil, Nat.zero_add] at alone
  exact cuts_iff.mp alone

end Cuts

namespace Cursor

/-- A cursor that does not know what is in front of it. -/
def blind (c : Cursor) : Cursor := { c with before := none }

/-- The tokens, when no keyword is refused for the character in front of it. -/
def unguardedTokens (c : Cursor) : List Token :=
  match _h : c.skipGap.blind.next? with
  | none => []
  | some (token, after) => token :: after.unguardedTokens
termination_by c.rest.length
decreasing_by
  have shorter := length_rest_next? _h
  have skipped : c.skipGap.rest.length ≤ c.rest.length := by simp [skipGap]
  exact Nat.lt_of_lt_of_le shorter skipped

theorem skipGap_blind (c : Cursor) : c.skipGap.blind.skipGap = c.skipGap.blind :=
  skipGap_eq_self c.takeWhile_isGap_rest_skipGap

theorem unguardedTokens_of_cuts (cuts : Cuts n t tokens) (rest : c.rest = t)
    (offset : c.offset = n) : c.unguardedTokens = tokens := by
  induction cuts generalizing c with
  | @ended n gap gaps =>
    have skipped := skipGap_of_gap (t := []) (by simpa using rest) gaps rfl
    have empty : c.skipGap.blind.rest = [] := by simp [blind, skipped, rest]
    have none : c.skipGap.blind.next? = none := by simp [next?, skipGap_blind, empty]
    rw [unguardedTokens, none]
  | @token n gap kind raw more tokens gaps lexed _ ih =>
    have starts := lexed.starts.append more
    have skipped := skipGap_of_gap rest gaps starts.not_gap
    have here : c.skipGap.blind.rest = raw ++ more := by simp [blind, skipped, rest]
    have place : c.skipGap.blind.offset = n + gap.width := by
      simp [blind, skipped, forward, rest, offset]
    have found : c.skipGap.blind.next? = some c.skipGap.blind.cut := by
      rw [next?, skipGap_blind, here, if_neg (by simpa using starts.ne_nil)]
    rw [unguardedTokens, found, cut_of_lexed here lexed rfl, place]
    simp only [List.cons.injEq, true_and]
    apply ih
    · simp [here]
    · simp [forward, here, place]

end Cursor

/-- A token is the only one of its own text, and the text from it on has the tokens from it on,
earlier by what is left out. Nor would a token change if keywords were recognised without regard to
the character in front. -/
theorem tokenize_restarts (t : Text) :
    (∀ (i : Nat) (token : Token), (tokenize t)[i]? = some token →
      tokenize token.raw = [⟨token.kind, token.raw, ⟨0, token.raw.width⟩⟩] ∧
      ∃ rest, Text.dropBytes? token.span.start t = some rest ∧
        (tokenize t).drop i = (tokenize rest).map (Token.shift token.span.start)) ∧
    (Cursor.start t).unguardedTokens = tokenize t := by
  constructor
  · intro i token here
    obtain ⟨before, after, split, rfl⟩ := Token.exists_split here
    have cuts := cuts_tokenize t
    rw [split] at cuts ⊢
    refine ⟨cuts.tokenize_raw, ?_⟩
    obtain ⟨passed, rest, whole, span, -, tail⟩ := cuts.exists_lexed
    refine ⟨token.raw ++ rest, ?_, ?_⟩
    · rw [span, whole, Nat.zero_add, Cursor.dropBytes?_width]
    · rw [List.drop_left, ← tail.eq_shift_tokenize]
  · exact Cursor.unguardedTokens_of_cuts (cuts_tokenize t) rfl rfl

/-- Behind a keyword, and with a `)` in a quoted string. -/
theorem tokenize_restarts_behind_keyword :
    let t := "(not-é: ')')".toList
    let token : Token := ⟨.feature ⟨.declaration, false, "-é".toList, "')'".toList⟩,
      "-é: ')'".toList, ⟨4, 12⟩⟩
    (tokenize t)[2]? = some token ∧ tokenize token.raw = [⟨token.kind, token.raw, ⟨0, 8⟩⟩] ∧
      ∃ rest, Text.dropBytes? 4 t = some rest ∧
        (tokenize t).drop 2 = (tokenize rest).map (Token.shift 4) := by
  intro t token
  have here : (tokenize t)[2]? = some token := by decide +kernel
  obtain ⟨alone, rest⟩ := (tokenize_restarts t).1 2 token here
  exact ⟨here, alone, rest⟩

end FeatureQuery
