import FeatureQuery.Proofs.Lexeme

/-!
# How a text is cut

Gaps and tokens alternate until only a gap is left. The lexer cuts every text so, and in front of
each token it could as well start afresh: the character before it never decides about a keyword.
-/

namespace FeatureQuery

open Token (Lexed Starts isGap isWordChar)

/-- A text that starts at byte `n` is cut into these tokens, and gaps between them. -/
inductive Cuts : Nat → Text → List Token → Prop where
  | ended {n : Nat} {gap : Text} : gap.all isGap = true → Cuts n gap []
  | token {n : Nat} {gap : Text} {kind : Token.Kind} {raw rest : Text} {tokens : List Token} :
      gap.all isGap = true → Lexed kind raw rest → Cuts (n + gap.width + raw.width) rest tokens →
      Cuts n (gap ++ (raw ++ rest))
        (⟨kind, raw, ⟨n + gap.width, n + gap.width + raw.width⟩⟩ :: tokens)

variable {n : Nat} {t gap raw rest : Text} {kind : Token.Kind} {tokens : List Token} {c : Cursor}

theorem Cuts.exists_tokens (n : Nat) (t : Text) : ∃ tokens, Cuts n t tokens := by
  have whole := List.takeWhile_append_dropWhile (p := isGap) (l := t)
  have gaps := List.all_takeWhile (p := isGap) (l := t)
  have head := Text.any_head?_dropWhile isGap t
  match found : t.dropWhile isGap with
  | [] =>
    rw [found, List.append_nil] at whole
    rw [whole] at gaps
    exact ⟨[], .ended gaps⟩
  | a :: more =>
    rw [found] at whole head
    obtain ⟨kind, raw, rest, split, lexed⟩ :=
      Token.exists_lexed (t := a :: more) ⟨a, rfl, by simpa using head⟩
    have shorter : rest.length < t.length := by
      have pos := List.length_pos_iff.mpr lexed.starts.ne_nil
      rw [← whole, split, List.length_append, List.length_append]
      omega
    obtain ⟨tokens, cuts⟩ := exists_tokens (n + Text.width (t.takeWhile isGap) + raw.width) rest
    rw [← whole, split]
    exact ⟨_, .token gaps lexed cuts⟩
termination_by t.length

namespace Token

theorem Starts.not_gap {t : Text} (h : Starts t) : t.head?.any isGap = false := by
  obtain ⟨a, head, starts⟩ := h
  simp_all

end Token

namespace Cursor

/-- The place is not inside a word. -/
def Clear (c : Cursor) : Prop :=
  c.before.any isWordChar = true → c.rest.head?.any isWordChar = false

theorem clear_of_before (h : c.before.any isWordChar = false) : c.Clear := by
  intro word
  rw [h] at word
  cases word

theorem lexeme_of_clear (h : c.Clear) : Token.lexeme c.before c.rest = Token.lexeme none c.rest := by
  by_cases word : c.before.any isWordChar = true
  · simp only [Token.lexeme, Token.keyword?_of_not_word (h word)]
  · apply Token.lexeme_congr
    simpa using word

theorem skipGap_of_gap (split : c.rest = gap ++ t) (gaps : gap.all isGap = true)
    (starts : t.head?.any isGap = false) : c.skipGap = c.forward gap.length := by
  rw [List.all_eq_true] at gaps
  rw [skipGap, split, List.takeWhile_append_of_pos gaps, Text.takeWhile_eq_nil starts,
    List.append_nil]

theorem Clear.forward_gap (h : c.Clear) (split : c.rest = gap ++ t) (gaps : gap.all isGap = true) :
    (c.forward gap.length).Clear := by
  cases last : gap.getLast? with
  | none =>
    obtain rfl := List.getLast?_eq_none_iff.mp last
    simpa [forward] using h
  | some a =>
    apply clear_of_before
    have isGap := List.all_eq_true.mp gaps a (List.mem_of_getLast? last)
    simp [forward, split, last, Token.isWordChar_eq_false_of_isGap isGap]

theorem clear_forward_lexed (split : c.rest = raw ++ rest) (h : Lexed kind raw rest) :
    (c.forward raw.length).Clear := by
  have after : (c.forward raw.length).rest = rest := by simp [split]
  cases h with
  | opening | closing =>
    apply clear_of_before
    simp only [forward, split]
    rfl
  | keyword _ stops =>
    intro _
    rwa [after]
  | name _ ends =>
    intro _
    rw [after]
    exact ends.stopsWord
  | body _ reads =>
    intro _
    rw [after]
    exact (Token.atCloser_of_reads reads).stopsWord

theorem cut_of_lexed (split : c.rest = raw ++ rest) (h : Lexed kind raw rest)
    (same : Token.lexeme c.before c.rest = Token.lexeme none c.rest) :
    c.cut = (⟨kind, raw, ⟨c.offset, c.offset + raw.width⟩⟩, c.forward raw.length) := by
  rw [split, Token.lexeme_of_lexed h, ← split] at same
  simp only [cut, same]
  simp [split, forward]

/-- Where no word is being cut, the lexer cuts as `Cuts` says. -/
theorem tokens_of_cuts (cuts : Cuts n t tokens) (rest : c.rest = t) (offset : c.offset = n)
    (clear : c.Clear) : c.tokens = tokens := by
  induction cuts generalizing c with
  | @ended n gap gaps =>
    apply tokens_of_rest_skipGap_eq_nil
    rw [skipGap_of_gap (t := []) (by simpa using rest) gaps rfl]
    simp [rest]
  | @token n gap kind raw more tokens gaps lexed _ ih =>
    have skipped := skipGap_of_gap rest gaps (lexed.starts.append more).not_gap
    have here : c.skipGap.rest = raw ++ more := by simp [skipped, rest]
    have cut := cut_of_lexed here lexed (lexeme_of_clear (skipped ▸ clear.forward_gap rest gaps))
    have nonempty : c.skipGap.rest ≠ [] := by
      rw [here]
      exact (lexed.starts.append more).ne_nil
    have place : c.skipGap.offset = n + gap.width := by simp [skipped, forward, rest, offset]
    rw [tokens_of_rest_skipGap_ne_nil nonempty, cut, place, ih]
    · simp [here]
    · simp [forward, here, place]
    · exact clear_forward_lexed here lexed

end Cursor

theorem cuts_iff : Cuts n t tokens ↔ (⟨none, t, n⟩ : Cursor).tokens = tokens := by
  have sound : ∀ {tokens}, Cuts n t tokens → (⟨none, t, n⟩ : Cursor).tokens = tokens := by
    intro tokens cuts
    apply Cursor.tokens_of_cuts cuts rfl rfl
    exact Cursor.clear_of_before rfl
  constructor
  · exact sound
  · rintro rfl
    obtain ⟨tokens, cuts⟩ := Cuts.exists_tokens n t
    rwa [sound cuts]

theorem cuts_tokenize (t : Text) : Cuts 0 t (tokenize t) :=
  cuts_iff.mpr rfl

end FeatureQuery
