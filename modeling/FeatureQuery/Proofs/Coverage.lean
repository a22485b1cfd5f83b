import FeatureQuery.Proofs.Restart

/-!
# Nothing is lost

Tokens follow one another without overlap, each is what the text has at its span, and only blanks
and colons belong to none. So a text can be put together again from its tokens and its gaps.
-/

namespace FeatureQuery

open Token (Lexed isGap)

variable {n : Nat} {t raw : Text} {kind : Token.Kind} {tokens : List Token} {token : Token}

namespace Text

theorem width_pos {t : Text} (nonempty : t ≠ []) : 0 < t.width := by
  cases t with
  | nil => exact absurd rfl nonempty
  | cons c t => exact Nat.lt_add_right _ c.utf8Size_pos

/-- A character of two texts in a row is one of the first or one of the second. -/
theorem append_eq_append_cons {first second passed rest : Text} {c : Char}
    (h : first ++ second = passed ++ c :: rest) :
    (∃ more, first = passed ++ c :: more ∧ rest = more ++ second) ∨
      ∃ more, passed = first ++ more ∧ second = more ++ c :: rest := by
  rcases List.append_eq_append_iff.mp h with ⟨more, split, after⟩ | ⟨more, split, after⟩
  · exact .inr ⟨more, split, after⟩
  · cases more with
    | nil => exact .inr ⟨[], by simpa using split.symm, by simpa using after.symm⟩
    | cons a more =>
      obtain ⟨rfl, rfl⟩ := List.cons.inj after
      exact .inl ⟨more, split, rfl⟩

end Text

namespace Token

/-- The text of the token is what stands at its span. -/
def StandsIn (t : Text) (token : Token) : Prop :=
  ∃ before after, t = before ++ (token.raw ++ after) ∧
    token.span = ⟨before.width, before.width + token.raw.width⟩

/-- The byte at `p` belongs to the token. -/
def Covers (token : Token) (p : Nat) : Prop := token.span.start ≤ p ∧ p < token.span.stop

theorem isGap_iff {c : Char} : isGap c = true ↔ Text.isBlank c = true ∨ c = ':' := by
  simp [isGap]

theorem all_isGap_iff {gap : Text} :
    gap.all isGap = true ↔ ∀ c ∈ gap, Text.isBlank c = true ∨ c = ':' := by
  simp only [List.all_eq_true, isGap_iff]

end Token

namespace Cuts

theorem span_of_mem (cuts : Cuts n t tokens) (mem : token ∈ tokens) :
    n ≤ token.span.start ∧ token.span.start < token.span.stop ∧
      token.span.stop ≤ n + t.width := by
  obtain ⟨passed, rest, rfl, span, lexed⟩ := cuts.exists_lexed_of_mem mem
  have nonempty := Text.width_pos lexed.starts.ne_nil
  simp only [span, Text.width_append]
  omega

theorem standsIn_of_mem (cuts : Cuts 0 t tokens) (mem : token ∈ tokens) : token.StandsIn t := by
  obtain ⟨passed, rest, whole, span, -⟩ := cuts.exists_lexed_of_mem mem
  rw [Nat.zero_add] at span
  exact ⟨passed, rest, whole, span⟩

theorem pairwise_disjoint (cuts : Cuts n t tokens) :
    tokens.Pairwise fun a b => a.span.stop ≤ b.span.start := by
  induction cuts with
  | ended => exact .nil
  | token _ _ tail ih =>
    refine .cons ?_ ih
    intro later mem
    exact (tail.span_of_mem mem).1

theorem stop_le_start {a b : Token} {i j : Nat} (cuts : Cuts n t tokens)
    (at_i : tokens[i]? = some a) (at_j : tokens[j]? = some b) (behind : i < j) :
    a.span.stop ≤ b.span.start := by
  have apart := List.pairwise_iff_getElem.mp cuts.pairwise_disjoint
  obtain ⟨inside_i, rfl⟩ := List.getElem?_eq_some_iff.mp at_i
  obtain ⟨inside_j, rfl⟩ := List.getElem?_eq_some_iff.mp at_j
  exact apart i j inside_i inside_j behind

/-- No byte belongs to two tokens. -/
theorem eq_of_covers {a b : Token} {p : Nat} (cuts : Cuts n t tokens) (memA : a ∈ tokens)
    (memB : b ∈ tokens) (coversA : a.Covers p) (coversB : b.Covers p) : a = b := by
  have apart := cuts.pairwise_disjoint
  clear cuts
  induction apart with
  | nil => cases memA
  | @cons first later apart _ ih =>
    rcases List.mem_cons.mp memA with rfl | inA <;> rcases List.mem_cons.mp memB with rfl | inB
    · rfl
    · have order := apart b inB
      exact absurd coversA.2 (Nat.not_lt.mpr (Nat.le_trans order coversB.1))
    · have order := apart a inA
      exact absurd coversB.2 (Nat.not_lt.mpr (Nat.le_trans order coversA.1))
    · exact ih inA inB

theorem isGap_of_not_covered {passed rest : Text} {c : Char} (cuts : Cuts n t tokens)
    (split : t = passed ++ c :: rest)
    (free : ∀ token ∈ tokens, ¬token.Covers (n + passed.width)) : isGap c = true := by
  induction cuts generalizing passed with
  | ended gaps =>
    subst split
    simp_all
  | @token n gap kind raw more tokens gaps lexed tail ih =>
    rw [List.forall_mem_cons] at free
    rcases Text.append_eq_append_cons split with ⟨later, rfl, -⟩ | ⟨passed, rfl, inner⟩
    · simp_all
    rw [Text.width_append] at free
    rcases Text.append_eq_append_cons inner with ⟨later, rfl, -⟩ | ⟨passed, rfl, last⟩
    · have pos := c.utf8Size_pos
      exfalso
      apply free.1
      simp only [Token.Covers, Text.width_append, Text.width_cons]
      omega
    · apply ih last
      simpa only [Text.width_append, Nat.add_assoc] using free.2

/-- The gaps in front of each token, and the last one. -/
theorem exists_gaps (cuts : Cuts n t tokens) : ∃ gaps last, gaps.length = tokens.length ∧
    (∀ gap ∈ last :: gaps, gap.all isGap = true) ∧
    t = (gaps.zip tokens).flatMap (fun part => part.1 ++ part.2.raw) ++ last := by
  induction cuts with
  | @ended n gap gaps => exact ⟨[], gap, rfl, by simpa using gaps, rfl⟩
  | @token n gap kind raw more tokens here _ _ ih =>
    obtain ⟨gaps, last, length, all, rfl⟩ := ih
    refine ⟨gap :: gaps, last, by simp [length], ?_, by simp⟩
    simp only [List.forall_mem_cons] at all ⊢
    exact ⟨all.1, here, all.2⟩

end Cuts

theorem tokenize_eq_nil_iff : tokenize t = [] ↔ t.all isGap = true := by
  constructor
  · intro none
    have cuts := cuts_tokenize t
    rw [none] at cuts
    cases cuts with
    | ended gaps => exact gaps
  · intro gaps
    exact cuts_iff.mp (.ended gaps)

/-- The tokens of a text lie in it one after the other, each is what the text has at its span, and
the text is made of them and of blanks and colons between them. -/
theorem tokenize_lossless (t : Text) :
    (∀ token ∈ tokenize t, token.span.start < token.span.stop ∧ token.span.stop ≤ t.width ∧
      token.StandsIn t) ∧
    (tokenize t).Pairwise (fun a b => a.span.stop ≤ b.span.start) ∧
    (∀ (passed rest : Text) (c : Char), t = passed ++ c :: rest →
      (∀ token ∈ tokenize t, ¬token.Covers passed.width) → Text.isBlank c = true ∨ c = ':') ∧
    (∃ gaps last, gaps.length = (tokenize t).length ∧
      (∀ gap ∈ last :: gaps, ∀ c ∈ gap, Text.isBlank c = true ∨ c = ':') ∧
      t = (gaps.zip (tokenize t)).flatMap (fun part => part.1 ++ part.2.raw) ++ last) ∧
    (tokenize t = [] ↔ ∀ c ∈ t, Text.isBlank c = true ∨ c = ':') := by
  have cuts := cuts_tokenize t
  refine ⟨?_, cuts.pairwise_disjoint, ?_, ?_, ?_⟩
  · intro token mem
    obtain ⟨-, nonempty, inside⟩ := cuts.span_of_mem mem
    rw [Nat.zero_add] at inside
    exact ⟨nonempty, inside, cuts.standsIn_of_mem mem⟩
  · intro passed rest c split free
    apply Token.isGap_iff.mp
    apply cuts.isGap_of_not_covered split
    simpa only [Nat.zero_add] using free
  · simpa only [Token.all_isGap_iff] using cuts.exists_gaps
  · rw [tokenize_eq_nil_iff, Token.all_isGap_iff]

/-- The colon behind a keyword is a gap, and a character of two bytes is not split. -/
theorem tokenize_lossless_wide :
    let t := ":(not:é) ".toList
    let token : Token := ⟨.feature (.bare ['é']), ['é'], ⟨6, 8⟩⟩
    token ∈ tokenize t ∧ (6 < 8 ∧ 8 ≤ Text.width t ∧ token.StandsIn t) ∧
      t = ":(not".toList ++ ':' :: "é) ".toList ∧ (∀ token ∈ tokenize t, ¬token.Covers 5) ∧
      (Text.isBlank ':' = true ∨ ':' = ':') := by
  intro t token
  obtain ⟨inside, -, uncovered, -, -⟩ := tokenize_lossless t
  have mem : token ∈ tokenize t := by decide +kernel
  have split : t = ":(not".toList ++ ':' :: "é) ".toList := rfl
  have free : ∀ token ∈ tokenize t, ¬(token.span.start ≤ 5 ∧ 5 < token.span.stop) := by
    decide +kernel
  exact ⟨mem, inside token mem, split, free, uncovered _ _ _ split free⟩

end FeatureQuery
