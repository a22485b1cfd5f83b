import FeatureQuery.Proofs.Reading

/-!
# What the parser accepts

A run over the tokens of a phrase adds that phrase to the reading, whatever has been read before;
and a run that completes a reading must first have met a phrase. So the parser accepts exactly the
phrases that nest within its limit.
-/

namespace FeatureQuery

open Phrase (Stops)

variable {limit : Option Nat} {s : Reading} {c : Condition} {r : Phrase.Role}

theorem Condition.negated_not (n : Nat) (c : Condition) :
    negated n (.not c) = negated (n + 1) c := by
  induction n with
  | zero => rfl
  | succ n ih => rw [negated_succ, ih, negated_succ (n + 1)]

theorem Phrase.condition_level (p : Phrase .level) (n : Nat) :
    Level.condition ⟨p.operands, p.connectives, n⟩ = p.condition := by
  cases p with
  | single o => rfl
  | join o k s p =>
    obtain ⟨first, others, h⟩ := List.exists_cons_of_ne_nil p.operands_ne_nil
    simp [Level.condition, operands, connectives, condition, h, Junction.ofUse_eq]

namespace Reading

/-- Open parentheses and pending `not`s of the levels around the innermost one. -/
def around (outer : List Level) : Nat := outer.foldr (fun level n => level.negations + 1 + n) 0

@[simp] theorem around_cons (level : Level) (outer : List Level) :
    around (level :: outer) = level.negations + 1 + around outer := rfl

theorem depth_eq (s : Reading) : s.depth = s.level.negations + around s.outer := by
  obtain ⟨level, outer, due⟩ := s
  simp only [depth]
  induction outer with
  | nil => rfl
  | cons next outer ih =>
    rw [List.foldr_cons, ih, around_cons]
    omega

theorem depth_opened (s : Reading) : depth ⟨.empty, s.level :: s.outer, true⟩ = s.depth + 1 := by
  simp only [depth_eq, Level.empty, around_cons]
  omega

theorem depth_negate (s : Reading) : depth { s with level := s.level.negate } = s.depth + 1 := by
  simp only [depth_eq, Level.negate]
  omega

/-- The reading after a phrase: its first operand falls under the `not`s that were pending. -/
def extend (p : Phrase r) (s : Reading) : Reading :=
  ⟨⟨s.level.operands ++ p.operands.modifyHead (Condition.negated s.level.negations),
    s.level.connectives ++ p.connectives, 0⟩, s.outer, false⟩

/-- An operand takes the `not`s that were pending with it. -/
theorem depth_joined (p : Phrase r) (k : Connective) (s : Reading) :
    depth ⟨(s.extend p).level.join k, s.outer, true⟩ = around s.outer := by
  simp [depth_eq, extend, Level.join]

theorem around_outer_le_depth (s : Reading) : around s.outer ≤ s.depth := by
  rw [depth_eq]
  exact Nat.le_add_left _ _

theorem modifyHead_negated_zero (cs : List Condition) :
    cs.modifyHead (Condition.negated 0) = cs := by
  cases cs <;> rfl

theorem extend_operand (o : Phrase .operand) (s : Reading) :
    s.extend o = s.attach o.condition := by
  simp [extend, attach, Level.add]

theorem extend_not (site : Token.Site) (o : Phrase .operand) (s : Reading) :
    { s with level := s.level.negate }.extend o = s.extend (.not site o) := by
  simp [extend_operand, attach, Level.add, Level.negate, Phrase.condition, Condition.negated_not]

theorem extend_single (o : Phrase .operand) (s : Reading) : s.extend (.single o) = s.extend o := by
  simp [extend, Phrase.operands, Phrase.connectives]

theorem extend_join (o : Phrase .operand) (k : Connective) (site : Token.Site)
    (p : Phrase .level) (s : Reading) :
    extend p ⟨(s.extend o).level.join k, s.outer, true⟩ = s.extend (.join o k site p) := by
  simp [extend, Level.join, Phrase.operands, Phrase.connectives, modifyHead_negated_zero]

theorem extend_start (p : Phrase .level) (outer : List Level) :
    extend p ⟨.empty, outer, true⟩ = ⟨⟨p.operands, p.connectives, 0⟩, outer, false⟩ := by
  simp [extend, Level.empty, modifyHead_negated_zero]

/-- A phrase is read in any reading that has room for it, and what was read before does not
matter. -/
theorem feedAll_tokens (p : Phrase r) (s : Reading) (due : s.operandDue = true)
    (fits : Fits limit (s.depth + p.nesting)) : feedAll limit p.tokens s = .ok (s.extend p) := by
  induction p generalizing s with
  | feature f site =>
    rw [extend_operand, Phrase.tokens, feedAll_cons (feed_of_step (.feature f due rfl))]
    rfl
  | not site o ih =>
    simp only [Phrase.nesting] at fits
    have step : Step limit (site.token .not) s { s with level := s.level.negate } :=
      .negation due rfl (fits.mono (by omega))
    rw [Phrase.tokens, feedAll_cons (feed_of_step step), ← extend_not site]
    refine ih _ due ?_
    apply fits.mono
    rw [depth_negate]
    omega
  | parens opening p closing ih =>
    simp only [Phrase.nesting] at fits
    have step : Step limit (opening.token .lparen) s ⟨.empty, s.level :: s.outer, true⟩ :=
      .opening due rfl (fits.mono (by omega))
    have room : Fits limit (depth ⟨.empty, s.level :: s.outer, true⟩ + p.nesting) := by
      apply fits.mono
      rw [depth_opened]
      omega
    have inner := ih ⟨.empty, s.level :: s.outer, true⟩ rfl room
    rw [extend_start] at inner
    rw [Phrase.tokens, feedAll_cons (feed_of_step step), feedAll_append inner,
      feedAll_cons (feed_of_step (.closing rfl rfl rfl)), feedAll_nil, Phrase.condition_level]
    simp [extend_operand, Phrase.condition, attach]
  | single o ih =>
    rw [extend_single]
    exact ih s due fits
  | join o k site p iho ihp =>
    simp only [Phrase.nesting] at fits
    have first := iho s due (fits.mono (by omega))
    have step : Step limit (site.token k.tokenKind) (s.extend o)
        ⟨(s.extend o).level.join k, s.outer, true⟩ := .connective k rfl rfl
    rw [Phrase.tokens, feedAll_append first, feedAll_cons (feed_of_step step), ← extend_join]
    apply ihp _ rfl
    apply fits.mono
    have least := s.around_outer_le_depth
    rw [depth_joined]
    omega

theorem not_completes_nil (due : s.operandDue = true) : ¬Completes limit [] s c := by
  rintro ⟨t, fed, done, -⟩
  cases fed
  simp [due] at done

mutual

/-- Where an operand is due, a run that completes begins with one. -/
theorem exists_operand {tokens : List Token} {s : Reading} (due : s.operandDue = true)
    (room : Fits limit s.depth) (h : Completes limit tokens s c) :
    ∃ (o : Phrase .operand) (rest : List Token), tokens = o.tokens ++ rest ∧
      Fits limit (s.depth + o.nesting) ∧ Completes limit rest (s.extend o) c := by
  cases tokens with
  | nil => exact absurd h (not_completes_nil due)
  | cons token after =>
    obtain ⟨t, step, h⟩ := completes_cons h
    cases step with
    | opening _ kind fits =>
      obtain ⟨p, rest, rfl, fits, h, stops⟩ := exists_level rfl rfl (s.depth_opened ▸ fits) h
      rw [extend_start] at h
      cases rest with
      | nil =>
        obtain ⟨t, fed, -, closed, -⟩ := h
        cases fed
        cases closed
      | cons closing rest =>
        obtain ⟨t, step, h⟩ := completes_cons h
        cases step with
        | connective k _ connects => exact absurd connects (stops closing rfl k)
        | closing _ closes outer =>
          cases outer
          refine ⟨.parens token.site p closing.site, rest, ?_, ?_, ?_⟩
          · simp [Phrase.tokens, Token.token_site kind, Token.token_site closes]
          · apply fits.mono
            rw [depth_opened, Phrase.nesting]
            omega
          · rw [Phrase.condition_level] at h
            simpa [extend_operand, Phrase.condition, attach] using h
        | opening due | negation due | feature _ due => cases due
    | negation _ kind fits =>
      obtain ⟨o, rest, rfl, fits, h⟩ :=
        exists_operand (s := { s with level := s.level.negate }) due (s.depth_negate ▸ fits) h
      refine ⟨.not token.site o, rest, ?_, ?_, ?_⟩
      · simp [Phrase.tokens, Token.token_site kind]
      · apply fits.mono
        rw [depth_negate, Phrase.nesting]
        omega
      · rwa [extend_not] at h
    | feature f _ kind =>
      refine ⟨.feature f token.site, after, ?_, room, ?_⟩
      · simp [Phrase.tokens, Token.token_site kind]
      · rw [extend_operand]
        exact h
    | connective _ notDue | closing notDue => simp [due] at notDue
termination_by (tokens.length, 0)

/-- Where a level starts, a run that completes begins with one, and goes as far as it can. -/
theorem exists_level {tokens : List Token} {s : Reading} (due : s.operandDue = true)
    (free : s.level.negations = 0) (room : Fits limit s.depth) (h : Completes limit tokens s c) :
    ∃ (p : Phrase .level) (rest : List Token), tokens = p.tokens ++ rest ∧
      Fits limit (s.depth + p.nesting) ∧ Completes limit rest (s.extend p) c ∧ Stops rest := by
  obtain ⟨o, rest, rfl, fits, h⟩ := exists_operand due room h
  have shorter := o.length_tokens_pos
  cases rest with
  | nil => exact ⟨.single o, [], rfl, fits, by rwa [extend_single], Phrase.stops_nil⟩
  | cons token rest =>
    obtain ⟨t, step, next⟩ := completes_cons h
    cases step with
    | connective k _ kind =>
      have same : depth ⟨(s.extend o).level.join k, s.outer, true⟩ = s.depth := by
        rw [depth_joined, depth_eq, free, Nat.zero_add]
      obtain ⟨p, rest, rfl, deeper, h, stops⟩ :=
        exists_level (s := ⟨(s.extend o).level.join k, s.outer, true⟩) rfl rfl (same ▸ room) next
      refine ⟨.join o k token.site p, rest, ?_, ?_, ?_, stops⟩
      · simp [Phrase.tokens, Token.token_site kind]
      · rw [same] at deeper
        simp only [Phrase.nesting]
        rcases Nat.le_total o.nesting p.nesting with le | le
        · rwa [Nat.max_eq_right le]
        · rwa [Nat.max_eq_left le]
      · rwa [extend_join] at h
    | closing _ kind outer =>
      refine ⟨.single o, token :: rest, rfl, fits, by rwa [extend_single], ?_⟩
      rw [← Token.token_site kind]
      exact Phrase.stops_cons_rparen _ _
    | opening due | negation due | feature _ due => cases due
termination_by (tokens.length, 1)

end

theorem completes_start_iff {tokens : List Token} :
    Completes limit tokens start c ↔
      ∃ p : Phrase .level, p.tokens = tokens ∧ Fits limit p.nesting ∧ p.condition = c := by
  constructor
  · intro h
    have room : Fits limit start.depth := by
      intro m _
      exact Nat.zero_le m
    obtain ⟨p, rest, rfl, fits, h, stops⟩ := exists_level rfl rfl room h
    rw [start, extend_start] at h
    cases rest with
    | nil =>
      obtain ⟨t, fed, -, -, rfl⟩ := h
      cases fed
      exact ⟨p, by simp, by simpa [start, depth, Level.empty] using fits, (p.condition_level 0).symm⟩
    | cons token rest =>
      obtain ⟨t, step, -⟩ := completes_cons h
      cases step with
      | connective k _ connects => exact absurd connects (stops token rfl k)
      | closing _ _ outer => cases outer
      | opening due | negation due | feature _ due => cases due
  · rintro ⟨p, rfl, fits, rfl⟩
    refine ⟨_, feedAll_tokens p start rfl (by simpa [start, depth, Level.empty] using fits), ?_⟩
    rw [start, extend_start]
    exact ⟨rfl, rfl, p.condition_level 0⟩

end Reading

namespace Parser

/-- The parser answers with a condition exactly on the tokens of a phrase that nests no deeper than
256 levels, and then with the condition of that phrase; no tokens have two phrases. -/
theorem parse_eq_ok_iff_phrase (input : Text) (tokens : List Token) :
    (∀ c, (ofTokens input tokens).parse.1 = .ok c ↔
      ∃ p : Phrase .level, p.tokens = tokens ∧ p.nesting ≤ 256 ∧ p.condition = c) ∧
    Subsingleton { p : Phrase .level // p.tokens = tokens } := by
  constructor
  · intro c
    rw [parse_eq_ok_iff, Reading.completes_start_iff]
    simp [Reading.Fits, maxDepth]
  · constructor
    intro p q
    apply Subtype.ext
    apply Phrase.tokens_injective
    rw [p.property, q.property]

end Parser

namespace Condition

theorem parse_eq_ok_iff {t : Text} {c : Condition} :
    parse t = .ok c ↔ t.allBlank = false ∧
      ∃ p : Phrase .level, p.tokens = tokenize t ∧ p.nesting ≤ maxDepth ∧ p.condition = c := by
  unfold parse
  split
  · simp_all
  · rw [Parser.parse_eq_ok_iff, Reading.completes_start_iff]
    simp_all [Reading.Fits]

end Condition

end FeatureQuery
