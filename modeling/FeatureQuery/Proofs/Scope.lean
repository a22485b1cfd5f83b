import FeatureQuery.Proofs.Phrase

/-!
# What tokens govern

A `(` governs the level that it opens, a `not` its operand. Both are found by counting parentheses,
without reading the tokens as a phrase; in the tokens of a phrase they are what the phrase says.
-/

namespace FeatureQuery

namespace Token

/-- The tokens in front of the first `)` that closes none of them, when `depth` parentheses are
open besides. -/
def inside (depth : Nat) : List Token → List Token
  | [] => []
  | token :: rest =>
    match token.kind, depth with
    | .lparen, depth => token :: inside (depth + 1) rest
    | .rparen, 0 => []
    | .rparen, depth + 1 => token :: inside depth rest
    | _, depth => token :: inside depth rest

/-- The operand that the tokens start with. -/
def operand : List Token → List Token
  | [] => []
  | token :: rest =>
    match token.kind with
    | .not => token :: operand rest
    | .lparen => token :: rest.take ((inside 0 rest).length + 1)
    | _ => [token]

/-- An `or` stands directly on the level, when `depth` parentheses are open. -/
def hasOr (depth : Nat) : List Token → Bool
  | [] => false
  | token :: rest =>
    match token.kind, depth with
    | .lparen, depth => hasOr (depth + 1) rest
    | .rparen, depth => hasOr (depth - 1) rest
    | .or, 0 => true
    | _, depth => hasOr depth rest

/-- The tokens that a token governs, in those after it. -/
def scope (token : Token) (rest : List Token) : List Token :=
  match token.kind with
  | .not => operand rest
  | .lparen => inside 0 rest
  | _ => []

/-- The tokens that govern the `i`-th one, each with everything that it governs. -/
def governors : List Token → Nat → List (Token × List Token)
  | [], _ | _ :: _, 0 => []
  | token :: rest, i + 1 =>
    if i < (scope token rest).length then (token, scope token rest) :: governors rest i
    else governors rest i

/-- It lies in the operands of an odd number of `not`s. -/
def Negated (tokens : List Token) (i : Nat) : Prop :=
  (governors tokens i).countP (·.1.kind = .not) % 2 = 1

/-- A feature that can be met, and no level that it lies in has an `or`. -/
structure Visible (tokens : List Token) (i : Nat) (token : Token) : Prop where
  here : tokens[i]? = some token
  feature : ∃ f, token.kind = .feature f ∧ (f.kind = .declaration ∨ f.kind = .function)
  whole : hasOr 0 tokens = false
  around : ∀ g ∈ governors tokens i, g.1.kind = .lparen → hasOr 0 g.2 = false

end Token

namespace Phrase

open Token

variable {r : Role}

theorem inside_tokens (p : Phrase r) (depth : Nat) (rest : List Token) :
    inside depth (p.tokens ++ rest) = p.tokens ++ inside depth rest := by
  induction p generalizing depth rest with
  | feature f s => simp [tokens, inside]
  | not s o ih => simp [tokens, inside, ih]
  | parens opening p closing ih => simp [tokens, inside, ih]
  | single o ih => exact ih depth rest
  | join o k s p iho ihp => cases k <;> simp [tokens, inside, iho, ihp, Connective.tokenKind]

theorem inside_tokens_closing (p : Phrase r) (closing : Token.Site) (rest : List Token) :
    inside 0 (p.tokens ++ closing.token .rparen :: rest) = p.tokens := by
  simp [inside_tokens, inside]

theorem operand_tokens (p : Phrase r) (is : r = .operand) (rest : List Token) :
    operand (p.tokens ++ rest) = p.tokens := by
  induction p generalizing rest with
  | feature f s => simp [tokens, operand]
  | not s o ih => simp [tokens, operand, ih rfl]
  | parens opening p closing ih =>
    simp only [tokens, List.cons_append, List.append_assoc, List.nil_append, operand, kind_token,
      inside_tokens_closing, List.take_length_add_append]
    rfl
  | single | join => cases is

theorem hasOr_tokens_succ (p : Phrase r) (depth : Nat) (rest : List Token) :
    hasOr (depth + 1) (p.tokens ++ rest) = hasOr (depth + 1) rest := by
  induction p generalizing depth rest with
  | feature f s => simp [tokens, hasOr]
  | not s o ih => simp [tokens, hasOr, ih]
  | parens opening p closing ih => simp [tokens, hasOr, ih]
  | single o ih => exact ih depth rest
  | join o k s p iho ihp => cases k <;> simp [tokens, hasOr, iho, ihp, Connective.tokenKind]

theorem hasOr_tokens (p : Phrase r) (rest : List Token) :
    hasOr 0 (p.tokens ++ rest) = (decide (.or ∈ p.connectives) || hasOr 0 rest) := by
  induction p generalizing rest with
  | feature f s => simp [tokens, hasOr, connectives]
  | not s o ih => simp [tokens, hasOr, ih, connectives]
  | parens opening p closing ih => simp [tokens, hasOr, hasOr_tokens_succ, connectives]
  | single o ih => simp [tokens, ih, connectives]
  | join o k s p iho ihp =>
    cases k <;> simp [tokens, hasOr, iho, ihp, Connective.tokenKind, connectives]

theorem scope_not (s : Token.Site) (o : Phrase .operand) (rest : List Token) :
    scope (s.token .not) (o.tokens ++ rest) = o.tokens := by
  simp [scope, operand_tokens o rfl]

theorem scope_opening (opening closing : Token.Site) (p : Phrase .level) (rest : List Token) :
    scope (opening.token .lparen) (p.tokens ++ closing.token .rparen :: rest) = p.tokens := by
  simp [scope, inside_tokens_closing]

theorem scope_connective (k : Connective) (s : Token.Site) (rest : List Token) :
    scope (s.token k.tokenKind) rest = [] := by
  cases k <;> rfl

/-- Nothing in a phrase governs what comes after it. -/
theorem governors_tokens_append (p : Phrase r) (rest : List Token) (i : Nat) :
    governors (p.tokens ++ rest) (p.tokens.length + i) = governors rest i := by
  induction p generalizing rest i with
  | feature f s =>
    rw [tokens, List.length_singleton, Nat.add_comm]
    rfl
  | not s o ih =>
    have index : (tokens (.not s o)).length + i = o.tokens.length + i + 1 := by
      simp [tokens, Nat.add_right_comm]
    rw [index, tokens, List.cons_append, governors, scope_not, if_neg (by omega), ih]
  | parens opening p closing ih =>
    have index : (tokens (.parens opening p closing)).length + i =
        p.tokens.length + (i + 1) + 1 := by
      simp only [tokens, List.length_cons, List.length_append, List.length_nil]
      omega
    rw [index, tokens, List.cons_append, List.append_assoc, List.singleton_append, governors,
      scope_opening, if_neg (by omega), ih]
    rfl
  | single o ih => exact ih rest i
  | join o k s p iho ihp =>
    have index : (tokens (.join o k s p)).length + i =
        o.tokens.length + (p.tokens.length + i + 1) := by
      simp only [tokens, List.length_cons, List.length_append]
      omega
    rw [index, tokens, List.append_assoc, iho, List.cons_append, governors, scope_connective,
      if_neg (by simp), ihp]

/-- What comes after a phrase makes no difference to what governs its tokens. -/
theorem governors_append_of_lt (p : Phrase r) (rest : List Token) {i : Nat}
    (h : i < p.tokens.length) : governors (p.tokens ++ rest) i = governors p.tokens i := by
  induction p generalizing rest i with
  | feature f s =>
    obtain rfl : i = 0 := by simpa [tokens] using h
    rfl
  | not s o ih =>
    cases i with
    | zero => rfl
    | succ i =>
      have inner : i < o.tokens.length := by simpa [tokens] using h
      have alone := scope_not s o []
      rw [List.append_nil] at alone
      rw [tokens, List.cons_append, governors, governors, scope_not, alone, ih rest inner]
  | parens opening p closing ih =>
    cases i with
    | zero => rfl
    | succ i =>
      have inner : i < p.tokens.length + 1 := by simpa [tokens] using h
      rw [tokens, List.cons_append, List.append_assoc, List.singleton_append, governors, governors,
        scope_opening, scope_opening]
      rcases Nat.lt_succ_iff_lt_or_eq.mp inner with inner | rfl
      · rw [ih _ inner, ih _ inner]
      · have last (rest : List Token) :=
          p.governors_tokens_append (closing.token .rparen :: rest) 0
        rw [Nat.add_zero] at last
        rw [last, last]
        rfl
  | single o ih => exact ih rest h
  | join o k s p iho ihp =>
    rw [tokens, List.append_assoc]
    rcases Nat.lt_or_ge i o.tokens.length with first | later
    · rw [iho _ first, iho _ first]
    · obtain ⟨j, rfl⟩ := Nat.exists_eq_add_of_le later
      rw [governors_tokens_append, governors_tokens_append, List.cons_append]
      cases j with
      | zero => rfl
      | succ j =>
        have inner : j < p.tokens.length := by
          simp only [tokens, List.length_append, List.length_cons] at h
          omega
        simp only [governors, scope_connective, List.length_nil, Nat.not_lt_zero, if_false]
        exact ihp rest inner

end Phrase

end FeatureQuery
