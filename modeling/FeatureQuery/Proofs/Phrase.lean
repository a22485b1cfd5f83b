import FeatureQuery.Condition.Parser

/-!
# Phrases

The grammar of conditions. A level is one operand, or several with connectives between them; an
operand is a feature, an operand under `not`, or a level in parentheses. A phrase is a whole
derivation: it keeps every token it is written with, and has one condition.
-/

namespace FeatureQuery

/-- What a token has besides its kind. -/
structure Token.Site where
  raw : Text
  span : Span
  deriving DecidableEq, Repr

def Token.site (t : Token) : Token.Site := ⟨t.raw, t.span⟩

def Token.Site.token (kind : Token.Kind) (s : Token.Site) : Token := ⟨kind, s.raw, s.span⟩

theorem Token.token_site {t : Token} {kind : Token.Kind} (h : t.kind = kind) :
    t.site.token kind = t := by
  subst h
  rfl

@[simp] theorem Token.kind_token (kind : Token.Kind) (s : Token.Site) :
    (s.token kind).kind = kind := rfl

@[simp] theorem Token.token_inj {kind kind' : Token.Kind} {s s' : Token.Site} :
    s.token kind = s'.token kind' ↔ kind = kind' ∧ s = s' := by
  cases s; cases s'
  simp [Token.Site.token]

def Connective.tokenKind : Connective → Token.Kind
  | .and => .and
  | .or => .or

theorem Connective.tokenKind_inj {k l : Connective} : k.tokenKind = l.tokenKind ↔ k = l := by
  cases k <;> cases l <;> simp [Connective.tokenKind]

theorem Connective.all_eq_iff {k l : Connective} (other : ∀ m, m = k ↔ m ≠ l)
    (connectives : List Connective) : connectives.all (· = k) ↔ l ∉ connectives := by
  rw [List.all_eq_true]
  constructor
  · intro h mem
    exact (other l).mp (by simpa using h l mem) rfl
  · intro h m mem
    rw [decide_eq_true_eq, other]
    rintro rfl
    exact h mem

/-- How a level is joined, by which connectives occur on it. -/
def Junction.ofUse (connectives : List Connective) : Junction :=
  if .or ∉ connectives then .all
  else if .and ∉ connectives then .any
  else .mixed

theorem Junction.ofUse_eq (connectives : List Connective) :
    Junction.ofUse connectives = Junction.ofConnectives connectives := by
  have all_and : connectives.all (· = .and) ↔ .or ∉ connectives := by
    apply Connective.all_eq_iff
    intro m
    cases m <;> simp
  have all_or : connectives.all (· = .or) ↔ .and ∉ connectives := by
    apply Connective.all_eq_iff
    intro m
    cases m <;> simp
  simp only [Junction.ofUse, Junction.ofConnectives, all_and, all_or]

inductive Phrase.Role where
  | operand
  | level

inductive Phrase : Phrase.Role → Type where
  | feature (f : Feature) (s : Token.Site) : Phrase .operand
  | not (s : Token.Site) (o : Phrase .operand) : Phrase .operand
  | parens (opening : Token.Site) (p : Phrase .level) (closing : Token.Site) : Phrase .operand
  | single (o : Phrase .operand) : Phrase .level
  | join (o : Phrase .operand) (k : Connective) (s : Token.Site) (p : Phrase .level) :
      Phrase .level

namespace Phrase

variable {r : Role}

def tokens : {r : Role} → Phrase r → List Token
  | _, .feature f s => [s.token (.feature f)]
  | _, .not s o => s.token .not :: o.tokens
  | _, .parens opening p closing => opening.token .lparen :: (p.tokens ++ [closing.token .rparen])
  | _, .single o => o.tokens
  | _, .join o k s p => o.tokens ++ s.token k.tokenKind :: p.tokens

/-- The most `(` and `not` that one token lies in, or opens itself. -/
def nesting : {r : Role} → Phrase r → Nat
  | _, .feature _ _ => 0
  | _, .not _ o => o.nesting + 1
  | _, .parens _ p _ => p.nesting + 1
  | _, .single o => o.nesting
  | _, .join o _ _ p => max o.nesting p.nesting

/-- The connectives that stand directly on a level. -/
def connectives : {r : Role} → Phrase r → List Connective
  | _, .feature _ _ | _, .not _ _ | _, .parens _ _ _ | _, .single _ => []
  | _, .join _ k _ p => k :: p.connectives

mutual

/-- The condition a phrase is written for. A level with one operand is that operand. -/
def condition : {r : Role} → Phrase r → Condition
  | _, .feature f s => .feature f.kind (Key.normalize s.raw)
  | _, .not _ o => .not o.condition
  | _, .parens _ p _ => p.condition
  | _, .single o => o.condition
  | _, .join o k _ p => .group (.ofUse (k :: p.connectives)) (o.condition :: p.operands)

/-- The conditions of the operands on a level, in order; an operand has itself. -/
def operands : {r : Role} → Phrase r → List Condition
  | _, .feature f s => [.feature f.kind (Key.normalize s.raw)]
  | _, .not _ o => [.not o.condition]
  | _, .parens _ p _ => [p.condition]
  | _, .single o => [o.condition]
  | _, .join o _ _ p => o.condition :: p.operands

end

@[simp] theorem operands_operand (o : Phrase .operand) : o.operands = [o.condition] := by
  cases o <;> simp [operands, condition]

@[simp] theorem connectives_operand (o : Phrase .operand) : o.connectives = [] := by
  cases o <;> rfl

theorem operands_ne_nil (p : Phrase r) : p.operands ≠ [] := by
  cases p <;> simp [operands]

/-- A level is joined as its connectives decide, taken one after the other; where none has decided
anything, it is its only operand. -/
theorem condition_of_foldl_step (p : Phrase .level) :
    match p.connectives.foldl Junction.step none with
    | none => p.operands = [p.condition]
    | some j => p.condition = .group j p.operands := by
  rw [Junction.foldl_step]
  cases p with
  | single o => rfl
  | join o k s p => simp [connectives, condition, operands, Junction.ofUse_eq]

theorem tokens_ne_nil (p : Phrase r) : p.tokens ≠ [] := by
  cases p with
  | feature | not | parens | join => simp [tokens]
  | single o => cases o <;> simp [tokens]

theorem length_tokens_pos (p : Phrase r) : 0 < p.tokens.length :=
  List.length_pos_iff.mpr p.tokens_ne_nil

/-- No connective follows, so a level that ends here is complete. -/
def Stops (rest : List Token) : Prop :=
  ∀ token ∈ rest.head?, ∀ k : Connective, token.kind ≠ k.tokenKind

theorem stops_nil : Stops [] := by simp [Stops]

theorem stops_cons_rparen (s : Token.Site) (rest : List Token) :
    Stops (s.token .rparen :: rest) := by
  intro token head k
  simp only [List.head?_cons, Option.mem_some_iff] at head
  subst head
  cases k <;> simp [Connective.tokenKind]

theorem not_stops_cons (k : Connective) (s : Token.Site) (rest : List Token) :
    ¬Stops (s.token k.tokenKind :: rest) := by
  intro h
  exact h _ rfl k rfl

/-- An operand ends where its tokens say so; a level, where no connective follows. -/
theorem tokens_append_inj {p q : Phrase r} {a b : List Token} (ha : r = .level → Stops a)
    (hb : r = .level → Stops b) (h : p.tokens ++ a = q.tokens ++ b) : p = q ∧ a = b := by
  induction p generalizing a b with
  | feature f s =>
    cases q <;> simp [tokens] at h
    obtain ⟨⟨rfl, rfl⟩, rfl⟩ := h
    exact ⟨rfl, rfl⟩
  | not s o ih =>
    cases q <;> simp [tokens] at h
    obtain ⟨rfl, h⟩ := h
    obtain ⟨rfl, rfl⟩ := ih (by simp) (by simp) h
    exact ⟨rfl, rfl⟩
  | parens opening p closing ih =>
    cases q <;> simp [tokens] at h
    obtain ⟨rfl, h⟩ := h
    obtain ⟨rfl, rest⟩ := ih (fun _ => stops_cons_rparen _ _) (fun _ => stops_cons_rparen _ _) h
    simp only [List.cons.injEq, Token.token_inj, true_and] at rest
    obtain ⟨rfl, rfl⟩ := rest
    exact ⟨rfl, rfl⟩
  | single o ih =>
    cases q with
    | single o' =>
      obtain ⟨rfl, rfl⟩ := ih (by simp) (by simp) h
      exact ⟨rfl, rfl⟩
    | join o' k s q =>
      simp only [tokens, List.append_assoc, List.cons_append] at h
      obtain ⟨rfl, rfl⟩ := ih (by simp) (by simp) h
      exact absurd (ha rfl) (not_stops_cons k s _)
  | join o k s p iho ihp =>
    cases q with
    | single o' =>
      simp only [tokens, List.append_assoc, List.cons_append] at h
      obtain ⟨rfl, rfl⟩ := iho (by simp) (by simp) h
      exact absurd (hb rfl) (not_stops_cons k s _)
    | join o' k' s' q =>
      simp only [tokens, List.append_assoc, List.cons_append] at h
      obtain ⟨rfl, rest⟩ := iho (by simp) (by simp) h
      simp only [List.cons.injEq, Token.token_inj, Connective.tokenKind_inj] at rest
      obtain ⟨⟨rfl, rfl⟩, rest⟩ := rest
      obtain ⟨rfl, rfl⟩ := ihp ha hb rest
      exact ⟨rfl, rfl⟩

/-- The grammar is unambiguous. -/
theorem tokens_injective : Function.Injective (tokens : Phrase .level → List Token) := by
  intro p q h
  have same : p.tokens ++ [] = q.tokens ++ [] := by rw [h]
  exact (tokens_append_inj (fun _ => stops_nil) (fun _ => stops_nil) same).1

end Phrase

end FeatureQuery
