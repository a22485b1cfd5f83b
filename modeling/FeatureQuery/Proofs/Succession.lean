import FeatureQuery.Proofs.Acceptance
import FeatureQuery.Proofs.Restart

/-!
# What follows a feature

A feature takes everything up to the `)` that encloses it, whatever its form. So it is the last
token, or this `)` is the next one, and a connective comes only behind a `)`.
-/

namespace FeatureQuery

open Token (Lexed)

variable {n : Nat} {t raw rest : Text} {token : Token} {tokens before after : List Token}

namespace Token

def IsFeature (token : Token) : Prop := ∃ f, token.kind = .feature f

/-- `b` is a `)` directly behind `a`. -/
structure ClosedBy (a b : Token) : Prop where
  kind : b.kind = .rparen
  raw : b.raw = [')']
  adjacent : b.span.start = a.span.stop

/-- Behind a feature there is no token but the `)` directly behind it. -/
def Enclosed (tokens : List Token) : Prop :=
  ∀ before a b after, tokens = before ++ a :: b :: after → a.IsFeature → a.ClosedBy b

theorem Enclosed.of_append (h : Enclosed (before ++ (tokens ++ after))) : Enclosed tokens := by
  rintro front a b back rfl
  apply h (before ++ front) a b (back ++ after)
  simp

theorem Lexed.atCloser {f : Feature} (lexed : Lexed (.feature f) raw rest) : AtCloser rest := by
  cases lexed with
  | keyword listed _ => simp [keywords] at listed
  | name _ ends => exact ends
  | body _ reads => exact atCloser_of_reads reads

theorem Lexed.raw_of_rparen (lexed : Lexed .rparen raw rest) : raw = [')'] := by
  cases lexed with
  | closing => rfl
  | keyword listed _ => simp [keywords] at listed

end Token

namespace Cuts

theorem unique {tokens' : List Token} (cuts : Cuts n t tokens) (cuts' : Cuts n t tokens') :
    tokens = tokens' :=
  (cuts_iff.mp cuts).symm.trans (cuts_iff.mp cuts')

theorem exists_closer (cuts : Cuts n (')' :: t) tokens) :
    ∃ later, tokens = ⟨.rparen, [')'], ⟨n, n + 1⟩⟩ :: later := by
  obtain ⟨later, more⟩ := Cuts.exists_tokens (n + Text.width [')']) t
  exact ⟨later, cuts.unique (.of_lexed .closing more)⟩

theorem raw_of_rparen (cuts : Cuts n t tokens) (mem : token ∈ tokens)
    (closes : token.kind = .rparen) : token.raw = [')'] := by
  obtain ⟨passed, rest, -, -, lexed⟩ := cuts.exists_lexed_of_mem mem
  rw [closes] at lexed
  exact lexed.raw_of_rparen

/-- A feature is the last token and ends with the text, or the `)` behind it is the next token. -/
theorem after_feature (cuts : Cuts n t (before ++ token :: after)) (feature : token.IsFeature) :
    after = [] ∧ token.span.stop = n + t.width ∨
      ∃ closer later, after = closer :: later ∧ token.ClosedBy closer := by
  obtain ⟨f, kind⟩ := feature
  obtain ⟨passed, rest, whole, span, lexed, tail⟩ := cuts.exists_after
  rw [kind] at lexed
  rcases lexed.atCloser.eq_nil_or_cons with rfl | ⟨more, rfl⟩
  · left
    refine ⟨tail.unique (.ended rfl), ?_⟩
    rw [span, whole, List.append_nil, Text.width_append, Nat.add_assoc]
  · right
    obtain ⟨later, rfl⟩ := tail.exists_closer
    exact ⟨_, later, rfl, rfl, rfl, rfl⟩

theorem enclosed (cuts : Cuts n t tokens) : Token.Enclosed tokens := by
  rintro before a b after rfl feature
  rcases cuts.after_feature feature with ⟨last, -⟩ | ⟨closer, later, next, closed⟩
  · cases last
  · cases next
    exact closed

end Cuts

namespace Phrase

variable {r : Role}

/-- The operands that stand directly on a level, in order; an operand has itself. -/
def parts : {r : Role} → Phrase r → List (Phrase .operand)
  | _, .feature f s => [.feature f s]
  | _, .not s o => [.not s o]
  | _, .parens opening p closing => [.parens opening p closing]
  | _, .single o => [o]
  | _, .join o _ _ p => o :: p.parts

/-- The levels in parentheses, at any depth. -/
def inner : {r : Role} → Phrase r → List (Phrase .level)
  | _, .feature _ _ => []
  | _, .not _ o => o.inner
  | _, .parens _ p _ => p :: p.inner
  | _, .single o => o.inner
  | _, .join o _ _ p => o.inner ++ p.inner

theorem operands_eq_map_parts (p : Phrase r) : p.operands = p.parts.map condition := by
  induction p with
  | feature | not | parens | single => simp [operands, parts, condition]
  | join o k s p _ ih => rw [operands, parts, ih, List.map_cons]

theorem parts_ne_nil (p : Phrase r) : p.parts ≠ [] := by
  cases p <;> simp [parts]

/-- An operand ends with a feature or with a `)`. -/
theorem exists_last (p : Phrase r) :
    ∃ front last, p.tokens = front ++ [last] ∧ (last.IsFeature ∨ last.kind = .rparen) := by
  induction p with
  | feature f s => exact ⟨[], _, rfl, .inl ⟨f, rfl⟩⟩
  | not s o ih =>
    obtain ⟨front, last, split, ends⟩ := ih
    exact ⟨s.token .not :: front, last, by rw [tokens, split, List.cons_append], ends⟩
  | parens opening p closing _ =>
    exact ⟨opening.token .lparen :: p.tokens, closing.token .rparen, rfl, .inr rfl⟩
  | single o ih => exact ih
  | join o k s p _ ih =>
    obtain ⟨front, last, split, ends⟩ := ih
    exact ⟨o.tokens ++ s.token k.tokenKind :: front, last, by simp [tokens, split], ends⟩

/-- Behind an operand that is not the last on its level there is a connective. -/
theorem exists_connective {p : Phrase r} {o : Phrase .operand} (mem : o ∈ p.parts.dropLast) :
    ∃ before k s after,
      p.tokens = before ++ (o.tokens ++ Token.Site.token (Connective.tokenKind k) s :: after) := by
  induction p with
  | feature | not | parens | single => cases mem
  | join first k s p _ ih =>
    rw [parts, List.dropLast_cons_of_ne_nil p.parts_ne_nil, List.mem_cons] at mem
    rcases mem with rfl | mem
    · exact ⟨[], k, s, p.tokens, rfl⟩
    · obtain ⟨before, l, site, after, split⟩ := ih mem
      exact ⟨first.tokens ++ s.token k.tokenKind :: before, l, site, after, by simp [tokens, split]⟩

theorem exists_tokens_of_inner {p : Phrase r} {level : Phrase .level} (mem : level ∈ p.inner) :
    ∃ before after, p.tokens = before ++ (level.tokens ++ after) := by
  induction p with
  | feature => cases mem
  | not s o ih =>
    obtain ⟨before, after, split⟩ := ih mem
    exact ⟨s.token .not :: before, after, by rw [tokens, split, List.cons_append]⟩
  | parens opening p closing ih =>
    rcases List.mem_cons.mp mem with rfl | mem
    · exact ⟨[opening.token .lparen], [closing.token .rparen], rfl⟩
    · obtain ⟨before, after, split⟩ := ih mem
      exact ⟨opening.token .lparen :: before, after ++ [closing.token .rparen],
        by simp [tokens, split]⟩
  | single o ih => exact ih mem
  | join o k s p iho ihp =>
    rcases List.mem_append.mp mem with mem | mem
    · obtain ⟨before, after, split⟩ := iho mem
      exact ⟨before, after ++ s.token k.tokenKind :: p.tokens, by simp [tokens, split]⟩
    · obtain ⟨before, after, split⟩ := ihp mem
      exact ⟨o.tokens ++ s.token k.tokenKind :: before, after, by simp [tokens, split]⟩

/-- Where a feature has nothing behind it but a `)`, an operand that is not the last on its level
ends with one. -/
theorem exists_closer_of_enclosed {p : Phrase r} {o : Phrase .operand}
    (enclosed : Token.Enclosed p.tokens) (mem : o ∈ p.parts.dropLast) :
    ∃ front closer, o.tokens = front ++ [closer] ∧ closer ∈ p.tokens ∧ closer.kind = .rparen := by
  obtain ⟨before, k, s, after, whole⟩ := exists_connective mem
  obtain ⟨front, last, split, feature | closes⟩ := o.exists_last
  · have next := enclosed (before ++ front) last (s.token k.tokenKind) after
      (by simp [whole, split]) feature
    have connects := next.kind
    cases k <;> cases connects
  · exact ⟨front, last, split, by simp [whole, split], closes⟩

end Phrase

namespace Condition

/-- A feature is the last token and ends with the text, or the next token is the `)` that starts
where the feature ends; so no connective comes directly behind a feature. In a condition that is
read, every operand of a level but the last ends with a `)`. -/
theorem feature_before_closer (t : Text) :
    (∀ (i : Nat) (token : Token) (f : Feature), (tokenize t)[i]? = some token →
      token.kind = .feature f →
      (tokenize t).length = i + 1 ∧ token.span.stop = t.width ∨
        ∃ closer, (tokenize t)[i + 1]? = some closer ∧ closer.kind = .rparen ∧
          closer.span.start = token.span.stop) ∧
    (∀ (i : Nat) (a b : Token) (f : Feature), (tokenize t)[i]? = some a → a.kind = .feature f →
      (tokenize t)[i + 1]? = some b → b.kind ≠ .and ∧ b.kind ≠ .or) ∧
    ∀ c, parse t = .ok c → ∃ p : Phrase .level, p.tokens = tokenize t ∧ p.condition = c ∧
      ∀ level ∈ p :: p.inner, level.operands = level.parts.map Phrase.condition ∧
        ∀ o ∈ level.parts.dropLast, ∃ front closer, o.tokens = front ++ [closer] ∧
          closer.kind = .rparen ∧ closer.raw = [')'] := by
  have cuts := cuts_tokenize t
  have next : ∀ (i : Nat) (token : Token) (f : Feature), (tokenize t)[i]? = some token →
      token.kind = .feature f →
      (tokenize t).length = i + 1 ∧ token.span.stop = t.width ∨
        ∃ closer, (tokenize t)[i + 1]? = some closer ∧ closer.kind = .rparen ∧
          closer.span.start = token.span.stop := by
    intro i token f here kind
    obtain ⟨before, after, split, rfl⟩ := Token.exists_split here
    rw [split] at cuts ⊢
    rcases cuts.after_feature ⟨f, kind⟩ with ⟨rfl, ends⟩ | ⟨closer, later, rfl, closed⟩
    · rw [Nat.zero_add] at ends
      exact .inl ⟨by simp, ends⟩
    · exact .inr ⟨closer, by simp, closed.kind, closed.adjacent⟩
  refine ⟨next, ?_, ?_⟩
  · intro i a b f here kind behind
    rcases next i a f here kind with ⟨last, -⟩ | ⟨closer, found, closes, -⟩
    · rw [List.getElem?_eq_none (Nat.le_of_eq last)] at behind
      cases behind
    · rw [behind] at found
      cases found
      simp [closes]
  · intro c accepted
    obtain ⟨-, p, written, -, rfl⟩ := parse_eq_ok_iff.mp accepted
    refine ⟨p, written, rfl, ?_⟩
    rw [← written] at cuts
    intro level mem
    refine ⟨level.operands_eq_map_parts, ?_⟩
    intro o inside
    obtain ⟨before, after, whole⟩ : ∃ before after,
        p.tokens = before ++ (level.tokens ++ after) := by
      rcases List.mem_cons.mp mem with rfl | mem
      · exact ⟨[], [], by simp⟩
      · exact Phrase.exists_tokens_of_inner mem
    have enclosed := cuts.enclosed
    rw [whole] at enclosed
    obtain ⟨front, closer, split, placed, closes⟩ :=
      Phrase.exists_closer_of_enclosed enclosed.of_append inside
    exact ⟨front, closer, split, closes, cuts.raw_of_rparen (by simp [whole, placed]) closes⟩

/-- A quoted `)` is not the one behind a feature, and the last operand ends with the text. -/
theorem feature_before_closer_quoted :
    let t := "(b: ')') and f(x".toList
    let token : Token := ⟨.feature ⟨.declaration, false, ['b'], "')'".toList⟩,
      "b: ')'".toList, ⟨1, 7⟩⟩
    let closer : Token := ⟨.rparen, [')'], ⟨7, 8⟩⟩
    let call : Feature := ⟨.function, true, ['f'], ['x']⟩
    let first : Phrase .operand :=
      .parens ⟨['('], ⟨0, 1⟩⟩ (.single (.feature ⟨.declaration, false, ['b'], "')'".toList⟩
        token.site)) closer.site
    let level : Phrase .level :=
      .join first .and ⟨"and".toList, ⟨9, 12⟩⟩ (.single (.feature call ⟨"f(x".toList, ⟨13, 16⟩⟩))
    (tokenize t)[1]? = some token ∧
      (∃ found, (tokenize t)[2]? = some found ∧ found.kind = .rparen ∧ found.span.start = 7) ∧
      closer.kind ≠ .and ∧ closer.kind ≠ .or ∧
      level.tokens = tokenize t ∧ parse t = .ok level.condition ∧ first ∈ level.parts.dropLast ∧
      ∃ front last, first.tokens = front ++ [last] ∧ last.raw = [')'] := by
  intro t token closer call first level
  obtain ⟨next, apart, read⟩ := feature_before_closer t
  have here : (tokenize t)[1]? = some token := by decide +kernel
  have behind : (tokenize t)[2]? = some closer := by decide +kernel
  have written : level.tokens = tokenize t := by decide +kernel
  have accepted : parse t = .ok level.condition := by decide +kernel
  have mem : first ∈ level.parts.dropLast := List.mem_singleton_self _
  obtain ⟨p, same, -, levels⟩ := read _ accepted
  obtain rfl : p = level := Phrase.tokens_injective (same.trans written.symm)
  obtain ⟨front, last, whole, -, raw⟩ := (levels level (List.mem_cons_self ..)).2 first mem
  have more : (tokenize t).length ≠ 2 := by decide +kernel
  have found := (next 1 token _ here rfl).resolve_left fun ended => more ended.1
  obtain ⟨notAnd, notOr⟩ := apart 1 token closer _ here rfl behind
  exact ⟨here, found, notAnd, notOr, written, accepted, mem, front, last, whole, raw⟩

end Condition

end FeatureQuery
