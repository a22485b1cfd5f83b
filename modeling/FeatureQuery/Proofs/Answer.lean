import FeatureQuery.Query
import FeatureQuery.Proofs.Acceptance
import FeatureQuery.Proofs.Scope

/-!
# What a query answers

The answer to a query can be read off the tokens of its condition: which features are visible, and
under how many `not`s they stand.
-/

namespace FeatureQuery

open Token (governors hasOr scope Negated Visible)

variable {key : Text} {b : Bool} {r : Phrase.Role}

namespace Token

/-- The `i`-th token asks for `b`, as far as the levels that are opened in these tokens allow. -/
def Asks (key : Text) (b : Bool) (tokens : List Token) (i : Nat) : Prop :=
  ∃ token f, tokens[i]? = some token ∧ token.kind = .feature f ∧ f.kind ≠ .invalid ∧
    Key.normalize token.raw = key ∧
    (∀ g ∈ governors tokens i, g.1.kind = .lparen → hasOr 0 g.2 = false) ∧
    (Negated tokens i ↔ b = false)

theorem lt_length_of_asks {tokens : List Token} {i : Nat} (h : Asks key b tokens i) :
    i < tokens.length := by
  obtain ⟨token, f, here, -⟩ := h
  exact (List.getElem?_eq_some_iff.mp here).1

theorem not_asks_zero {token : Token} (other : ∀ f, token.kind ≠ .feature f)
    (rest : List Token) : ¬Asks key b (token :: rest) 0 := by
  rintro ⟨_, f, here, kind, -⟩
  cases here
  exact other f kind

theorem exists_asks_cons {token : Token} (other : ∀ f, token.kind ≠ .feature f)
    (rest : List Token) :
    (∃ i, Asks key b (token :: rest) i) ↔ ∃ i, Asks key b (token :: rest) (i + 1) := by
  constructor
  · rintro ⟨i, h⟩
    cases i with
    | zero => exact absurd h (not_asks_zero other rest)
    | succ i => exact ⟨i, h⟩
  · rintro ⟨i, h⟩
    exact ⟨i + 1, h⟩

end Token

namespace Phrase

open Token

theorem exists_asks_append (p : Phrase r) (rest : List Token) :
    (∃ i, Asks key b (p.tokens ++ rest) i) ↔
      (∃ i, Asks key b p.tokens i) ∨ ∃ i, Asks key b rest i := by
  have early {i : Nat} (h : i < p.tokens.length) :
      Asks key b (p.tokens ++ rest) i ↔ Asks key b p.tokens i := by
    simp only [Asks, Negated, governors_append_of_lt p rest h, List.getElem?_append_left h]
  have late (i : Nat) : Asks key b (p.tokens ++ rest) (p.tokens.length + i) ↔ Asks key b rest i := by
    simp only [Asks, Negated, governors_tokens_append,
      List.getElem?_append_right (Nat.le_add_right _ _), Nat.add_sub_cancel_left]
  constructor
  · rintro ⟨i, h⟩
    rcases Nat.lt_or_ge i p.tokens.length with lt | ge
    · exact .inl ⟨i, (early lt).mp h⟩
    · obtain ⟨j, rfl⟩ := Nat.exists_eq_add_of_le ge
      exact .inr ⟨j, (late j).mp h⟩
  · rintro (⟨i, h⟩ | ⟨i, h⟩)
    · exact ⟨i, (early (lt_length_of_asks h)).mpr h⟩
    · exact ⟨_, (late i).mpr h⟩

theorem asks_not (s : Token.Site) (o : Phrase .operand) (i : Nat) :
    Asks key b (s.token .not :: o.tokens) (i + 1) ↔ Asks key (!b) o.tokens i := by
  have alone : scope (s.token .not) o.tokens = o.tokens := by simpa using scope_not s o []
  by_cases inner : i < o.tokens.length
  · have around : governors (s.token .not :: o.tokens) (i + 1) =
        (s.token .not, o.tokens) :: governors o.tokens i := by
      rw [governors, alone, if_pos inner]
    have flips : Negated (s.token .not :: o.tokens) (i + 1) ↔ ¬Negated o.tokens i := by
      simp only [Negated, around, List.countP_cons, kind_token, decide_true, if_true]
      omega
    simp only [Asks, around, flips, List.getElem?_cons_succ, List.forall_mem_cons, kind_token]
    cases b <;> simp
  · apply iff_of_false
    · intro h
      apply inner
      simpa using lt_length_of_asks h
    · intro h
      exact inner (lt_length_of_asks h)

theorem exists_asks_not (s : Token.Site) (o : Phrase .operand) :
    (∃ i, Asks key b (tokens (.not s o)) i) ↔ ∃ i, Asks key (!b) o.tokens i := by
  rw [tokens, exists_asks_cons (by simp)]
  simp only [asks_not]

theorem lt_length_of_feature {tokens : List Token} {closing : Token.Site} {i : Nat} {token : Token}
    {f : Feature} (here : (tokens ++ [closing.token .rparen])[i]? = some token)
    (kind : token.kind = .feature f) : i < tokens.length := by
  apply Nat.lt_of_not_le
  intro later
  rw [List.getElem?_append_right later] at here
  obtain rfl := List.mem_singleton.mp (List.mem_of_getElem? here)
  cases kind

theorem asks_parens (opening closing : Token.Site) (p : Phrase .level) (i : Nat) :
    Asks key b (opening.token .lparen :: (p.tokens ++ [closing.token .rparen])) (i + 1) ↔
      hasOr 0 p.tokens = false ∧ Asks key b (p.tokens ++ [closing.token .rparen]) i := by
  by_cases inner : i < p.tokens.length
  · have around :
        governors (opening.token .lparen :: (p.tokens ++ [closing.token .rparen])) (i + 1) =
          (opening.token .lparen, p.tokens) ::
            governors (p.tokens ++ [closing.token .rparen]) i := by
      rw [governors, scope_opening, if_pos inner]
    have same : Negated (opening.token .lparen :: (p.tokens ++ [closing.token .rparen])) (i + 1) ↔
        Negated (p.tokens ++ [closing.token .rparen]) i := by
      simp [Negated, around]
    simp only [Asks, around, same, List.forall_mem_cons, kind_token, List.getElem?_cons_succ,
      forall_const]
    constructor
    · rintro ⟨token, f, here, kind, valid, hit, ⟨level, levels⟩, parity⟩
      exact ⟨level, token, f, here, kind, valid, hit, levels, parity⟩
    · rintro ⟨level, token, f, here, kind, valid, hit, levels, parity⟩
      exact ⟨token, f, here, kind, valid, hit, ⟨level, levels⟩, parity⟩
  · apply iff_of_false
    · rintro ⟨token, f, here, kind, -⟩
      exact inner (lt_length_of_feature here kind)
    · rintro ⟨-, token, f, here, kind, -⟩
      exact inner (lt_length_of_feature here kind)

theorem exists_asks_parens (opening closing : Token.Site) (p : Phrase .level) :
    (∃ i, Asks key b (tokens (.parens opening p closing)) i) ↔
      hasOr 0 p.tokens = false ∧ ∃ i, Asks key b p.tokens i := by
  have last : ¬∃ i, Asks key b [closing.token .rparen] i := by
    rw [exists_asks_cons (by simp)]
    rintro ⟨i, h⟩
    simpa using lt_length_of_asks h
  rw [tokens, exists_asks_cons (by simp)]
  simp only [asks_parens, exists_and_left, exists_asks_append, last, or_false]

theorem exists_asks_connective (k : Connective) (s : Token.Site) (rest : List Token) :
    (∃ i, Asks key b (s.token k.tokenKind :: rest) i) ↔ ∃ i, Asks key b rest i := by
  rw [exists_asks_cons (by cases k <;> simp [Connective.tokenKind])]
  simp [Asks, Negated, governors, scope_connective]

theorem contains_evaluate_level (p : Phrase .level) :
    (p.condition.evaluate key).contains b ↔
      hasOr 0 p.tokens = false ∧ (Condition.evaluateAll key p.operands).contains b := by
  have direct := p.hasOr_tokens []
  rw [List.append_nil] at direct
  cases p with
  | single o => simp [direct, hasOr, connectives, condition, operands, Condition.evaluateAll]
  | join o k s p =>
    simp only [direct, hasOr, Bool.or_false, condition, operands, Junction.ofUse, connectives]
    split
    · simp_all [Condition.evaluate]
    · split <;> simp_all [Condition.evaluate]

theorem contains_evaluateAll_operands (p : Phrase r) :
    (Condition.evaluateAll key p.operands).contains b ↔ ∃ i, Asks key b p.tokens i := by
  induction p generalizing b with
  | feature f s =>
    have index : (∃ i, Asks key b [s.token (.feature f)] i) ↔
        Asks key b [s.token (.feature f)] 0 := by
      constructor
      · rintro ⟨i, h⟩
        obtain rfl : i = 0 := by simpa using lt_length_of_asks h
        exact h
      · intro h
        exact ⟨0, h⟩
    rw [tokens, index]
    by_cases hit : Key.normalize s.raw = key <;> cases found : f.kind <;>
      simp [Asks, Negated, governors, operands, Condition.evaluateAll, Condition.evaluate, found,
        Token.Site.token, hit]
  | not s o ih =>
    rw [exists_asks_not, ← ih]
    simp [operands, Condition.evaluateAll, Condition.evaluate]
  | parens opening p closing ih =>
    rw [exists_asks_parens, ← ih, ← contains_evaluate_level]
    simp [operands, Condition.evaluateAll]
  | single o ih =>
    rw [tokens, ← ih]
    simp [operands]
  | join o k s p iho ihp =>
    rw [tokens, exists_asks_append, exists_asks_connective, ← iho, ← ihp]
    simp [operands, Condition.evaluateAll]

end Phrase

namespace Token

/-- The `i`-th token is visible, and has this key. -/
def Mentions (key : Text) (tokens : List Token) (i : Nat) : Prop :=
  ∃ token, Visible tokens i token ∧ Key.normalize token.raw = key

theorem mentions_iff_asks {tokens : List Token} {i : Nat} :
    Mentions key tokens i ∧ (Negated tokens i ↔ b = false) ↔
      hasOr 0 tokens = false ∧ Asks key b tokens i := by
  constructor
  · rintro ⟨⟨token, ⟨here, ⟨f, kind, met⟩, whole, around⟩, hit⟩, parity⟩
    have valid : f.kind ≠ .invalid := by
      rcases met with met | met <;> simp [met]
    exact ⟨whole, token, f, here, kind, valid, hit, around, parity⟩
  · rintro ⟨whole, token, f, here, kind, valid, hit, around, parity⟩
    have met : f.kind = .declaration ∨ f.kind = .function := by
      cases found : f.kind with
      | invalid => exact absurd found valid
      | declaration => exact .inl rfl
      | function => exact .inr rfl
    exact ⟨⟨token, ⟨here, ⟨f, kind, met⟩, whole, around⟩, hit⟩, parity⟩

end Token

theorem Condition.contains_evaluate_parse {t : Text} {c : Condition} (accepted : parse t = .ok c) :
    (c.evaluate key).contains b ↔
      ∃ i, Token.Mentions key (tokenize t) i ∧ (Negated (tokenize t) i ↔ b = false) := by
  obtain ⟨-, p, written, -, rfl⟩ := parse_eq_ok_iff.mp accepted
  simp only [Token.mentions_iff_asks, exists_and_left]
  rw [p.contains_evaluate_level, p.contains_evaluateAll_operands, written]

namespace Query

theorem read_eq_ok {t : Text} {c : Condition} (accepted : read t = .ok c) :
    ∃ text, conditionText t = .ok text ∧ Condition.parse text = .ok c := by
  unfold read at accepted
  split at accepted
  · cases accepted
  · rename_i text found
    refine ⟨text, found, ?_⟩
    cases parsed : Condition.parse text with
    | error e =>
      rw [parsed] at accepted
      cases accepted
    | ok d =>
      rw [parsed] at accepted
      cases accepted
      rfl

theorem build_strict_eq_ok {t : Text} {q : Query} (accepted : build false t = .ok q) :
    read t = .ok q.condition ∧ q.silent = false := by
  unfold build at accepted
  split at accepted
  · rename_i c found
    cases accepted
    exact ⟨found, rfl⟩
  · cases accepted

theorem check_of_normalize_ne_nil (q : Query) {feature : Text}
    (asked : Key.normalize feature ≠ []) :
    q.check feature = .ok (q.condition.evaluate (Key.normalize feature)).resolve := by
  have nonempty : (Key.normalize feature).isEmpty = false := by simpa using asked
  simp [check, outcomes, nonempty]

/-- A feature fails when a visible token with its key is negated, passes when there are such tokens
and none is, and is left open when there are none. -/
theorem check_iff_mentions {t feature : Text} {q : Query} (accepted : build false t = .ok q)
    (asked : Key.normalize feature ≠ []) :
    ∃ text, conditionText t = .ok text ∧
      let tokens := tokenize text
      let key := Key.normalize feature
      (q.check feature = .ok (some false) ↔
        ∃ i, Token.Mentions key tokens i ∧ Negated tokens i) ∧
      (q.check feature = .ok (some true) ↔
        (∃ i, Token.Mentions key tokens i) ∧
          ∀ i, Token.Mentions key tokens i → ¬Negated tokens i) ∧
      (q.check feature = .ok none ↔ ¬∃ i, Token.Mentions key tokens i) := by
  obtain ⟨text, found, parsed⟩ := read_eq_ok (build_strict_eq_ok accepted).1
  refine ⟨text, found, ?_⟩
  intro tokens key
  have fails : (q.condition.evaluate key).contains false ↔
      ∃ i, Token.Mentions key tokens i ∧ Negated tokens i := by
    rw [Condition.contains_evaluate_parse parsed]
    simp [tokens]
  have passes : (q.condition.evaluate key).contains true ↔
      ∃ i, Token.Mentions key tokens i ∧ ¬Negated tokens i := by
    rw [Condition.contains_evaluate_parse parsed]
    simp [tokens]
  simp only [check_of_normalize_ne_nil q asked, Except.ok.injEq]
  refine ⟨?_, ?_, ?_⟩
  · rw [Outcomes.resolve_eq_false_iff, fails]
  · rw [Outcomes.resolve_eq_true_iff, passes, fails]
    constructor
    · rintro ⟨⟨i, mentioned, -⟩, none⟩
      refine ⟨⟨i, mentioned⟩, ?_⟩
      intro j mentioned negated
      exact none ⟨j, mentioned, negated⟩
    · rintro ⟨⟨i, mentioned⟩, none⟩
      refine ⟨⟨i, mentioned, none i mentioned⟩, ?_⟩
      rintro ⟨j, mentioned, negated⟩
      exact none j mentioned negated
  · rw [Outcomes.resolve_eq_none_iff, Bool.forall_bool, fails, passes]
    constructor
    · rintro ⟨unnegated, negated⟩ ⟨i, mentioned⟩
      by_cases parity : Negated tokens i
      · exact unnegated ⟨i, mentioned, parity⟩
      · exact negated ⟨i, mentioned, parity⟩
    · intro none
      constructor
      · rintro ⟨i, mentioned, -⟩
        exact none ⟨i, mentioned⟩
      · rintro ⟨i, mentioned, -⟩
        exact none ⟨i, mentioned⟩

/-- In `not ((a: 1) or (b: 1)) and not (b: 1)` only the second `b: 1` counts. -/
theorem check_negated_beside_disjunction :
    let t := "@supports not ((a: 1) or (b: 1)) and not (b: 1)".toList
    ∃ q, build false t = .ok q ∧ q.check "B:1".toList = .ok (some false) ∧
      ∃ text, conditionText t = .ok text ∧
        ∃ i, Token.Mentions "b:1".toList (tokenize text) i ∧ Negated (tokenize text) i := by
  intro t
  let q : Query := ⟨.group .all [
    .not (.group .any [.feature .declaration "a:1".toList, .feature .declaration "b:1".toList]),
    .not (.feature .declaration "b:1".toList)], false⟩
  have accepted : build false t = .ok q := by decide +kernel
  have failed : q.check "B:1".toList = .ok (some false) := by decide +kernel
  have asked : Key.normalize "B:1".toList ≠ [] := by decide +kernel
  obtain ⟨text, found, fails, -, -⟩ := check_iff_mentions accepted asked
  have key : Key.normalize "B:1".toList = "b:1".toList := by decide +kernel
  exact ⟨q, accepted, failed, text, found, by simpa only [key] using fails.mp failed⟩

end Query

end FeatureQuery
