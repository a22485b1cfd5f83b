import FeatureQuery.Proofs.Acceptance
import FeatureQuery.Proofs.Locality

/-!
# Composing conditions as texts

A text whose features are in order means the same inside parentheses as it means alone: its tokens
are the same but for their spans, and a level is read without regard to what is around it.
-/

namespace FeatureQuery

/-- Every feature that has a body is in order. -/
def Text.InOrder (t : Text) : Prop :=
  ∀ token ∈ tokenize t, ∀ f, token.kind = .feature f →
    ∀ rest ∈ dropBytes? token.span.start t, (Token.bodyExtent rest).InOrder

/-- A text that can stand in parentheses, nesting at most `levels` deep. -/
structure SelfContained (levels : Nat) where
  text : Text
  condition : Condition
  parse_text : Condition.parse text = .ok condition
  nesting : ∃ p : Phrase .level, p.tokens = tokenize text ∧ p.nesting ≤ levels
  inOrder : text.InOrder

def Connective.word : Connective → Text
  | .and => "and".toList
  | .or => "or".toList

def Text.enclosed (t : Text) : Text := '(' :: t ++ [')']

/-- Texts in parentheses, with connectives between them. -/
def Text.composed (first : Text) (others : List (Connective × Text)) : Text :=
  first.enclosed ++ others.flatMap fun (k, t) => ' ' :: k.word ++ ' ' :: t.enclosed

def Token.Site.shift (n : Nat) (s : Token.Site) : Token.Site := ⟨s.raw, s.span.shift n⟩

theorem Token.shift_token (n : Nat) (kind : Token.Kind) (s : Token.Site) :
    (s.token kind).shift n = (s.shift n).token kind := rfl

namespace Phrase

variable {r : Role}

def shift (n : Nat) : {r : Role} → Phrase r → Phrase r
  | _, .feature f s => .feature f (s.shift n)
  | _, .not s o => .not (s.shift n) (o.shift n)
  | _, .parens opening p closing => .parens (opening.shift n) (p.shift n) (closing.shift n)
  | _, .single o => .single (o.shift n)
  | _, .join o k s p => .join (o.shift n) k (s.shift n) (p.shift n)

@[simp] theorem tokens_shift (n : Nat) (p : Phrase r) :
    (p.shift n).tokens = p.tokens.map (Token.shift n) := by
  induction p <;> simp_all [shift, tokens, Token.shift_token]

@[simp] theorem nesting_shift (n : Nat) (p : Phrase r) : (p.shift n).nesting = p.nesting := by
  induction p <;> simp_all [shift, nesting]

@[simp] theorem connectives_shift (n : Nat) (p : Phrase r) :
    (p.shift n).connectives = p.connectives := by
  induction p <;> simp_all [shift, connectives]

theorem condition_operands_shift (n : Nat) (p : Phrase r) :
    (p.shift n).condition = p.condition ∧ (p.shift n).operands = p.operands := by
  induction p <;> simp_all [shift, condition, operands, Token.Site.shift]

@[simp] theorem condition_shift (n : Nat) (p : Phrase r) : (p.shift n).condition = p.condition :=
  (p.condition_operands_shift n).1

end Phrase

namespace SelfContained

variable {levels : Nat}

theorem exists_phrase (t : SelfContained levels) : ∃ p : Phrase .level,
    p.tokens = tokenize t.text ∧ p.nesting ≤ levels ∧ p.condition = t.condition := by
  obtain ⟨-, q, written, -, means⟩ := Condition.parse_eq_ok_iff.mp t.parse_text
  obtain ⟨p, tokens, shallow⟩ := t.nesting
  obtain rfl := Phrase.tokens_injective (written.trans tokens.symm)
  exact ⟨q, tokens, shallow, means⟩

/-- A text that is one feature, and in order. -/
def ofFeature (t : Text) (f : Feature) (stop : Nat)
    (tokens : tokenize t = [⟨.feature f, t, ⟨0, stop⟩⟩]) (nonblank : t.allBlank = false)
    (inOrder : (Token.bodyExtent t).InOrder) : SelfContained levels where
  text := t
  condition := .feature f.kind (Key.normalize t)
  parse_text := Condition.parse_eq_ok_iff.mpr
    ⟨nonblank, .single (.feature f ⟨t, ⟨0, stop⟩⟩), tokens.symm, Nat.zero_le _, rfl⟩
  nesting := ⟨.single (.feature f ⟨t, ⟨0, stop⟩⟩), tokens.symm, Nat.zero_le _⟩
  inOrder := by
    intro token mem f kind rest found
    rw [tokens, List.mem_singleton] at mem
    subst mem
    obtain rfl : t = rest := by simpa [Text.dropBytes?] using found
    exact inOrder

/-- In parentheses the text is an operand, whatever follows. -/
theorem exists_operand (t : SelfContained levels) (before : Option Char) (more : Text)
    (offset : Nat) : ∃ (o : Phrase .operand) (offset' : Nat),
      (⟨before, t.text.enclosed ++ more, offset⟩ : Cursor).tokens =
        o.tokens ++ (⟨some ')', more, offset'⟩ : Cursor).tokens ∧
      o.nesting ≤ levels + 1 ∧ o.condition = t.condition := by
  obtain ⟨p, written, shallow, means⟩ := t.exists_phrase
  have start : (⟨before, t.text.enclosed ++ more, offset⟩ : Cursor).rest =
      '(' :: (t.text ++ ')' :: more) := by simp [Text.enclosed]
  have embeds : Cursor.Embeds (offset + 1) more (.start t.text)
      ⟨some '(', t.text ++ ')' :: more, offset + 1⟩ :=
    ⟨rfl, (Nat.zero_add _).symm, rfl⟩
  obtain ⟨e, inner, rest, -⟩ := Cursor.tokens_of_embeds (Cursor.at_start t.text) embeds t.inOrder
  let opening : Token.Site := ⟨['('], ⟨offset, offset + 1⟩⟩
  let closing : Token.Site := ⟨[')'], ⟨e.offset, e.offset + 1⟩⟩
  refine ⟨.parens opening (p.shift (offset + 1)) closing, e.offset + 1, ?_, ?_, ?_⟩
  · rw [Cursor.tokens_opening start, inner, Cursor.tokens_closing rest, Phrase.tokens,
      Phrase.tokens_shift, written]
    simp [tokenize, Token.Site.token, opening, closing]
  · simpa [Phrase.nesting] using shallow
  · simpa [Phrase.condition] using means

end SelfContained

theorem Token.lexeme_keyword {word : Text} {kind : Kind} (listed : (word, kind) ∈ keywords)
    {before : Option Char} (free : before.any isWordChar = false) (more : Text) :
    lexeme before (word ++ ' ' :: more) = (kind, word.length) := by
  simp only [keywords, List.mem_cons, List.not_mem_nil, or_false, Prod.mk.injEq] at listed
  rcases listed with ⟨rfl, rfl⟩ | ⟨rfl, rfl⟩ | ⟨rfl, rfl⟩ <;>
    simp [lexeme, keyword?, free, keywords, Text.dropStart?, isWordChar]

namespace Cursor

theorem skipGap_space {c : Cursor} {a : Char} {more : Text} (starts : Token.isGap a = false)
    (rest : c.rest = ' ' :: a :: more) : c.skipGap = ⟨some ' ', a :: more, c.offset + 1⟩ := by
  have gap : c.rest.takeWhile Token.isGap = [' '] := by
    have blank : Token.isGap ' ' = true := by decide
    simp [rest, blank, starts]
  have size : ' '.utf8Size = 1 := by decide
  rw [skipGap, gap]
  simp [forward, rest, size]

/-- In front of a space a keyword is cut as one. -/
theorem exists_tokens_keyword {word : Text} {kind : Token.Kind}
    (listed : (word, kind) ∈ Token.keywords) {before : Option Char}
    (free : before.any Token.isWordChar = false) (more : Text) (offset : Nat) :
    ∃ (s : Token.Site) (offset' : Nat),
      (⟨before, word ++ ' ' :: '(' :: more, offset⟩ : Cursor).tokens =
        s.token kind :: (⟨some ' ', '(' :: more, offset'⟩ : Cursor).tokens := by
  generalize place : (⟨before, word ++ ' ' :: '(' :: more, offset⟩ : Cursor) = c
  have starts : c.skipGap = c := by
    apply skipGap_eq_self
    subst place
    simp only [Token.keywords, List.mem_cons, List.not_mem_nil, or_false, Prod.mk.injEq] at listed
    rcases listed with ⟨rfl, rfl⟩ | ⟨rfl, rfl⟩ | ⟨rfl, rfl⟩ <;> rfl
  have found : Token.lexeme c.before c.rest = (kind, word.length) := by
    subst place
    exact Token.lexeme_keyword listed free _
  have after : (c.forward word.length).rest = ' ' :: '(' :: more := by
    subst place
    simp
  have nonempty : c.skipGap.rest ≠ [] := by
    subst place
    simp [starts]
  refine ⟨c.cut.1.site, (c.forward word.length).offset + 1, ?_⟩
  rw [tokens_of_rest_skipGap_ne_nil nonempty, starts,
    ← skipGap_space (by decide) after, tokens_skipGap]
  simp [cut, found, Token.site, Token.Site.token]

/-- A connective between two enclosed texts. -/
theorem exists_tokens_connective (k : Connective) (more : Text) (offset : Nat) :
    ∃ (s : Token.Site) (offset' : Nat),
      (⟨some ')', ' ' :: k.word ++ ' ' :: '(' :: more, offset⟩ : Cursor).tokens =
        s.token k.tokenKind :: (⟨some ' ', '(' :: more, offset'⟩ : Cursor).tokens := by
  have listed : (k.word, k.tokenKind) ∈ Token.keywords := by cases k <;> decide
  obtain ⟨a, word, spelled, starts⟩ : ∃ a word, k.word = a :: word ∧ Token.isGap a = false := by
    cases k
    · exact ⟨'a', ['n', 'd'], rfl, by decide⟩
    · exact ⟨'o', ['r'], rfl, by decide⟩
  have gap : (⟨some ')', ' ' :: k.word ++ ' ' :: '(' :: more, offset⟩ : Cursor).skipGap =
      ⟨some ' ', k.word ++ ' ' :: '(' :: more, offset + 1⟩ := by
    rw [spelled]
    exact skipGap_space starts rfl
  rw [← tokens_skipGap, gap]
  exact exists_tokens_keyword listed rfl more _

end Cursor

namespace SelfContained

variable {levels : Nat}

theorem exists_last_operand (t : SelfContained levels) (before : Option Char) (offset : Nat) :
    ∃ o : Phrase .operand, o.tokens = (⟨before, t.text.enclosed, offset⟩ : Cursor).tokens ∧
      o.nesting ≤ levels + 1 ∧ o.condition = t.condition := by
  obtain ⟨o, offset', tokens, shallow, means⟩ := t.exists_operand before [] offset
  have ended : (⟨some ')', [], offset'⟩ : Cursor).tokens = [] :=
    Cursor.tokens_of_rest_skipGap_eq_nil rfl
  rw [ended, List.append_nil, List.append_nil] at tokens
  exact ⟨o, tokens.symm, shallow, means⟩

theorem exists_level (first : SelfContained 255) (others : List (Connective × SelfContained 255))
    (before : Option Char) (offset : Nat) : ∃ p : Phrase .level,
      p.tokens = (⟨before, Text.composed first.text (others.map fun (k, t) => (k, t.text)),
        offset⟩ : Cursor).tokens ∧
      p.nesting ≤ maxDepth ∧ p.operands = first.condition :: others.map (·.2.condition) ∧
      p.connectives = others.map Prod.fst := by
  induction others generalizing first before offset with
  | nil =>
    obtain ⟨o, tokens, shallow, means⟩ := first.exists_last_operand before offset
    refine ⟨.single o, ?_, shallow, ?_, rfl⟩
    · simpa [Phrase.tokens, Text.composed] using tokens
    · simp [Phrase.operands, means]
  | cons next others ih =>
    obtain ⟨k, second⟩ := next
    let rest := Text.composed second.text (others.map fun (k, t) => (k, t.text))
    obtain ⟨more, opens⟩ : ∃ more, rest = '(' :: more := ⟨_, rfl⟩
    obtain ⟨o, place, tokens, shallow, means⟩ :=
      first.exists_operand before (' ' :: k.word ++ ' ' :: rest) offset
    obtain ⟨site, place', after⟩ := Cursor.exists_tokens_connective k more place
    obtain ⟨p, written, shallow', operands, connectives⟩ := ih second (some ' ') place'
    refine ⟨.join o k site p, ?_, ?_, ?_, ?_⟩
    · have split : Text.composed first.text (((k, second) :: others).map fun (k, t) => (k, t.text)) =
          first.text.enclosed ++ (' ' :: k.word ++ ' ' :: rest) := by
        simp [rest, Text.composed]
      rw [split, tokens, opens, after, ← opens, ← written, Phrase.tokens]
    · exact Nat.max_le.mpr ⟨shallow, shallow'⟩
    · simp [Phrase.operands, means, operands]
    · simp [Phrase.connectives, connectives]

end SelfContained

namespace Condition

/-- Self-contained texts in parentheses can be joined, and put under `not`: what is read is made of
what they are read as alone. -/
theorem parse_composed :
    (∀ (first : SelfContained 255) (others : List (Connective × SelfContained 255)), others ≠ [] →
      parse (Text.composed first.text (others.map fun (k, t) => (k, t.text))) =
        .ok (.group (.ofUse (others.map Prod.fst))
          (first.condition :: others.map (·.2.condition)))) ∧
    ∀ t : SelfContained 254, parse ("not ".toList ++ t.text.enclosed) = .ok (.not t.condition) := by
  constructor
  · intro first others nonempty
    obtain ⟨p, tokens, shallow, operands, connectives⟩ := first.exists_level others none 0
    refine parse_eq_ok_iff.mpr ⟨rfl, p, tokens, shallow, ?_⟩
    obtain ⟨second, others, rfl⟩ := List.exists_cons_of_ne_nil nonempty
    rw [← p.condition_level 0, operands, connectives, Level.condition, Junction.ofUse_eq]
    simp
  · intro t
    have listed : ("not".toList, Token.Kind.not) ∈ Token.keywords := by decide
    have free : (none : Option Char).any Token.isWordChar = false := rfl
    obtain ⟨site, place, first⟩ := Cursor.exists_tokens_keyword listed free (t.text ++ [')']) 0
    obtain ⟨o, rest, shallow, means⟩ := t.exists_last_operand (some ' ') place
    refine parse_eq_ok_iff.mpr ⟨rfl, .single (.not site o), ?_, ?_, ?_⟩
    · rw [Phrase.tokens, Phrase.tokens, rest]
      exact first.symm
    · exact Nat.succ_le_succ shallow
    · rw [Phrase.condition, Phrase.condition, means]

/-- A `)` in a quoted string is none that could end the text it is in. -/
theorem parse_composed_quoted : ∃ first second : SelfContained 255,
    first.text = "a: ')'".toList ∧ second.text = "b(1)".toList ∧
    Text.composed first.text [(.or, second.text)] = "(a: ')') or (b(1))".toList ∧
    parse (Text.composed first.text [(.or, second.text)]) =
      .ok (.group .any [.feature .declaration "a:')'".toList,
        .feature .function "b(1)".toList]) := by
  let quoted : Feature := ⟨.declaration, false, ['a'], "')'".toList⟩
  let call : Feature := ⟨.function, true, ['b'], ['1']⟩
  let first : SelfContained 255 := .ofFeature "a: ')'".toList quoted 6 (by decide +kernel)
    (by decide) ⟨by decide +kernel, by decide +kernel⟩
  let second : SelfContained 255 := .ofFeature "b(1)".toList call 4 (by decide +kernel)
    (by decide) ⟨by decide +kernel, by decide +kernel⟩
  exact ⟨first, second, rfl, rfl, rfl, parse_composed.1 first [(.or, second)] (by simp)⟩

end Condition

end FeatureQuery
