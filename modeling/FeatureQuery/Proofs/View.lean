import FeatureQuery.Condition.Parser

/-!
# What the parser sees

Of a token the parser reads the kind and, for a feature, the key; raw texts and spans only serve to
say what is wrong. So tokens that look the same are read as the same condition, or are refused for
the same cause.
-/

namespace FeatureQuery

/-- What is wrong, without where. -/
inductive ParseError.Cause where
  | emptyInput
  | unexpectedToken
  | expectedCloser
  | invalidSyntax
  | nestingTooDeep
  deriving DecidableEq, Repr

def ParseError.cause : ParseError → ParseError.Cause
  | .emptyInput => .emptyInput
  | .unexpectedToken _ _ => .unexpectedToken
  | .expectedCloser _ => .expectedCloser
  | .invalidSyntax _ => .invalidSyntax
  | .nestingTooDeep _ => .nestingTooDeep

namespace Token

/-- Of a feature only what it was recognised as. -/
def Kind.shape : Kind → Kind
  | .feature f => .feature ⟨f.kind, false, [], []⟩
  | kind => kind

/-- What the parser can see of a token. -/
def view (t : Token) : Kind × Text := (t.kind.shape, Key.normalize t.raw)

theorem Kind.shape_eq_cases {k l : Kind} (h : k.shape = l.shape) :
    k = l ∨ ∃ f g, k = .feature f ∧ l = .feature g ∧ f.kind = g.kind := by
  cases k <;> cases l <;> simp_all [Kind.shape]

end Token

section

variable {ε ε' α : Type} {x : Except ε α} {f : ε → ε'}

@[simp] theorem mapError_ok (a : α) : (Except.ok a).mapError f = .ok a := rfl

@[simp] theorem mapError_error (e : ε) : (Except.error e : Except ε α).mapError f = .error (f e) :=
  rfl

theorem mapError_eq_ok_iff {a : α} : x.mapError f = .ok a ↔ x = .ok a := by
  cases x <;> simp

theorem mapError_eq_error_iff {e : ε'} :
    x.mapError f = .error e ↔ ∃ e', x = .error e' ∧ f e' = e := by
  cases x <;> simp

end

open ParseError (cause)

namespace Reading

variable {limit : Option Nat} {input input' : Text} {a b : Token} {tokens tokens' : List Token}

theorem feed_of_view (same : a.view = b.view) (s : Reading) :
    (s.feed limit a).mapError cause = (s.feed limit b).mapError cause := by
  obtain ⟨kind, raw, span⟩ := a
  obtain ⟨kind', raw', span'⟩ := b
  obtain ⟨shape, key⟩ := Prod.mk.inj same
  have key : Key.normalize raw = Key.normalize raw' := key
  rcases Token.Kind.shape_eq_cases shape with rfl | ⟨f, g, rfl, rfl, sameKind⟩
  · by_cases due : s.operandDue = true
    · by_cases full : limit.any (· ≤ s.depth) = true <;>
        cases kind <;> simp [feed, due, full, key, cause]
    · cases outer : s.outer <;> cases kind <;> simp [feed, due, outer, cause]
  · by_cases due : s.operandDue = true
    · simp [feed, due, key, sameKind]
    · cases outer : s.outer <;> simp [feed, due, outer, cause]

theorem finish_cause (s : Reading) :
    (s.finish input).mapError cause = (s.finish input').mapError cause := by
  unfold finish
  split
  · rfl
  · rfl

/-- Tokens that look the same to every step are read the same, for all that an error is asked. -/
theorem run_of_look {κ β : Type} {look : Token → κ} {ask : ParseError → β}
    (fed : ∀ {a b : Token}, look a = look b → ∀ s : Reading,
      (s.feed limit a).mapError ask = (s.feed limit b).mapError ask)
    (finished : ∀ s : Reading, (s.finish input).mapError ask = (s.finish input').mapError ask)
    (same : tokens.map look = tokens'.map look) (s : Reading) :
    (run limit input tokens s).1.mapError ask = (run limit input' tokens' s).1.mapError ask := by
  induction tokens generalizing tokens' s with
  | nil =>
    cases tokens' with
    | nil => exact finished s
    | cons b tokens' => cases same
  | cons a tokens ih =>
    cases tokens' with
    | nil => cases same
    | cons b tokens' =>
      obtain ⟨first, others⟩ := List.cons.inj same
      have fed := fed first s
      simp only [run]
      cases foundA : s.feed limit a <;> cases foundB : s.feed limit b <;> rw [foundA, foundB] at fed
      · exact congrArg Except.error (Except.error.inj fed)
      · cases fed
      · cases fed
      · obtain rfl := Except.ok.inj fed
        exact ih others _

end Reading

/-- Two texts are read alike when they are both blank or both not, and their tokens look alike. -/
theorem Condition.parse_of_look {κ β : Type} {look : Token → κ} {ask : ParseError → β} {t t' : Text}
    (fed : ∀ {a b : Token}, look a = look b → ∀ s : Reading,
      (s.feed (some maxDepth) a).mapError ask = (s.feed (some maxDepth) b).mapError ask)
    (finished : ∀ s : Reading, (s.finish t').mapError ask = (s.finish t).mapError ask)
    (blank : t'.allBlank = t.allBlank) (same : (tokenize t').map look = (tokenize t).map look) :
    (parse t').mapError ask = (parse t).mapError ask := by
  unfold parse
  rw [blank]
  split
  · rfl
  · exact Reading.run_of_look fed finished same .start

theorem Condition.parse_of_view {t t' : Text} (blank : t'.allBlank = t.allBlank)
    (same : (tokenize t').map Token.view = (tokenize t).map Token.view) :
    (parse t').mapError cause = (parse t).mapError cause :=
  parse_of_look Reading.feed_of_view Reading.finish_cause blank same

end FeatureQuery
