import FeatureQuery.Proofs.Reading

/-!
# What the parser refuses

Every reading can still be completed: the operand that is due is a feature, which takes no level,
and each open parenthesis can be closed. So a list of tokens is hopeless exactly when one of them
was refused, and from the first refused token on.
-/

namespace FeatureQuery

namespace Reading

/-- Some token of each kind. -/
def sample (kind : Token.Kind) : Token := ⟨kind, [], ⟨0, 0⟩⟩

theorem completes_closers (limit : Option Nat) (level : Level) (outer : List Level) :
    ∃ c, Completes limit (List.replicate outer.length (sample .rparen)) ⟨level, outer, false⟩ c := by
  induction outer generalizing level with
  | nil => exact ⟨level.condition, _, rfl, rfl, rfl, rfl⟩
  | cons next outer ih =>
    obtain ⟨c, t, fed, complete⟩ := ih (next.add level.condition)
    have step : Step limit (sample .rparen) ⟨level, next :: outer, false⟩
        ⟨next.add level.condition, outer, false⟩ := .closing rfl rfl rfl
    exact ⟨c, t, (feedAll_cons (feed_of_step step)).trans fed, complete⟩

theorem exists_completes (limit : Option Nat) (s : Reading) :
    ∃ tokens c, Completes limit tokens s c := by
  obtain ⟨level, outer, due⟩ := s
  cases due with
  | false =>
    obtain ⟨c, complete⟩ := completes_closers limit level outer
    exact ⟨_, c, complete⟩
  | true =>
    have step : Step limit (sample (.feature (.bare []))) ⟨level, outer, true⟩ _ :=
      .feature _ rfl rfl
    obtain ⟨c, t, fed, complete⟩ := completes_closers limit (level.add _) outer
    exact ⟨_ :: _, c, t, (feedAll_cons (feed_of_step step)).trans fed, complete⟩

end Reading

namespace Parser

/-- The parser accepts these tokens with some others after them. -/
def Viable (input : Text) (tokens : List Token) : Prop :=
  ∃ more c, (ofTokens input (tokens ++ more)).parse.1 = .ok c

theorem viable_iff {input : Text} {tokens : List Token} :
    Viable input tokens ↔ ∃ s, Reading.start.feedAll (some maxDepth) tokens = .ok s := by
  simp only [Viable, parse_eq_ok_iff]
  constructor
  · rintro ⟨more, c, t, fed, -⟩
    obtain ⟨s, fed, -⟩ := Reading.feedAll_append_eq_ok fed
    exact ⟨s, fed⟩
  · rintro ⟨s, fed⟩
    obtain ⟨more, c, complete⟩ := s.exists_completes (some maxDepth)
    exact ⟨more, c, (Reading.completes_append fed).mpr complete⟩

theorem not_viable_of_fault (input : Text) {before : List Token} {token : Token} {s : Reading}
    {e : ParseError}
    (fed : Reading.start.feedAll (some maxDepth) before = .ok s)
    (fault : s.feed (some maxDepth) token = .error e) : ¬Viable input (before ++ [token]) := by
  rw [viable_iff, Reading.feedAll_append fed]
  simp [Reading.feedAll, fault]

/-- An error that blames no token says that the tokens only ended too early. Any other error blames
the token from which on nothing that follows can help, while the tokens before it can be completed.
-/
theorem error_blames_first_hopeless {input : Text} {tokens : List Token} {e : ParseError}
    (refused : (ofTokens input tokens).parse.1 = .error e) :
    ((e = .invalidSyntax input ∨ e = .expectedCloser none) ↔ Viable input tokens) ∧
    (¬(e = .invalidSyntax input ∨ e = .expectedCloser none) →
      ∃ before token after, tokens = before ++ token :: after ∧ Reading.Blames token e ∧
        Viable input before ∧ ¬Viable input (before ++ [token])) := by
  rw [parse_ofTokens] at refused
  rcases Reading.feedAll_cases (some maxDepth) tokens .start with
    ⟨s, fed⟩ | ⟨before, token, after, s, fault, rfl, fed, faulty⟩
  · rw [Reading.run_of_feedAll fed] at refused
    have ended := Reading.finish_eq_error refused
    constructor
    · exact iff_of_true ended (viable_iff.mpr ⟨s, fed⟩)
    · intro other
      exact absurd ended other
  · rw [Reading.run_of_fault fed faulty] at refused
    cases refused
    have blames := Reading.blames_of_feed faulty
    have hopeless := not_viable_of_fault input fed faulty
    have other : ¬(e = .invalidSyntax input ∨ e = .expectedCloser none) := by
      cases blames <;> simp
    constructor
    · apply iff_of_false other
      rintro ⟨more, c, complete⟩
      exact hopeless ⟨after ++ more, c, by simpa using complete⟩
    · intro _
      exact ⟨before, token, after, rfl, blames, viable_iff.mpr ⟨s, fed⟩, hopeless⟩

/-- In `(a) and )` the second `)` is to blame. -/
theorem closer_after_connective_blamed :
    let text := "(a) and )".toList
    let e := ParseError.unexpectedToken [')'] ⟨8, 9⟩
    (ofTokens text (tokenize text)).parse.1 = .error e ∧ ¬Viable text (tokenize text) ∧
      ∃ before token after, tokenize text = before ++ token :: after ∧ Reading.Blames token e ∧
        Viable text before ∧ ¬Viable text (before ++ [token]) := by
  intro text e
  have refused : (ofTokens text (tokenize text)).parse.1 = .error e := by decide +kernel
  have blamed := error_blames_first_hopeless refused
  have other : ¬(e = .invalidSyntax text ∨ e = .expectedCloser none) := by simp [e]
  exact ⟨refused, fun viable => other (blamed.1.mpr viable), blamed.2 other⟩

end Parser

end FeatureQuery
