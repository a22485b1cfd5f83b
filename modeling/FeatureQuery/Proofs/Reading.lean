import FeatureQuery.Proofs.Phrase

/-!
# Steps and runs of a reading

A token that is read does one of five things; a token that is refused ends the run. What holds of
every run follows from these two facts.
-/

namespace FeatureQuery

namespace Reading

variable {limit : Option Nat} {input : Text} {s t : Reading} {token : Token} {e : ParseError}
  {before after : List Token}

/-- `n` open levels are within the limit. -/
def Fits (limit : Option Nat) (n : Nat) : Prop := ∀ m ∈ limit, n ≤ m

theorem Fits.mono {m n : Nat} (h : Fits limit n) (le : m ≤ n) : Fits limit m := by
  intro k mem
  exact Nat.le_trans le (h k mem)

theorem fits_succ_iff {n : Nat} : Fits limit (n + 1) ↔ ¬limit.any (· ≤ n) := by
  cases limit with
  | none => simp [Fits]
  | some m =>
    simp only [Fits, Option.mem_some_iff, forall_eq', Option.any_some, decide_eq_true_eq]
    omega

inductive Step (limit : Option Nat) (token : Token) (s : Reading) : Reading → Prop where
  | opening : s.operandDue = true → token.kind = .lparen → Fits limit (s.depth + 1) →
      Step limit token s ⟨.empty, s.level :: s.outer, true⟩
  | negation : s.operandDue = true → token.kind = .not → Fits limit (s.depth + 1) →
      Step limit token s { s with level := s.level.negate }
  | feature (f : Feature) : s.operandDue = true → token.kind = .feature f →
      Step limit token s (s.attach (.feature f.kind (Key.normalize token.raw)))
  | connective (k : Connective) : s.operandDue = false → token.kind = k.tokenKind →
      Step limit token s { s with level := s.level.join k, operandDue := true }
  | closing {level : Level} {outer : List Level} : s.operandDue = false → token.kind = .rparen →
      s.outer = level :: outer →
      Step limit token s (attach s.level.condition ⟨level, outer, false⟩)

theorem feed_of_step (h : Step limit token s t) : s.feed limit token = .ok t := by
  cases h with
  | opening due kind fits | negation due kind fits =>
    rw [fits_succ_iff] at fits
    simp [feed, due, kind, fits]
  | feature f due kind => simp [feed, due, kind]
  | connective k due kind => cases k <;> simp [feed, due, kind, Connective.tokenKind]
  | closing due kind outer => simp [feed, due, kind, outer]

theorem step_of_feed (h : s.feed limit token = .ok t) : Step limit token s t := by
  unfold feed at h
  split at h
  · rename_i due
    split at h
    · split at h <;> cases h
      exact .opening due ‹_› (fits_succ_iff.mpr ‹_›)
    · split at h <;> cases h
      exact .negation due ‹_› (fits_succ_iff.mpr ‹_›)
    · cases h
      exact .feature _ due ‹_›
    all_goals cases h
  · rename_i due
    rw [Bool.not_eq_true] at due
    split at h <;> cases h
    · exact .connective .and due ‹_›
    · exact .connective .or due ‹_›
    · exact .closing due ‹_› ‹_›

/-- The ways to blame a token. -/
inductive Blames (token : Token) : ParseError → Prop where
  | unexpected : Blames token (.unexpectedToken token.raw token.span)
  | noCloser : Blames token (.expectedCloser (some token.span))
  | tooDeep : Blames token (.nestingTooDeep token.span)

theorem blames_of_feed (h : s.feed limit token = .error e) : Blames token e := by
  unfold feed at h
  repeat' split at h
  all_goals cases h
  all_goals constructor

def feedAll (limit : Option Nat) : List Token → Reading → Except ParseError Reading
  | [], s => .ok s
  | token :: tokens, s =>
    match s.feed limit token with
    | .error e => .error e
    | .ok s => feedAll limit tokens s

@[simp] theorem feedAll_nil : feedAll limit [] s = .ok s := rfl

theorem feedAll_cons (h : s.feed limit token = .ok t) :
    feedAll limit (token :: after) s = feedAll limit after t := by
  simp [feedAll, h]

theorem feedAll_append (h : feedAll limit before s = .ok t) :
    feedAll limit (before ++ after) s = feedAll limit after t := by
  induction before generalizing s with
  | nil => cases h; rfl
  | cons token before ih =>
    simp only [feedAll, List.cons_append] at h ⊢
    split at h
    · cases h
    · rename_i next fed
      exact ih h

theorem feedAll_cons_eq_ok (h : feedAll limit (token :: after) s = .ok t) :
    ∃ u, Step limit token s u ∧ feedAll limit after u = .ok t := by
  unfold feedAll at h
  split at h
  · cases h
  · exact ⟨_, step_of_feed ‹_›, h⟩

theorem feedAll_append_eq_ok (h : feedAll limit (before ++ after) s = .ok t) :
    ∃ u, feedAll limit before s = .ok u ∧ feedAll limit after u = .ok t := by
  induction before generalizing s with
  | nil => exact ⟨s, rfl, h⟩
  | cons token before ih =>
    obtain ⟨next, step, h⟩ := feedAll_cons_eq_ok h
    obtain ⟨u, fed, rest⟩ := ih h
    exact ⟨u, by rw [feedAll_cons (feed_of_step step), fed], rest⟩

theorem run_of_feedAll (h : feedAll limit before s = .ok t) :
    run limit input before s = (t.finish input, before.length) := by
  induction before generalizing s with
  | nil => cases h; rfl
  | cons token before ih =>
    obtain ⟨next, step, h⟩ := feedAll_cons_eq_ok h
    simp [run, feed_of_step step, ih h]

theorem run_of_fault (h : feedAll limit before s = .ok t) (fault : t.feed limit token = .error e) :
    run limit input (before ++ token :: after) s = (.error e, before.length + 1) := by
  induction before generalizing s with
  | nil =>
    cases h
    simp [run, fault]
  | cons token before ih =>
    obtain ⟨next, step, h⟩ := feedAll_cons_eq_ok h
    simp [run, feed_of_step step, ih h]

/-- Every token is read, or there is a first one that is refused. -/
theorem feedAll_cases (limit : Option Nat) (tokens : List Token) (s : Reading) :
    (∃ t, feedAll limit tokens s = .ok t) ∨
      ∃ before token after t e, tokens = before ++ token :: after ∧
        feedAll limit before s = .ok t ∧ t.feed limit token = .error e := by
  induction tokens generalizing s with
  | nil => exact .inl ⟨s, rfl⟩
  | cons token tokens ih =>
    cases fed : s.feed limit token with
    | error e => exact .inr ⟨[], token, tokens, s, e, rfl, rfl, fed⟩
    | ok next =>
      rcases ih next with ⟨t, h⟩ | ⟨before, bad, after, t, e, rfl, h, fault⟩
      · exact .inl ⟨t, by rw [feedAll_cons fed, h]⟩
      · exact .inr ⟨token :: before, bad, after, t, e, rfl, by rw [feedAll_cons fed, h], fault⟩

/-- The tokens bring a reading to a complete condition. -/
def Completes (limit : Option Nat) (tokens : List Token) (s : Reading) (c : Condition) : Prop :=
  ∃ t, feedAll limit tokens s = .ok t ∧ t.operandDue = false ∧ t.outer = [] ∧ t.level.condition = c

theorem finish_eq_ok_iff {c : Condition} :
    s.finish input = .ok c ↔ s.operandDue = false ∧ s.outer = [] ∧ s.level.condition = c := by
  unfold finish
  split
  · simp_all
  · split <;> simp_all

theorem finish_eq_error (h : s.finish input = .error e) :
    e = .invalidSyntax input ∨ e = .expectedCloser none := by
  unfold finish at h
  split at h
  · cases h
    exact .inl rfl
  · split at h <;> cases h
    exact .inr rfl

theorem run_eq_ok_iff {tokens : List Token} {c : Condition} :
    (run limit input tokens s).1 = .ok c ↔ Completes limit tokens s c := by
  rcases feedAll_cases limit tokens s with ⟨t, h⟩ | ⟨before, token, after, t, e, rfl, h, fault⟩
  · simp [run_of_feedAll h, Completes, h, finish_eq_ok_iff]
  · rw [run_of_fault h fault, Completes, feedAll_append h]
    simp [feedAll, fault]

theorem completes_cons {c : Condition} (h : Completes limit (token :: after) s c) :
    ∃ t, Step limit token s t ∧ Completes limit after t c := by
  obtain ⟨u, fed, complete⟩ := h
  obtain ⟨t, step, fed⟩ := feedAll_cons_eq_ok fed
  exact ⟨t, step, u, fed, complete⟩

theorem completes_append {c : Condition} (h : feedAll limit before s = .ok t) :
    Completes limit (before ++ after) s c ↔ Completes limit after t c := by
  rw [Completes, feedAll_append h, Completes]

end Reading

namespace Parser

theorem parse_ofTokens (input : Text) (tokens : List Token) :
    (ofTokens input tokens).parse.1 = (Reading.start.run (some maxDepth) input tokens).1 := rfl

theorem parse_eq_ok_iff {input : Text} {tokens : List Token} {c : Condition} :
    (ofTokens input tokens).parse.1 = .ok c ↔
      Reading.Completes (some maxDepth) tokens .start c := by
  rw [parse_ofTokens, Reading.run_eq_ok_iff]

end Parser

end FeatureQuery
