import FeatureQuery.Proofs.Acceptance

/-!
# Reading by descent

Two functions that call each other read the same conditions without a stack. What they keep instead
is a counter of the levels that are open. It outlives every call, so it has to be put back on every
way out, past an error too. A descent answers as the parser does, and stops where it stops.
-/

namespace FeatureQuery

/-- A parser with a counter of the levels that are open. -/
structure Descent extends Parser where
  depth : Int
  /-- Every value that the counter has had, latest first. -/
  depths : List Int
  deriving DecidableEq, Repr

namespace Descent

def ofTokens (input : Text) (tokens : List Token) : Descent :=
  ⟨Parser.ofTokens input tokens, 0, [0]⟩

/-- Tokens that are yet to be read. -/
def left (d : Descent) : List Token := d.tokens.drop d.position

def count (depth : Int) (d : Descent) : Descent :=
  { d with depth := depth, depths := depth :: d.depths }

def enter (d : Descent) : Descent := d.count (d.depth + 1)

def leave (d : Descent) : Descent := d.count (d.depth - 1)

/-- No further level may be opened. -/
def isFull (d : Descent) : Bool := d.limit.any fun (most : Nat) => most ≤ d.depth

def advance? (d : Descent) : Option (Token × Descent) :=
  match d.tokens[d.position]? with
  | none => none
  | some token => some (token, { d with position := d.position + 1 })

@[simp] theorem left_enter (d : Descent) : d.enter.left = d.left := rfl

variable {d after next : Descent} {token : Token}

theorem advance?_eq_some (h : d.advance? = some (token, after)) :
    after = { d with position := d.position + 1 } ∧ d.left = token :: after.left := by
  unfold advance? at h
  split at h
  · cases h
  · rename_i found
    cases h
    obtain ⟨inside, here⟩ := List.getElem?_eq_some_iff.mp found
    refine ⟨rfl, ?_⟩
    rw [left, List.drop_eq_getElem_cons inside, here]
    rfl

theorem left_of_advance?_eq_none (h : d.advance? = none) : d.left = [] := by
  unfold advance? at h
  split at h
  · exact List.drop_eq_nil_of_le (List.getElem?_eq_none_iff.mp ‹_›)
  · cases h

theorem length_left_advance? (h : d.advance? = some (token, after)) :
    after.left.length < d.left.length := by
  rw [(advance?_eq_some h).2, List.length_cons]
  exact Nat.lt_succ_self _

theorem twice_succ_lt {m n : Nat} (h : m < n) : 2 * m + 1 < 2 * n := by
  omega

/-- An answer, and a descent that has no more tokens left than `d` has. -/
abbrev Outcome (d : Descent) :=
  Except ParseError Condition × { next : Descent // next.left.length ≤ d.left.length }

/-- The connective that a token is. -/
def connective? : Token.Kind → Option Connective
  | .and => some .and
  | .or => some .or
  | .lparen | .rparen | .not | .feature _ => none

/-- The answer for a level that ends with this token; `enclosed` when it is in parentheses. -/
def close (enclosed : Bool) (l : Level) (found : Option Token) : Except ParseError Condition :=
  match enclosed, found with
  | true, some token =>
    if token.kind = .rparen then .ok l.condition else .error (.expectedCloser (some token.span))
  | true, none => .error (.expectedCloser none)
  | false, some token => .error (.unexpectedToken token.raw token.span)
  | false, none => .ok l.condition

mutual

def operand (d : Descent) : Outcome d :=
  match h : d.advance? with
  | none => (.error (.invalidSyntax d.input), ⟨d, Nat.le_refl _⟩)
  | some (token, after) =>
    have shorter := length_left_advance? h
    match token.kind with
    | .lparen =>
      if after.isFull then (.error (.nestingTooDeep token.span), ⟨after, Nat.le_of_lt shorter⟩)
      else
        let inner := level true after.enter
        (inner.1, ⟨inner.2.val.leave, Nat.le_trans inner.2.property (Nat.le_of_lt shorter)⟩)
    | .not =>
      if after.isFull then (.error (.nestingTooDeep token.span), ⟨after, Nat.le_of_lt shorter⟩)
      else
        let inner := operand after.enter
        (inner.1.map .not,
          ⟨inner.2.val.leave, Nat.le_trans inner.2.property (Nat.le_of_lt shorter)⟩)
    | .feature f =>
      (.ok (.feature f.kind (Key.normalize token.raw)), ⟨after, Nat.le_of_lt shorter⟩)
    | .rparen | .and | .or =>
      (.error (.unexpectedToken token.raw token.span), ⟨after, Nat.le_of_lt shorter⟩)
termination_by 2 * d.left.length
decreasing_by
  · exact twice_succ_lt shorter
  · exact Nat.lt_of_succ_lt (twice_succ_lt shorter)

/-- Reads a level to its end. -/
def level (enclosed : Bool) (d : Descent) : Outcome d :=
  match operand d with
  | (.error e, next) => (.error e, next)
  | (.ok c, next) =>
    let last := others enclosed (Level.empty.add c) next.val
    (last.1, ⟨last.2.val, Nat.le_trans last.2.property next.property⟩)
-- A level asks for its first operand before it has taken a token.
termination_by 2 * d.left.length + 1
decreasing_by
  · exact Nat.lt_succ_self _
  · exact Nat.lt_succ_of_le (Nat.mul_le_mul_left 2 next.property)

/-- Reads on in a level where an operand has been read. -/
def others (enclosed : Bool) (l : Level) (d : Descent) : Outcome d :=
  match h : d.advance? with
  | none => (close enclosed l none, ⟨d, Nat.le_refl _⟩)
  | some (token, after) =>
    have shorter := length_left_advance? h
    match connective? token.kind with
    | none => (close enclosed l (some token), ⟨after, Nat.le_of_lt shorter⟩)
    | some k =>
      match operand after with
      | (.error e, next) =>
        (.error e, ⟨next.val, Nat.le_trans next.property (Nat.le_of_lt shorter)⟩)
      | (.ok c, next) =>
        let last := others enclosed ((l.join k).add c) next.val
        (last.1, ⟨last.2.val,
          Nat.le_trans last.2.property (Nat.le_trans next.property (Nat.le_of_lt shorter))⟩)
termination_by 2 * d.left.length
decreasing_by
  · exact Nat.lt_of_succ_lt (twice_succ_lt shorter)
  · exact Nat.lt_of_succ_lt (twice_succ_lt (Nat.lt_of_le_of_lt next.property shorter))

end

def parse (d : Descent) : Except ParseError Condition × Descent :=
  ((d.level false).1, (d.level false).2.val)

/-- The counter may have this value. -/
def Allows (d : Descent) (n : Int) : Prop := 0 ≤ n ∧ ∀ most ∈ d.limit, n ≤ (most : Nat)

/-- From `d` to `next` the counter has only had values that it may have, and it is where it was. -/
structure Restores (d next : Descent) : Prop where
  limit : next.limit = d.limit
  depth : next.depth = d.depth
  depths : d.Allows d.depth → ∀ n ∈ next.depths, n ∈ d.depths ∨ d.Allows n

theorem Restores.refl (d : Descent) : Restores d d :=
  ⟨rfl, rfl, fun _ _ mem => .inl mem⟩

theorem Restores.trans (h : Restores d after) (h' : Restores after next) : Restores d next := by
  refine ⟨h'.limit.trans h.limit, h'.depth.trans h.depth, ?_⟩
  intro allowed n mem
  have same : after.Allows = d.Allows := by
    unfold Allows
    rw [h.limit]
  have still : after.Allows after.depth := by rwa [same, h.depth]
  rcases h'.depths still n mem with mem | ok
  · exact h.depths allowed n mem
  · exact .inr (same ▸ ok)

theorem restores_advance? (h : d.advance? = some (token, after)) : Restores d after := by
  rw [(advance?_eq_some h).1]
  exact ⟨rfl, rfl, fun _ _ mem => .inl mem⟩

theorem allows_succ (room : d.isFull = false) (h : d.Allows d.depth) : d.Allows (d.depth + 1) := by
  refine ⟨Int.le_add_one h.1, ?_⟩
  intro most limited
  simp only [isFull, Option.mem_def.mp limited, Option.any_some, decide_eq_false_iff_not] at room
  omega

/-- Whatever is read in between, leaving undoes entering. -/
theorem Restores.leave (room : d.isFull = false) (h : Restores d.enter next) :
    Restores d next.leave := by
  have back : next.depth - 1 = d.depth := by
    rw [h.depth]
    exact Int.add_sub_cancel d.depth 1
  refine ⟨h.limit, back, ?_⟩
  intro allowed n mem
  rcases List.mem_cons.mp mem with rfl | mem
  · exact .inr (back ▸ allowed)
  · rcases h.depths (allows_succ room allowed) n mem with mem | ok
    · rcases List.mem_cons.mp mem with rfl | mem
      · exact .inr (allows_succ room allowed)
      · exact .inl mem
    · exact .inr ok

mutual

theorem restores_operand (d : Descent) : Restores d d.operand.2.val := by
  rw [operand]
  split
  · exact .refl d
  · rename_i token after found
    have shorter := length_left_advance? found
    refine (restores_advance? found).trans ?_
    split
    · split
      · exact .refl after
      · rename_i room
        exact .leave (by simpa using room) (restores_level true after.enter)
    · split
      · exact .refl after
      · rename_i room
        exact .leave (by simpa using room) (restores_operand after.enter)
    all_goals exact .refl after
termination_by 2 * d.left.length

theorem restores_level (enclosed : Bool) (d : Descent) :
    Restores d (d.level enclosed).2.val := by
  have first := restores_operand d
  rw [level]
  split
  · rename_i found
    rwa [found] at first
  · rename_i next found
    have _fewer := next.property
    rw [found] at first
    exact first.trans (restores_others enclosed _ next.val)
termination_by 2 * d.left.length + 1

theorem restores_others (enclosed : Bool) (l : Level) (d : Descent) :
    Restores d (d.others enclosed l).2.val := by
  rw [others]
  split
  · exact .refl d
  · rename_i token after found
    have shorter := length_left_advance? found
    refine (restores_advance? found).trans ?_
    split
    · exact .refl after
    · have next := restores_operand after
      split
      · rename_i found
        rwa [found] at next
      · rename_i last found
        have fewer := last.property
        rw [found] at next
        exact next.trans (restores_others enclosed _ last.val)
termination_by 2 * d.left.length

end

end Descent

namespace Parser

abbrev Answer := Except ParseError Condition × Parser

/-- Goes on from a reading with the tokens that are left. -/
def resume (p : Parser) (s : Reading) : Answer :=
  let (answer, used) := s.run p.limit p.input (p.tokens.drop p.position)
  (answer, { p with position := p.position + used })

namespace Answer

/-- What is done with a condition; an error is final. -/
def andThen (a : Answer) (next : Condition → Parser → Answer) : Answer :=
  match a.1 with
  | .ok c => next c a.2
  | .error e => (.error e, a.2)

@[simp] theorem andThen_ok (c : Condition) (p : Parser) (next : Condition → Parser → Answer) :
    andThen (.ok c, p) next = next c p := rfl

@[simp] theorem andThen_error (e : ParseError) (p : Parser)
    (next : Condition → Parser → Answer) : andThen (.error e, p) next = (.error e, p) := rfl

theorem andThen_map (a : Except ParseError Condition) (f : Condition → Condition) (p : Parser)
    (next : Condition → Parser → Answer) :
    andThen (a.map f, p) next = andThen (a, p) fun c => next (f c) := by
  cases a <;> rfl

end Answer

/-- Goes on when a level has ended, if there is a level around it. -/
def resumeAround (outer : List Level) (c : Condition) (p : Parser) : Answer :=
  match outer with
  | [] => (.ok c, p)
  | level :: outer => p.resume (.attach c ⟨level, outer, false⟩)

end Parser

namespace Descent

variable {limit : Option Nat} {d after : Descent} {token : Token} {s t : Reading} {e : ParseError}

def Outcome.answer (out : Outcome d) : Parser.Answer := (out.1, out.2.val.toParser)

theorem resume_of_advance?_eq_none (h : d.advance? = none) (s : Reading) :
    d.toParser.resume s = (s.finish d.input, d.toParser) := by
  have ended : d.tokens.drop d.position = [] := left_of_advance?_eq_none h
  simp [Parser.resume, ended, Reading.run]

theorem resume_of_feed_eq_error (h : d.advance? = some (token, after))
    (fault : s.feed d.limit token = .error e) :
    d.toParser.resume s = (.error e, after.toParser) := by
  obtain ⟨rfl, first⟩ := advance?_eq_some h
  rw [left] at first
  simp [Parser.resume, first, Reading.run, fault]

theorem resume_of_feed (h : d.advance? = some (token, after)) (fed : s.feed d.limit token = .ok t) :
    d.toParser.resume s = after.toParser.resume t := by
  obtain ⟨rfl, first⟩ := advance?_eq_some h
  rw [left] at first
  simp [Parser.resume, first, Reading.run, fed, left, Nat.add_assoc, Nat.add_comm]

/-- The counter tells when the limit is reached. -/
theorem any_limit_eq_isFull (found : d.advance? = some (token, after))
    (same : d.depth = s.depth) : d.limit.any (· ≤ s.depth) = after.isFull := by
  obtain ⟨rfl, -⟩ := advance?_eq_some found
  simp [isFull, same]

theorem tokenKind_of_connective? {kind : Token.Kind} {k : Connective}
    (h : connective? kind = some k) : kind = k.tokenKind := by
  cases kind <;> cases h <;> rfl

theorem feed_last_level (limit : Option Nat) (last : connective? token.kind = none) (l : Level) :
    Reading.feed limit token ⟨l, [], false⟩ = .error (.unexpectedToken token.raw token.span) := by
  cases kind : token.kind <;> simp_all [Reading.feed, connective?]

theorem feed_inner_level (limit : Option Nat) (last : connective? token.kind = none)
    (l level : Level) (outer : List Level) : Reading.feed limit token ⟨l, level :: outer, false⟩ =
      if token.kind = .rparen then .ok (.attach l.condition ⟨level, outer, false⟩)
      else .error (.expectedCloser (some token.span)) := by
  cases kind : token.kind <;> simp_all [Reading.feed, connective?]

theorem attach_negate (c : Condition) (s : Reading) :
    Reading.attach c { s with level := s.level.negate } = s.attach (.not c) := by
  simp [Reading.attach, Level.add, Level.negate, Condition.negated_not]

theorem feed_full (due : s.operandDue = true) (deepens : token.kind = .lparen ∨ token.kind = .not)
    (full : limit.any (· ≤ s.depth) = true) :
    s.feed limit token = .error (.nestingTooDeep token.span) := by
  rcases deepens with kind | kind <;> simp [Reading.feed, due, kind, full]

mutual

theorem resume_operand (d : Descent) (s : Reading) (due : s.operandDue = true)
    (same : d.depth = s.depth) :
    d.toParser.resume s = d.operand.answer.andThen fun c p => p.resume (s.attach c) := by
  rw [operand]
  split
  · rename_i ended
    rw [resume_of_advance?_eq_none ended]
    simp [Outcome.answer, Reading.finish, due]
  · rename_i token after found
    have shorter := length_left_advance? found
    have full := any_limit_eq_isFull found same
    have entered : after.enter.depth = s.depth + 1 := by
      rw [← same, ← (restores_advance? found).depth]
      rfl
    split
    · rename_i kind
      split
      · rename_i isFull
        exact resume_of_feed_eq_error found (feed_full due (.inl kind) (full.trans isFull))
      · rename_i room
        rw [← full, ← Reading.fits_succ_iff] at room
        have opened : after.enter.depth = Reading.around (s.level :: s.outer) := by
          rw [entered, Reading.around_cons, Nat.add_right_comm, ← Reading.depth_eq,
            Int.natCast_succ]
        rw [resume_of_feed found (Reading.feed_of_step (.opening due kind room))]
        exact resume_level after.enter (s.level :: s.outer) opened
    · rename_i kind
      split
      · rename_i isFull
        exact resume_of_feed_eq_error found (feed_full due (.inr kind) (full.trans isFull))
      · rename_i room
        rw [← full, ← Reading.fits_succ_iff] at room
        have negated : after.enter.depth = Reading.depth { s with level := s.level.negate } := by
          rw [entered, Reading.depth_negate, Int.natCast_succ]
        rw [resume_of_feed found (Reading.feed_of_step (.negation due kind room))]
        -- The stack keeps the `not` until its operand is there, the descent puts it around a result.
        have inner := resume_operand after.enter { s with level := s.level.negate } due negated
        simp only [attach_negate] at inner
        have outer := Parser.Answer.andThen_map after.enter.operand.1 .not
          after.enter.operand.2.val.toParser fun c p => p.resume (s.attach c)
        exact inner.trans outer.symm
    · rename_i f kind
      exact resume_of_feed found (Reading.feed_of_step (.feature f due kind))
    all_goals
      rename_i kind
      apply resume_of_feed_eq_error found
      simp [Reading.feed, due, kind]
termination_by 2 * d.left.length

theorem resume_level (d : Descent) (outer : List Level) (same : d.depth = Reading.around outer) :
    d.toParser.resume ⟨.empty, outer, true⟩ =
      (d.level !outer.isEmpty).answer.andThen (Parser.resumeAround outer) := by
  have start : d.depth = Reading.depth ⟨.empty, outer, true⟩ := by
    simpa [Reading.depth_eq, Level.empty] using same
  have first := resume_operand d ⟨.empty, outer, true⟩ rfl start
  have depth := (restores_operand d).depth
  rw [first, level]
  rcases found : operand d with ⟨_ | c, next⟩
  · rfl
  · rw [found] at depth
    have fewer := next.property
    exact resume_others next.val _ outer (depth.trans same) rfl
termination_by 2 * d.left.length + 1

theorem resume_others (d : Descent) (l : Level) (outer : List Level)
    (same : d.depth = Reading.around outer) (free : l.negations = 0) :
    d.toParser.resume ⟨l, outer, false⟩ =
      (d.others (!outer.isEmpty) l).answer.andThen (Parser.resumeAround outer) := by
  rw [others]
  split
  · rename_i ended
    rw [resume_of_advance?_eq_none ended]
    cases outer <;> rfl
  · rename_i token after found
    have shorter := length_left_advance? found
    split
    · rename_i last
      cases outer with
      | nil => exact resume_of_feed_eq_error found (feed_last_level d.limit last l)
      | cons level outer =>
        have fed := feed_inner_level d.limit last l level outer
        by_cases closes : token.kind = .rparen
        · rw [if_pos closes] at fed
          rw [resume_of_feed found fed]
          simp [close, closes, Outcome.answer, Parser.resumeAround]
        · rw [if_neg closes] at fed
          rw [resume_of_feed_eq_error found fed]
          simp [close, closes, Outcome.answer]
    · rename_i k connects
      have step : Reading.Step d.limit token ⟨l, outer, false⟩ ⟨l.join k, outer, true⟩ :=
        .connective k rfl (tokenKind_of_connective? connects)
      have here : after.depth = Reading.around outer := (restores_advance? found).depth.trans same
      have start : after.depth = Reading.depth ⟨l.join k, outer, true⟩ := by
        simpa [Reading.depth_eq, Level.join, free] using here
      have next := resume_operand after ⟨l.join k, outer, true⟩ rfl start
      have depth := (restores_operand after).depth
      rw [resume_of_feed found (Reading.feed_of_step step), next]
      rcases read : operand after with ⟨_ | c, last⟩
      · rfl
      · rw [read] at depth
        have fewer := last.property
        exact resume_others last.val _ outer (depth.trans here) rfl
termination_by 2 * d.left.length

end

theorem parse_toParser (idle : d.depth = 0) :
    d.toParser.parse = (d.parse.1, d.parse.2.toParser) := by
  refine (resume_level d [] idle).trans ?_
  rw [parse, List.isEmpty_nil, Bool.not_true]
  rcases d.level false with ⟨_ | c, next⟩
  · rfl
  · rfl

theorem restores_parse (d : Descent) : Restores d d.parse.2 := restores_level false d

end Descent

end FeatureQuery
