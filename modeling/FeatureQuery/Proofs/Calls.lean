import FeatureQuery.Proofs.Descent

/-!
# Calling a parser again

A parser can be asked for one condition after the other. A call goes on where the last one stopped,
and nothing else is left of that one: every call is the call of a fresh parser on the tokens that
remain. Each takes some of them, so in the end there are none.
-/

namespace FeatureQuery

namespace Reading

variable {limit : Option Nat} {input : Text} {tokens : List Token} {s : Reading} {c : Condition}

/-- A run takes all tokens, or it ends with an error at one of them. -/
theorem used_cases (limit : Option Nat) (input : Text) (tokens : List Token) (s : Reading) :
    (run limit input tokens s).2 = tokens.length ∨ ∃ e,
      (run limit input tokens s).1 = .error e ∧ 0 < (run limit input tokens s).2 ∧
        (run limit input tokens s).2 ≤ tokens.length := by
  rcases feedAll_cases limit tokens s with ⟨t, h⟩ | ⟨before, token, after, t, e, rfl, h, fault⟩
  · exact .inl (congrArg Prod.snd (run_of_feedAll h))
  · rw [run_of_fault h fault, List.length_append, List.length_cons]
    exact .inr ⟨e, rfl, Nat.succ_pos _, Nat.add_le_add_left (Nat.le_add_left 1 _) _⟩

theorem used_le (limit : Option Nat) (input : Text) (tokens : List Token) (s : Reading) :
    (run limit input tokens s).2 ≤ tokens.length := by
  rcases used_cases limit input tokens s with all | ⟨e, -, -, some⟩
  · exact Nat.le_of_eq all
  · exact some

theorem used_pos (remains : tokens ≠ []) : 0 < (run limit input tokens s).2 := by
  rcases used_cases limit input tokens s with all | ⟨e, -, some, -⟩
  · exact all ▸ List.length_pos_iff.mpr remains
  · exact some

theorem used_of_ok (accepted : (run limit input tokens s).1 = .ok c) :
    (run limit input tokens s).2 = tokens.length := by
  rcases used_cases limit input tokens s with all | ⟨e, refused, -, -⟩
  · exact all
  · rw [refused] at accepted
    cases accepted

end Reading

namespace Parser

variable {p : Parser} {c : Condition}

theorem position_parse_le (inside : p.position ≤ p.tokens.length) :
    p.parse.2.position ≤ p.tokens.length := by
  have used := Reading.used_le p.limit p.input (p.tokens.drop p.position) .start
  rw [List.length_drop] at used
  simp only [parse]
  omega

theorem position_le_parse (p : Parser) : p.position ≤ p.parse.2.position :=
  Nat.le_add_right _ _

theorem lt_position_parse (remains : p.position < p.tokens.length) :
    p.position < p.parse.2.position := by
  apply Nat.lt_add_of_pos_right
  apply Reading.used_pos
  simpa using remains

theorem position_parse_of_ok (inside : p.position ≤ p.tokens.length)
    (accepted : p.parse.1 = .ok c) : p.parse.2.position = p.tokens.length := by
  have used := Reading.used_of_ok accepted
  rw [List.length_drop] at used
  simp only [parse, used]
  omega

theorem parse_of_no_tokens (ended : p.position = p.tokens.length) :
    p.parse.1 = .error (.invalidSyntax p.input) := by
  simp [parse, ended, Reading.run, Reading.finish, Reading.start]

end Parser

namespace Descent

variable {input : Text} {tokens : List Token} {d : Descent}

/-- The descent after `n` calls. -/
def called : Nat → Descent → Descent
  | 0, d => d
  | n + 1, d => d.parse.2.called n

/-- Between two calls a descent is a parser at some place in its tokens, with no level open. -/
structure Idle (input : Text) (tokens : List Token) (d : Descent) : Prop where
  parser : d.toParser = { Parser.ofTokens input tokens with position := d.position }
  inside : d.position ≤ d.tokens.length
  depth : d.depth = 0
  depths : ∀ n ∈ d.depths, 0 ≤ n ∧ n ≤ maxDepth

theorem idle_ofTokens (input : Text) (tokens : List Token) :
    Idle input tokens (ofTokens input tokens) := by
  refine ⟨rfl, Nat.zero_le _, rfl, ?_⟩
  intro n mem
  obtain rfl := List.mem_singleton.mp mem
  decide

theorem toParser_parse (idle : d.depth = 0) : d.parse.2.toParser = d.toParser.parse.2 :=
  (congrArg Prod.snd (parse_toParser idle)).symm

theorem Idle.parse (h : Idle input tokens d) : Idle input tokens d.parse.2 := by
  have next := toParser_parse h.depth
  have inside : d.parse.2.toParser.position ≤ d.parse.2.toParser.tokens.length := by
    rw [next]
    exact Parser.position_parse_le h.inside
  have restores := d.restores_parse
  have limit : d.limit = some maxDepth := congrArg Parser.limit h.parser
  have allows (n : Int) : d.Allows n ↔ 0 ≤ n ∧ n ≤ maxDepth := by
    simp [Allows, limit]
  refine ⟨?_, inside, restores.depth.trans h.depth, ?_⟩
  · rw [next, h.parser]
    rfl
  · have zero : d.Allows d.depth := by
      rw [allows, h.depth]
      decide
    intro n mem
    rcases restores.depths zero n mem with mem | ok
    · exact h.depths n mem
    · exact (allows n).mp ok

theorem Idle.called (h : Idle input tokens d) (n : Nat) : Idle input tokens (d.called n) := by
  induction n generalizing d with
  | zero => exact h
  | succ n ih => exact ih h.parse

theorem Idle.answers (h : Idle input tokens d) (n : Nat) :
    (d.toParser.answers (n + 1))[n]? = some (d.called n).parse.1 := by
  induction n generalizing d with
  | zero => simp [Parser.answers, parse_toParser h.depth, Descent.called]
  | succ n ih =>
    rw [Parser.answers, parse_toParser h.depth]
    exact ih h.parse

theorem Idle.tokens_eq (h : Idle input tokens d) : d.tokens = tokens :=
  congrArg Parser.tokens h.parser

theorem Idle.input_eq (h : Idle input tokens d) : d.input = input :=
  congrArg Parser.input h.parser

theorem Idle.position_le (h : Idle input tokens d) : d.position ≤ tokens.length :=
  h.tokens_eq ▸ h.inside

theorem answer_parse (idle : d.depth = 0) : d.parse.1 = d.toParser.parse.1 :=
  (congrArg Prod.fst (parse_toParser idle)).symm

theorem position_parse (idle : d.depth = 0) :
    d.parse.2.position = d.toParser.parse.2.position :=
  congrArg Parser.position (toParser_parse idle)

theorem Idle.position_parse (h : Idle input tokens d) :
    d.position ≤ d.parse.2.position ∧
      (d.position < tokens.length → d.position < d.parse.2.position) := by
  rw [Descent.position_parse h.depth]
  refine ⟨d.toParser.position_le_parse, ?_⟩
  intro remains
  rw [← h.tokens_eq] at remains
  exact Parser.lt_position_parse remains

/-- As long as there are tokens, every call takes one. -/
theorem Idle.position_called (h : Idle input tokens d) {n : Nat}
    (enough : tokens.length ≤ d.position + n) : (d.called n).position = tokens.length := by
  induction n generalizing d with
  | zero => exact Nat.le_antisymm h.position_le enough
  | succ n ih =>
    apply ih h.parse
    have inside := h.position_le
    obtain ⟨goesOn, takes⟩ := h.position_parse
    omega

theorem Idle.parse_fresh (h : Idle input tokens d) :
    d.parse.1 = (ofTokens input (tokens.drop d.position)).parse.1 := by
  have fresh : (ofTokens input (tokens.drop d.position)).depth = 0 := rfl
  rw [answer_parse h.depth, answer_parse fresh, h.parser]
  rfl

theorem Idle.position_parse_of_ok {c : Condition} (h : Idle input tokens d)
    (accepted : d.parse.1 = .ok c) : d.parse.2.position = tokens.length := by
  rw [answer_parse h.depth] at accepted
  rw [Descent.position_parse h.depth, ← h.tokens_eq]
  exact Parser.position_parse_of_ok h.inside accepted

theorem Idle.parse_of_no_tokens (h : Idle input tokens d) (ended : d.position = tokens.length) :
    d.parse.1 = .error (.invalidSyntax input) := by
  rw [← h.tokens_eq] at ended
  rw [answer_parse h.depth, Parser.parse_of_no_tokens ended, h.input_eq]

/-- Whatever became of the calls before, a call starts with no level open, ends with none and opens
no more than 256 in between. It answers as the first call of a parser does that is given the tokens
that remain, and takes at least one of them; an answer with a condition takes all. Without tokens it
answers that the syntax is invalid, which is so after as many calls as there are tokens. -/
theorem calls_are_fresh (input : Text) (tokens : List Token) (n : Nat) :
    let d := (ofTokens input tokens).called n
    let answer := d.parse.1
    let next := d.parse.2
    ((Parser.ofTokens input tokens).answers (n + 1))[n]? = some answer ∧
    d.toParser.parse = (answer, next.toParser) ∧
    d.depth = 0 ∧ next.depth = 0 ∧ (∀ k ∈ next.depths, 0 ≤ k ∧ k ≤ 256) ∧
    d.position ≤ next.position ∧ next.position ≤ tokens.length ∧
    (d.position < tokens.length → d.position < next.position) ∧
    answer = (ofTokens input (tokens.drop d.position)).parse.1 ∧
    (∀ c, answer = .ok c → next.position = tokens.length) ∧
    (d.position = tokens.length → answer = .error (.invalidSyntax input)) ∧
    (tokens.length ≤ n → d.position = tokens.length) := by
  intro d answer next
  have start := idle_ofTokens input tokens
  have idle : Idle input tokens d := start.called n
  have same := parse_toParser idle.depth
  obtain ⟨goesOn, takes⟩ := idle.position_parse
  refine ⟨start.answers n, same, idle.depth, idle.parse.depth, idle.parse.depths, goesOn,
    idle.parse.position_le, takes, idle.parse_fresh, ?_, ?_, ?_⟩
  · intro c accepted
    exact idle.position_parse_of_ok accepted
  · intro ended
    exact idle.parse_of_no_tokens ended
  · intro enough
    exact start.position_called (Nat.le_trans enough (Nat.le_add_left _ _))

/-- The first call fails inside a level, the second reads what is left, and the third has nothing to
read. -/
theorem calls_after_unclosed_level :
    let text := "(not (a: 1) or) not b: 2".toList
    let d := (ofTokens text (tokenize text)).called 1
    let c := Condition.not (.feature .declaration "b:2".toList)
    (ofTokens text (tokenize text)).parse.1 = .error (.unexpectedToken [')'] ⟨14, 15⟩) ∧
    d.position < (tokenize text).length ∧ d.position < d.parse.2.position ∧
    d.parse.1 = .ok c ∧ d.parse.2.position = (tokenize text).length ∧
    (d.called 1).parse.1 = .error (.invalidSyntax text) := by
  intro text d c
  have failed : (ofTokens text (tokenize text)).parse.1 =
      .error (.unexpectedToken [')'] ⟨14, 15⟩) := by decide +kernel
  have remains : d.position < (tokenize text).length := by decide +kernel
  have accepted : d.parse.1 = .ok c := by decide +kernel
  obtain ⟨-, -, -, -, -, -, -, takes, -, complete, -, -⟩ := calls_are_fresh text (tokenize text) 1
  have ended := complete c accepted
  obtain ⟨-, -, -, -, -, -, -, -, -, -, empty, -⟩ := calls_are_fresh text (tokenize text) 2
  exact ⟨failed, remains, takes remains, accepted, ended, empty ended⟩

end Descent

end FeatureQuery
