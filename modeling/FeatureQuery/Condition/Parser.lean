import FeatureQuery.Key
import FeatureQuery.Token.Lexer
import FeatureQuery.Condition
import FeatureQuery.Condition.Error

/-!
# Reading conditions

There is no precedence: parentheses alone make levels, and `not` binds to one operand. The parser
keeps the open levels on a stack and takes one token a step, so an answer depends on the stack and
the tokens to come and on nothing else.
-/

namespace FeatureQuery

inductive Connective where
  | and
  | or
  deriving DecidableEq, Repr

namespace Junction

/-- How a level with these connectives is joined. -/
def ofConnectives (connectives : List Connective) : Junction :=
  if connectives.all (· = .and) then .all
  else if connectives.all (· = .or) then .any
  else .mixed

def ofConnective : Connective → Junction
  | .and => .all
  | .or => .any

/-- What is known of a level one connective further: the first one decides, and another one beside
it spoils the level. -/
def step (known : Option Junction) (k : Connective) : Option Junction :=
  some (match known with
    | none => ofConnective k
    | some j => if j = ofConnective k then j else .mixed)

theorem ofConnectives_cons (first : Connective) (others : List Connective) :
    ofConnectives (first :: others) =
      if others.all (· = first) then ofConnective first else .mixed := by
  cases first <;> simp [ofConnectives, ofConnective]

theorem ofConnective_inj {k l : Connective} : ofConnective k = ofConnective l ↔ k = l := by
  cases k <;> cases l <;> simp [ofConnective]

theorem step_ofConnectives (first : Connective) (others : List Connective) (k : Connective) :
    step (some (ofConnectives (first :: others))) k =
      some (ofConnectives (first :: others ++ [k])) := by
  have spoiled : Junction.mixed ≠ ofConnective k := by cases k <;> simp [ofConnective]
  rw [List.cons_append, ofConnectives_cons, ofConnectives_cons, List.all_append]
  by_cases uniform : others.all (· = first)
  · by_cases same : k = first
    · simp [step, uniform, same]
    · simp [step, uniform, same, ofConnective_inj, Ne.symm same]
  · simp [step, uniform, spoiled]

/-- Connective by connective, or all of them at once. -/
theorem foldl_step (connectives : List Connective) : connectives.foldl step none =
    if connectives = [] then none else some (ofConnectives connectives) := by
  have known (first : Connective) (others more : List Connective) :
      more.foldl step (some (ofConnectives (first :: others))) =
        some (ofConnectives (first :: others ++ more)) := by
    induction more generalizing others with
    | nil => simp
    | cons k more ih =>
      rw [List.foldl_cons, step_ofConnectives, List.cons_append, ih]
      simp
  cases connectives with
  | nil => rfl
  | cons first more =>
    have begun : step none first = some (ofConnectives [first]) := by cases first <;> rfl
    rw [List.foldl_cons, begun, known]
    simp

end Junction

/-- What has been read of one level. -/
structure Level where
  operands : List Condition
  connectives : List Connective
  /-- How many `not`s wait for the operand to come. -/
  negations : Nat
  deriving DecidableEq, Repr

namespace Level

def empty : Level := ⟨[], [], 0⟩

/-- The level with its next operand, under the negations that waited for it. -/
def add (c : Condition) (l : Level) : Level :=
  ⟨l.operands ++ [c.negated l.negations], l.connectives, 0⟩

def join (k : Connective) (l : Level) : Level := { l with connectives := l.connectives ++ [k] }

def negate (l : Level) : Level := { l with negations := l.negations + 1 }

/-- The condition a finished level stands for: a single operand stands for itself. -/
def condition (l : Level) : Condition :=
  match l.operands with
  | [c] => c
  | cs => .group (.ofConnectives l.connectives) cs

end Level

/-- A condition read in part. -/
structure Reading where
  /-- The innermost level. -/
  level : Level
  /-- The levels around it, innermost first. -/
  outer : List Level
  /-- An operand is due, rather than a connective or the end of the level. -/
  operandDue : Bool
  deriving DecidableEq, Repr

namespace Reading

def start : Reading := ⟨.empty, [], true⟩

/-- Open parentheses and pending `not`s. -/
def depth (s : Reading) : Nat :=
  s.outer.foldr (fun level n => level.negations + 1 + n) s.level.negations

def attach (c : Condition) (s : Reading) : Reading :=
  { s with level := s.level.add c, operandDue := false }

/-- Reads one token, with at most `limit` levels open. -/
def feed (limit : Option Nat) (token : Token) (s : Reading) : Except ParseError Reading :=
  if s.operandDue then
    match token.kind with
    | .lparen =>
      if limit.any (· ≤ s.depth) then .error (.nestingTooDeep token.span)
      else .ok ⟨.empty, s.level :: s.outer, true⟩
    | .not =>
      if limit.any (· ≤ s.depth) then .error (.nestingTooDeep token.span)
      else .ok { s with level := s.level.negate }
    | .feature f => .ok (s.attach (.feature f.kind (Key.normalize token.raw)))
    | .rparen | .and | .or => .error (.unexpectedToken token.raw token.span)
  else
    match token.kind, s.outer with
    | .and, _ => .ok { s with level := s.level.join .and, operandDue := true }
    | .or, _ => .ok { s with level := s.level.join .or, operandDue := true }
    | .rparen, level :: outer => .ok (attach s.level.condition ⟨level, outer, false⟩)
    | _, [] => .error (.unexpectedToken token.raw token.span)
    | _, _ :: _ => .error (.expectedCloser (some token.span))

/-- The answer when the tokens end; `input` is the text they came from. -/
def finish (input : Text) (s : Reading) : Except ParseError Condition :=
  if s.operandDue then .error (.invalidSyntax input)
  else if s.outer.isEmpty then .ok s.level.condition
  else .error (.expectedCloser none)

/-- The answer to the tokens that follow, and how many of them it took. -/
def run (limit : Option Nat) (input : Text) :
    List Token → Reading → Except ParseError Condition × Nat
  | [], s => (s.finish input, 0)
  | token :: tokens, s =>
    match s.feed limit token with
    | .error e => (.error e, 1)
    | .ok s =>
      let (answer, used) := run limit input tokens s
      (answer, used + 1)

end Reading

/-- Tokens being read; a parser goes on where its last answer stopped. -/
structure Parser where
  input : Text
  tokens : List Token
  position : Nat
  /-- Levels that may be open at once; `none` is no limit. -/
  limit : Option Nat
  deriving DecidableEq, Repr

namespace Parser

def ofTokens (input : Text) (tokens : List Token) : Parser := ⟨input, tokens, 0, some maxDepth⟩

def parse (p : Parser) : Except ParseError Condition × Parser :=
  let (answer, used) := Reading.start.run p.limit p.input (p.tokens.drop p.position)
  (answer, { p with position := p.position + used })

def answers : Nat → Parser → List (Except ParseError Condition)
  | 0, _ => []
  | n + 1, p =>
    let (answer, p) := p.parse
    answer :: p.answers n

end Parser

namespace Condition

/-- Reads a condition, without the at-keyword. -/
def parse (t : Text) : Except ParseError Condition :=
  if Text.allBlank t then .error .emptyInput
  else (Parser.ofTokens t (tokenize t)).parse.1

end Condition

end FeatureQuery
