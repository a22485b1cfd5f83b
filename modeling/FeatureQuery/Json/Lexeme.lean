import FeatureQuery.Json.Escaped
import FeatureQuery.Json.Number

/-!
# JSON lexemes

A text is cut as far as it can be. A fault inside a lexeme is kept with the lexeme, so that it
counts only when the reader comes to it.
-/

namespace FeatureQuery.Json

inductive Bracket where
  | object
  | array
  deriving DecidableEq, Repr

inductive Literal where
  | null
  | bool (b : Bool)
  deriving DecidableEq, Repr

inductive Lexeme where
  | opening (b : Bracket)
  | closing (b : Bracket)
  | comma
  | colon
  | literal (found : Except Fault Literal)
  | number (found : Except Fault Number)
  | string (s : Escaped)
  /-- A character that starts no lexeme. -/
  | stray

namespace Lexeme

def isSpace (c : Char) : Bool := c = ' ' || c = '\t' || c = '\n' || c = '\r'

/-- What follows a word, letter by letter. -/
def scanWord : (word : Text) → Text → Except Fault Text
  | [], t => .ok t
  | _ :: _, [] => .error .truncated
  | w :: word, c :: t => if w = c then scanWord word t else .error .malformed

theorem length_scanWord {word t rest : Text} (h : scanWord word t = .ok rest) :
    rest.length ≤ t.length := by
  fun_induction scanWord word t with
  | case1 => cases h; exact Nat.le_refl _
  | case2 => cases h
  | case3 word c t ih => exact Nat.le_succ_of_le (ih h)
  | case4 => cases h

/-- The literal that starts with a letter, up to the end of its word. -/
def literal? (c : Char) : Option (Literal × Text) :=
  match c with
  | 'n' => some (.null, "ull".toList)
  | 't' => some (.bool true, "rue".toList)
  | 'f' => some (.bool false, "alse".toList)
  | _ => none

def punctuation? (c : Char) : Option Lexeme :=
  match c with
  | '\x7b' => some (.opening .object)
  | '\x7d' => some (.closing .object)
  | '[' => some (.opening .array)
  | ']' => some (.closing .array)
  | ',' => some .comma
  | ':' => some .colon
  | _ => none

/-- The lexeme that starts with `c`, and what follows it. -/
def scan (c : Char) (t : Text) : Lexeme × Text :=
  match punctuation? c with
  | some found => (found, t)
  | none =>
    match literal? c with
    | some (found, word) =>
      match scanWord word t with
      | .ok rest => (.literal (.ok found), rest)
      | .error e => (.literal (.error e), [])
    | none =>
      if c = '"' then let (found, rest) := Escaped.scan t; (.string found, rest)
      else if c = '-' ∨ c.isDigit then
        match Number.scan (c :: t) with
        | .ok (found, rest) => (.number (.ok found), rest)
        | .error e => (.number (.error e), [])
      else (.stray, [])

theorem length_scan_le (c : Char) (t : Text) : (scan c t).2.length ≤ t.length := by
  unfold scan
  split
  · exact Nat.le_refl _
  · split
    · split
      · exact length_scanWord ‹_›
      · exact Nat.zero_le _
    · split
      · exact Escaped.length_scan_le t
      · split
        · split
          · exact Nat.lt_succ_iff.1 (Number.length_scan ‹_›)
          · exact Nat.zero_le _
        · exact Nat.zero_le _

end Lexeme

/-- The lexemes of a text. -/
def lexemes (t : Text) : List Lexeme :=
  match t with
  | [] => []
  | c :: t =>
    if Lexeme.isSpace c then lexemes t
    else (Lexeme.scan c t).1 :: lexemes (Lexeme.scan c t).2
termination_by t.length
decreasing_by
  · exact Nat.lt_succ_self _
  · exact Nat.lt_succ_of_le (Lexeme.length_scan_le c t)

end FeatureQuery.Json
