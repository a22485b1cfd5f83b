import FeatureQuery.Json.Fault
import FeatureQuery.Text.Basic

/-!
# JSON strings

A string is a row of characters and of 16-bit units that were written as escapes. A string that is
passed over needs no more than that shape; in a string that is kept, the units must pair up to
characters.
-/

namespace FeatureQuery.Json

inductive Piece where
  | char (c : Char)
  /-- A unit written with four hexadecimal digits. -/
  | unit (n : Nat)
  deriving DecidableEq, Repr

/-- A string up to its closing quote, or up to a fault. -/
structure Escaped where
  pieces : List Piece
  fault : Option Fault
  deriving DecidableEq, Repr

namespace Escaped

/-- The character that a letter after a backslash stands for. -/
def simple? (c : Char) : Option Char :=
  match c with
  | '"' | '\\' | '/' => some c
  | 'b' => some '\x08'
  | 'f' => some '\x0c'
  | 'n' => some '\n'
  | 'r' => some '\r'
  | 't' => some '\t'
  | _ => none

def hexDigit? (c : Char) : Option Nat :=
  if c.isDigit then some (c.toNat - '0'.toNat)
  else if 'a' ≤ c ∧ c ≤ 'f' then some (c.toNat - 'a'.toNat + 10)
  else if 'A' ≤ c ∧ c ≤ 'F' then some (c.toNat - 'A'.toNat + 10)
  else none

/-- The unit that four hexadecimal digits write. -/
def unit? (a b c d : Char) : Option Nat := do
  return (((← hexDigit? a) * 16 + (← hexDigit? b)) * 16 + (← hexDigit? c)) * 16 + (← hexDigit? d)

def cons (p : Piece) (found : Escaped × Text) : Escaped × Text :=
  ({ found.1 with pieces := p :: found.1.pieces }, found.2)

/-- Reads a string after its opening quote, and what follows it. Of an escaped unit four bytes must
be there before its digits are looked at. -/
def scan : Text → Escaped × Text
  | [] => (⟨[], some .truncated⟩, [])
  | c :: t =>
    if c = '"' then (⟨[], none⟩, t)
    else if c = '\\' then
      match t with
      | [] => (⟨[], some .truncated⟩, [])
      | 'u' :: t =>
        match t with
        | a :: b :: c :: d :: t =>
          match unit? a b c d with
          | some n => cons (.unit n) (scan t)
          | none => (⟨[], some .malformed⟩, t)
        | short => (⟨[], some (if Text.width short < 4 then .truncated else .malformed)⟩, [])
      | e :: t =>
        match simple? e with
        | some c => cons (.char c) (scan t)
        | none => (⟨[], some .malformed⟩, t)
    else if c.toNat < 0x20 then (⟨[], some .malformed⟩, t)
    else cons (.char c) (scan t)

theorem length_scan_le (t : Text) : (scan t).2.length ≤ t.length := by
  fun_induction scan t <;> simp_all [cons] <;> omega

def isLeading (n : Nat) : Bool := 0xD800 ≤ n && n ≤ 0xDBFF

def isTrailing (n : Nat) : Bool := 0xDC00 ≤ n && n ≤ 0xDFFF

/-- The character that a leading and a trailing unit make. -/
def pair (high low : Nat) : Char := .ofNat (0x10000 + (high - 0xD800) * 0x400 + (low - 0xDC00))

/-- The text of pieces that end with `fault`. -/
def decode (fault : Option Fault) : List Piece → Except Fault Text
  | [] => match fault with
    | none => .ok []
    | some e => .error e
  | .char c :: ps => (decode fault ps).map (c :: ·)
  | .unit n :: ps =>
    if isTrailing n then .error .malformed
    else if isLeading n then
      match ps with
      | .unit m :: ps =>
        if isTrailing m then (decode fault ps).map (pair n m :: ·) else .error .malformed
      | .char _ :: _ => .error .malformed
      | [] => .error (fault.getD .malformed)
    else (decode fault ps).map (Char.ofNat n :: ·)

/-- The text of a string that is kept. -/
def text (s : Escaped) : Except Fault Text := decode s.fault s.pieces

end Escaped

end FeatureQuery.Json
