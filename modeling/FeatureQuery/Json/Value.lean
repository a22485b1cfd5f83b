import FeatureQuery.Text.Basic

/-!
# Written values

What a condition is written as: strings, arrays, and records with a `type` and a `node`. The
compact form has no blanks; the indented form has one member or item on each line.
-/

namespace FeatureQuery.Json

inductive Value where
  | string (t : Text)
  | array (items : List Value)
  | record (type : Text) (node : Value)
  deriving Repr

/-- A character inside a written string. Only quotes, backslashes and controls are escaped. -/
def escape (c : Char) : Text :=
  match c with
  | '"' => ['\\', '"']
  | '\\' => ['\\', '\\']
  | '\x08' => ['\\', 'b']
  | '\x0c' => ['\\', 'f']
  | '\n' => ['\\', 'n']
  | '\r' => ['\\', 'r']
  | '\t' => ['\\', 't']
  | c =>
    if c.toNat < 0x20 then
      "\\u00".toList ++ [Nat.digitChar (c.toNat / 16), Nat.digitChar (c.toNat % 16)]
    else [c]

def quoted (t : Text) : Text := '"' :: t.flatMap escape ++ ['"']

/-- The name of a member, up to its value. -/
def member (name : String) : Text := quoted name.toList ++ [':']

namespace Value

mutual

def compact : Value → Text
  | .string t => quoted t
  | .array [] => ['[', ']']
  | .array (v :: vs) => '[' :: compact v ++ compactRest vs
  | .record type node =>
    '{' :: member "type" ++ quoted type ++ ',' :: member "node" ++ compact node ++ ['}']

/-- The items after the first, and the closing bracket. -/
def compactRest : List Value → Text
  | [] => [']']
  | v :: vs => ',' :: compact v ++ compactRest vs

end

def newline (level : Nat) : Text := '\n' :: List.replicate (2 * level) ' '

mutual

/-- The indented form of a value that starts at `level`. -/
def indented (level : Nat) : Value → Text
  | .string t => quoted t
  | .array [] => ['[', ']']
  | .array (v :: vs) =>
    '[' :: newline (level + 1) ++ indented (level + 1) v ++ indentedRest level vs
  | .record type node =>
    '{' :: newline (level + 1) ++ member "type" ++ ' ' :: quoted type ++ [','] ++
      newline (level + 1) ++ member "node" ++ ' ' :: indented (level + 1) node ++
      newline level ++ ['}']

/-- The items after the first of an array that starts at `level`, and the closing bracket. -/
def indentedRest (level : Nat) : List Value → Text
  | [] => newline level ++ [']']
  | v :: vs =>
    ',' :: newline (level + 1) ++ indented (level + 1) v ++ indentedRest level vs

end

end Value

end FeatureQuery.Json
