import FeatureQuery.Text.Basic

/-!
# Tokens

A condition is made of parentheses, the three keywords and features. A token keeps the text it was
cut from and where that text lies.
-/

namespace FeatureQuery

/-- A stretch of a text, in bytes; `stop` is the first byte after it. -/
structure Span where
  start : Nat
  stop : Nat
  deriving DecidableEq, Repr

/-- What a feature was recognised as. -/
inductive Feature.Kind where
  /-- A name and a value, as in `display: grid`. -/
  | declaration
  /-- A call, as in `selector(h2 > p)`. -/
  | function
  /-- Neither, or with a quote that is never closed. -/
  | invalid
  deriving DecidableEq, Repr

structure Feature where
  kind : Feature.Kind
  /-- The name was followed by `(`, whether or not the rest is in order. -/
  callForm : Bool
  /-- The name in front of the separator, blanks included. -/
  left : Text
  /-- What follows the separator, trimmed. -/
  right : Text
  deriving DecidableEq, Repr

/-- A name with no separator after it. -/
def Feature.bare (name : Text) : Feature := ⟨.invalid, false, name, []⟩

inductive Token.Kind where
  | lparen
  | rparen
  | not
  | and
  | or
  | feature (f : Feature)
  deriving DecidableEq, Repr

structure Token where
  kind : Token.Kind
  raw : Text
  span : Span
  deriving DecidableEq, Repr

end FeatureQuery
