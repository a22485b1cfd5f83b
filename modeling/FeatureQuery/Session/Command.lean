import FeatureQuery.Text.Blank

/-!
# Commands

A command is the first word of a line; the rest of the line is its argument.
-/

namespace FeatureQuery

inductive Command where
  | blank
  | help
  | quit
  | condition (text : Text)
  | check (feature : Text)
  | tokens (text : Text)
  | unknown (name : Text)
  deriving DecidableEq, Repr

namespace Command

def ofLine (line : Text) : Command :=
  let t := Text.trim line
  let name := t.takeWhile (!Text.isBlank ·)
  let argument := Text.trim (t.drop name.length)
  if name.isEmpty then .blank
  else if name = "cond".toList then .condition argument
  else if name = "check".toList then .check argument
  else if name = "tokens".toList then .tokens argument
  else if name = "help".toList then .help
  else if name = "quit".toList ∨ name = "exit".toList then .quit
  else .unknown name

end Command

end FeatureQuery
