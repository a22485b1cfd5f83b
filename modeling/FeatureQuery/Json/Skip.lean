import FeatureQuery.Json.Lexeme

/-!
# Passing over a JSON value

A value is passed over one lexeme at a time, with the open brackets on a stack, so its depth does
not matter. Of what it holds only the shape is asked: numbers may be of any size and escaped units
need not pair up.
-/

namespace FeatureQuery.Json

/-- What is due while a value is passed over; `around` holds the open brackets, innermost first. -/
inductive Skip where
  | value (around : List Bracket)
  /-- The first item or member after an opening bracket, or its end. -/
  | first (b : Bracket) (around : List Bracket)
  | key (around : List Bracket)
  | colon (around : List Bracket)
  /-- A comma, or the closing bracket. -/
  | more (b : Bracket) (around : List Bracket)
  deriving DecidableEq, Repr

namespace Skip

/-- What is due after a complete value; nothing, when it was the outermost. -/
def complete : List Bracket → Option Skip
  | [] => none
  | b :: around => some (.more b around)

def stepValue (around : List Bracket) : Lexeme → Except Fault (Option Skip)
  | .opening b => .ok (some (.first b around))
  | .literal (.ok _) | .number (.ok _) => .ok (complete around)
  | .literal (.error e) => .error e
  | .string s => match s.fault with
    | none => .ok (complete around)
    | some e => .error e
  | .number (.error _) | .closing _ | .comma | .colon | .stray => .error .malformed

def stepKey (around : List Bracket) : Lexeme → Except Fault (Option Skip)
  | .string s => match s.fault with
    | none => .ok (some (.colon around))
    | some e => .error e
  | _ => .error .malformed

/-- Takes one lexeme; `none` when the value ends with it. -/
def step : Skip → Lexeme → Except Fault (Option Skip)
  | .value around, l => stepValue around l
  | .first .array around, .closing .array => .ok (complete around)
  | .first .array around, l => stepValue (.array :: around) l
  | .first .object around, .closing .object => .ok (complete around)
  | .first .object around, l => stepKey around l
  | .key around, l => stepKey around l
  | .colon around, .colon => .ok (some (.value (.object :: around)))
  | .more .array around, .comma => .ok (some (.value (.array :: around)))
  | .more .object around, .comma => .ok (some (.key around))
  | .more .array around, .closing .array => .ok (complete around)
  | .more .object around, .closing .object => .ok (complete around)
  | .colon _, _ | .more _ _, _ => .error .malformed

end Skip

end FeatureQuery.Json
