import FeatureQuery.Config
import FeatureQuery.Json.Skip

/-!
# Reading settings

Settings are an object, in which members may be missing and unknown ones are passed over, or an
array of the values in order, which may stop early. A known member may not occur twice.
-/

namespace FeatureQuery

open Json

namespace Config

inductive Field where
  | silent
  | historyFile
  deriving DecidableEq, Repr

def Field.ofName? (name : Text) : Option Field :=
  if name = "silent".toList then some .silent
  else if name = "history_file".toList then some .historyFile
  else none

/-- What is due. -/
inductive Stage where
  | start
  /-- A key, or the end of an object with no member. -/
  | firstKey
  | key
  | colon (f : Option Field)
  | value (f : Field) (inside : Bracket)
  /-- The rest of an unknown member. -/
  | unknown (s : Skip)
  /-- The silent flag, or the end of an array with no item. -/
  | firstItem
  /-- A comma, or the end. -/
  | member
  | item (last : Field)
  | done
  deriving DecidableEq, Repr

structure Draft where
  stage : Stage
  silent : Option Bool
  historyFile : Option (Option Text)
  deriving DecidableEq, Repr

/-- What is wrong with a lexeme in place of a value of another type. -/
def misfit : Lexeme → Fault
  | .literal (.error e) | .number (.error e) => e
  | .literal (.ok _) | .opening _ => .unfit
  | .number (.ok n) => if n.finite then .unfit else .malformed
  | .string s => match s.text with
    | .ok _ => .unfit
    | .error e => e
  | .closing _ | .comma | .colon | .stray => .malformed

namespace Draft

def start : Draft := ⟨.start, none, none⟩

def await (stage : Stage) (d : Draft) : Draft := { d with stage }

/-- The settings, with the defaults for what is missing. -/
def config (d : Draft) : Config :=
  ⟨d.silent.getD default.silent, d.historyFile.getD default.historyFile⟩

def known (d : Draft) : Field → Bool
  | .silent => d.silent.isSome
  | .historyFile => d.historyFile.isSome

def set (f : Field) (l : Lexeme) (d : Draft) : Except Fault Draft :=
  match f, l with
  | .silent, .literal (.ok (.bool b)) => .ok { d with silent := some b }
  | .historyFile, .literal (.ok .null) => .ok { d with historyFile := some none }
  | .historyFile, .string s => s.text.map fun t => { d with historyFile := some (some t) }
  | _, l => .error (misfit l)

def readKey (l : Lexeme) (d : Draft) : Except Fault Draft :=
  match l with
  | .string s =>
    match s.text with
    | .error e => .error e
    | .ok name =>
      let field := Field.ofName? name
      if field.any d.known then .error .unfit else .ok (d.await (.colon field))
  | _ => .error .malformed

def step (d : Draft) (l : Lexeme) : Except Fault Draft :=
  match d.stage, l with
  | .start, .opening .object => .ok (d.await .firstKey)
  | .start, .opening .array => .ok (d.await .firstItem)
  | .start, l => .error (misfit l)
  | .firstKey, .closing .object => .ok (d.await .done)
  | .firstKey, l | .key, l => d.readKey l
  | .colon (some f), .colon => .ok (d.await (.value f .object))
  | .colon none, .colon => .ok (d.await (.unknown (.value [])))
  | .value f .object, l => (d.set f l).map (·.await .member)
  | .value f .array, l => (d.set f l).map (·.await (.item f))
  | .unknown s, l => (s.step l).map fun
    | some s => d.await (.unknown s)
    | none => d.await .member
  | .member, .comma => .ok (d.await .key)
  | .member, .closing .object => .ok (d.await .done)
  | .firstItem, .closing .array => .ok (d.await .done)
  | .firstItem, l => (d.set .silent l).map (·.await (.item .silent))
  | .item .silent, .comma => .ok (d.await (.value .historyFile .array))
  | .item _, .closing .array => .ok (d.await .done)
  | .colon _, _ | .member, _ | .item _, _ | .done, _ => .error .malformed

def run (d : Draft) : List Lexeme → Except Fault Config
  | [] => if d.stage = .done then .ok d.config else .error .truncated
  | l :: ls =>
    match d.step l with
    | .ok d => d.run ls
    | .error e => .error e

end Draft

def parse (t : Text) : Except Fault Config := Draft.start.run (lexemes t)

end Config

end FeatureQuery
