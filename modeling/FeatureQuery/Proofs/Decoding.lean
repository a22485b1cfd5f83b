import FeatureQuery.Condition.Document
import FeatureQuery.Proofs.Written

/-!
# Reading a condition back

From the JSON text of a condition the condition is read back: the text is cut into lexemes, the
lexemes make a value again, and the value says of itself which condition it was. A tag alone does
not tell a leaf from a level; the node beside it does.
-/

namespace FeatureQuery

namespace Json

/-- What is open around a value. -/
inductive Frame where
  /-- An array, with the items in front of the value. -/
  | array (items : List Value)
  /-- A record of this type, which the value is the node of. -/
  | node (type : Text)

namespace Escaped

/-- A string with this text. -/
def isText (t : Text) (s : Escaped) : Bool :=
  match s.text with
  | .ok u => u = t
  | .error _ => false

@[simp] theorem isText_ofText (t : Text) : (ofText t).isText t = true := by
  simp [isText, text_ofText]

end Escaped

namespace Value

mutual

/-- Reads a value, and what follows it. -/
def read (around : List Frame) : List Lexeme → Option Value
  | .string s :: ls =>
    match s.text with
    | .ok t => goOn (.string t) around ls
    | .error _ => none
  | .opening .array :: .closing .array :: ls => goOn (.array []) around ls
  | .opening .array :: ls => read (.array [] :: around) ls
  | .opening .object :: .string first :: .colon :: .string s :: .comma :: .string second ::
      .colon :: ls =>
    if first.isText "type".toList ∧ second.isText "node".toList then
      match s.text with
      | .ok type => read (.node type :: around) ls
      | .error _ => none
    else none
  | _ => none

/-- Goes on behind a value, with what is open around it. -/
def goOn (v : Value) (around : List Frame) : List Lexeme → Option Value
  | [] => if around.isEmpty then some v else none
  | l :: ls =>
    match around, l with
    | .array items :: around, .comma => read (.array (items ++ [v]) :: around) ls
    | .array items :: around, .closing .array => goOn (.array (items ++ [v])) around ls
    | .node type :: around, .closing .object => goOn (.record type v) around ls
    | _, _ => none

end

def parse (t : Text) : Option Value := read [] (Json.lexemes t)

theorem exists_lexemes_cons (v : Value) :
    ∃ l ls, v.lexemes = l :: ls ∧ l ≠ .closing .array := by
  unfold lexemes
  split <;> exact ⟨_, _, rfl, Lexeme.noConfusion⟩

theorem read_opening {ls : List Lexeme} (item : ls.head? ≠ some (.closing .array))
    (around : List Frame) : read around (.opening .array :: ls) = read (.array [] :: around) ls := by
  apply read.eq_3
  rintro more rfl
  exact item rfl

theorem read_node (around : List Frame) (type : Text) (ls : List Lexeme) :
    read around (.opening .object :: memberLexemes "type" ++ .string (.ofText type) :: .comma ::
      memberLexemes "node" ++ ls) = read (.node type :: around) ls := by
  simp [memberLexemes, read, Escaped.text_ofText]

-- A value by its constructors, together with the items of an array: what follows the lexemes, and
-- what is open around them, stays general.
mutual

theorem read_lexemes (around : List Frame) (ls : List Lexeme) :
    (v : Value) → read around (v.lexemes ++ ls) = goOn v around ls
  | .string t => by
    simp [lexemes, read, Escaped.text_ofText]
  | .array [] => by
    simp [lexemes, read]
  | .array (v :: vs) => by
    -- An array with an item does not look empty.
    obtain ⟨l, more, split, item⟩ := exists_lexemes_cons v
    rw [lexemes, List.cons_append, List.cons_append, List.append_assoc, read_opening,
      read_lexemes _ _ v, goOn_lexemesRest]
    · rfl
    · simpa [split] using item
  | .record type node => by
    rw [lexemes, List.append_assoc, List.append_assoc, read_node, read_lexemes _ _ node]
    rfl

theorem goOn_lexemesRest (around : List Frame) (ls : List Lexeme) (items : List Value) (v : Value) :
    (vs : List Value) → goOn v (.array items :: around) (lexemesRest vs ++ ls) =
      goOn (.array (items ++ v :: vs)) around ls
  | [] => rfl
  | next :: vs => by
    have comma : goOn v (.array items :: around) (lexemesRest (next :: vs) ++ ls) =
        read (.array (items ++ [v]) :: around) (next.lexemes ++ (lexemesRest vs ++ ls)) := by
      rw [lexemesRest, List.cons_append, List.cons_append, List.append_assoc, goOn]
    rw [comma, read_lexemes _ _ next, goOn_lexemesRest _ _ _ next vs, List.append_assoc]
    rfl

end

/-- A written value is read back. -/
theorem parse_compact (v : Value) : parse v.compact = some v := by
  have cut := lexemes_compact [] v
  rw [List.append_nil] at cut
  rw [parse, cut, read_lexemes, Json.lexemes]
  rfl

end Value

end Json

def Feature.Kind.ofTag? (tag : Text) : Option Feature.Kind :=
  [.declaration, .function, .invalid].find? (·.tag = tag)

def Junction.ofTag? (tag : Text) : Option Junction :=
  [.all, .any, .mixed].find? (·.tag = tag)

namespace Condition

open Json (Value)

mutual

/-- The condition that a value was made from. A leaf has a text, a level has an array. -/
def ofDocument? : Value → Option Condition
  | .record type (.string key) => (Feature.Kind.ofTag? type).map (.feature · key)
  | .record type (.array items) => do
    let j ← Junction.ofTag? type
    let cs ← ofDocuments? items
    return .group j cs
  | .record type (.record inner node) =>
    if type = "not".toList then (ofDocument? (.record inner node)).map .not else none
  | .string _ | .array _ => none

def ofDocuments? : List Value → Option (List Condition)
  | [] => some []
  | v :: vs => do
    let c ← ofDocument? v
    let cs ← ofDocuments? vs
    return c :: cs

end

theorem exists_document_eq (c : Condition) : ∃ type node, c.document = .record type node := by
  cases c with
  | feature kind key => exact ⟨_, _, rfl⟩
  | not c => exact ⟨_, _, rfl⟩
  | group j cs => exact ⟨_, _, rfl⟩

mutual

theorem ofDocument?_document : (c : Condition) → ofDocument? c.document = some c
  | .feature kind key => by
    cases kind <;> rfl
  | .not c => by
    obtain ⟨type, node, inner⟩ := exists_document_eq c
    have read := ofDocument?_document c
    rw [inner] at read
    simp [document, inner, ofDocument?, read]
  | .group j cs => by
    have tagged : Junction.ofTag? j.tag = some j := by
      cases j <;> rfl
    simp [document, ofDocument?, tagged, ofDocuments?_documents cs]

theorem ofDocuments?_documents : (cs : List Condition) → ofDocuments? (documents cs) = some cs
  | [] => rfl
  | c :: cs => by
    simp [documents, ofDocuments?, ofDocument?_document c, ofDocuments?_documents cs]

end

def decode (t : Text) : Option Condition := (Value.parse t).bind ofDocument?

/-- The compact text of a condition says which condition it is of: it is read back as that one, and
no other has the same. -/
theorem decode_compact (c : Condition) :
    decode c.compact = some c ∧ ∀ d : Condition, d.compact = c.compact ↔ d = c := by
  have readBack : ∀ c : Condition, decode c.compact = some c := by
    intro c
    rw [decode, compact, Value.parse_compact]
    exact ofDocument?_document c
  refine ⟨readBack c, ?_⟩
  intro d
  constructor
  · intro same
    have equal : some d = some c := by rw [← readBack d, same, readBack c]
    exact Option.some.inj equal
  · rintro rfl
    rfl

/-- A leaf and a level may share their tag, and the key may look like the level. -/
example : compact (.feature .invalid "[]".toList) ≠ compact (.group .mixed []) := by decide

end Condition

end FeatureQuery
