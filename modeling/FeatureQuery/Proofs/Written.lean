import FeatureQuery.Json.Lexeme
import FeatureQuery.Json.Value

/-!
# Lexemes of a written value

A written value is cut into the lexemes it was put together from. What follows it does not matter:
a string is over with its closing quote, and all other lexemes are single characters.
-/

namespace FeatureQuery.Json

/-- What a written character is read as: a control without a letter of its own is written as a
unit. -/
def Piece.ofChar (c : Char) : Piece :=
  if c.toNat < 0x20 ∧ c ∉ ['\x08', '\t', '\n', '\x0c', '\r'] then .unit c.toNat else .char c

namespace Escaped

/-- What a written text is read as. -/
def ofText (t : Text) : Escaped := ⟨t.map .ofChar, none⟩

theorem unit?_digitChar {n : Nat} (control : n < 0x20) :
    unit? '0' '0' (Nat.digitChar (n / 16)) (Nat.digitChar (n % 16)) = some n := by
  have all : ∀ n < 0x20,
      unit? '0' '0' (Nat.digitChar (n / 16)) (Nat.digitChar (n % 16)) = some n := by decide
  exact all n control

theorem scan_closing (rest : Text) : scan ('"' :: rest) = (⟨[], none⟩, rest) := by
  rw [scan.eq_def]
  rfl

theorem scan_char {c : Char} (quote : c ≠ '"') (backslash : c ≠ '\\') (control : ¬c.toNat < 0x20)
    (rest : Text) : scan (c :: rest) = cons (.char c) (scan rest) := by
  rw [scan.eq_def]
  simp only [if_neg quote, if_neg backslash, if_neg control]

theorem scan_escape (c : Char) (rest : Text) :
    scan (escape c ++ rest) = cons (.ofChar c) (scan rest) := by
  unfold escape
  split
  -- The characters with a letter of their own are closed cases; this is for all others.
  case h_8 =>
    rename_i quote backslash backspace formFeed lineFeed carriageReturn tab
    by_cases control : c.toNat < 0x20
    · have digits := unit?_digitChar control
      have piece : Piece.ofChar c = .unit c.toNat := by simp_all [Piece.ofChar]
      rw [if_pos control, piece]
      simp [scan, digits]
    · have piece : Piece.ofChar c = .char c := by simp [Piece.ofChar, control]
      rw [if_neg control, piece]
      exact scan_char quote backslash control rest
  all_goals rfl

theorem scan_written (t rest : Text) :
    scan (t.flatMap escape ++ '"' :: rest) = (ofText t, rest) := by
  induction t with
  | nil => exact scan_closing rest
  | cons c t ih =>
    rw [List.flatMap_cons, List.append_assoc, scan_escape, ih]
    rfl

theorem decode_ofChar (c : Char) (fault : Option Fault) (pieces : List Piece) :
    decode fault (.ofChar c :: pieces) = (decode fault pieces).map (c :: ·) := by
  unfold Piece.ofChar
  split
  · rename_i control
    have noTrailing : isTrailing c.toNat = false := by
      simp only [isTrailing, Bool.and_eq_false_iff, decide_eq_false_iff_not]
      omega
    have noLeading : isLeading c.toNat = false := by
      simp only [isLeading, Bool.and_eq_false_iff, decide_eq_false_iff_not]
      omega
    rw [decode.eq_def]
    simp [noTrailing, noLeading]
  · rw [decode]

/-- A written text is read back. -/
theorem text_ofText (t : Text) : (ofText t).text = .ok t := by
  rw [text, ofText]
  induction t with
  | nil => rfl
  | cons c t ih =>
    rw [List.map_cons, decode_ofChar, ih]
    rfl

end Escaped

theorem lexemes_quoted (t rest : Text) :
    lexemes (quoted t ++ rest) = .string (.ofText t) :: lexemes rest := by
  have scanned : Lexeme.scan '"' (t.flatMap escape ++ '"' :: rest) = (.string (.ofText t), rest) := by
    show (Lexeme.string _, _) = _
    rw [Escaped.scan_written]
  have split : quoted t ++ rest = '"' :: (t.flatMap escape ++ '"' :: rest) := by simp [quoted]
  rw [split, lexemes, scanned]
  rfl

theorem lexemes_punctuation {c : Char} {l : Lexeme} (found : Lexeme.punctuation? c = some l)
    (solid : Lexeme.isSpace c = false) (rest : Text) : lexemes (c :: rest) = l :: lexemes rest := by
  have scanned : Lexeme.scan c rest = (l, rest) := by rw [Lexeme.scan, found]
  rw [lexemes, scanned, solid]
  rfl

namespace Value

def memberLexemes (name : String) : List Lexeme := [.string (.ofText name.toList), .colon]

mutual

/-- The lexemes that a value is written with. -/
def lexemes : Value → List Lexeme
  | .string t => [.string (.ofText t)]
  | .array [] => [.opening .array, .closing .array]
  | .array (v :: vs) => .opening .array :: lexemes v ++ lexemesRest vs
  | .record type node =>
    .opening .object :: memberLexemes "type" ++ .string (.ofText type) :: .comma ::
      memberLexemes "node" ++ lexemes node ++ [.closing .object]

/-- The lexemes of the items after the first, and of the closing bracket. -/
def lexemesRest : List Value → List Lexeme
  | [] => [.closing .array]
  | v :: vs => .comma :: lexemes v ++ lexemesRest vs

end

theorem lexemes_member (name : String) (rest : Text) :
    Json.lexemes (member name ++ rest) = memberLexemes name ++ Json.lexemes rest := by
  rw [member, List.append_assoc, lexemes_quoted, List.singleton_append,
    lexemes_punctuation rfl rfl]
  rfl

mutual

theorem lexemes_compact (rest : Text) :
    (v : Value) → Json.lexemes (v.compact ++ rest) = v.lexemes ++ Json.lexemes rest
  | .string t => by
    rw [compact, lexemes_quoted]
    rfl
  | .array [] => by
    rw [compact, List.cons_append, lexemes_punctuation rfl rfl, List.singleton_append,
      lexemes_punctuation rfl rfl]
    rfl
  | .array (v :: vs) => by
    rw [compact, List.cons_append, List.cons_append, lexemes_punctuation rfl rfl, List.append_assoc,
      lexemes_compact _ v, lexemes_compactRest rest vs, lexemes]
    simp
  | .record type node => by
    have closed := lexemes_punctuation (c := '\x7d') (l := .closing .object) rfl rfl rest
    simp only [compact, lexemes, List.cons_append, List.append_assoc, List.nil_append]
    rw [lexemes_punctuation rfl rfl, lexemes_member, lexemes_quoted, lexemes_punctuation rfl rfl,
      lexemes_member, lexemes_compact _ node, closed]

theorem lexemes_compactRest (rest : Text) :
    (vs : List Value) → Json.lexemes (compactRest vs ++ rest) = lexemesRest vs ++ Json.lexemes rest
  | [] => lexemes_punctuation rfl rfl rest
  | v :: vs => by
    rw [compactRest, List.cons_append, List.cons_append, lexemes_punctuation rfl rfl,
      List.append_assoc, lexemes_compact _ v, lexemes_compactRest rest vs, lexemesRest]
    simp

end

end Value

end FeatureQuery.Json
