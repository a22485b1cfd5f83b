import FeatureQuery.Text.Blank
import FeatureQuery.Token
import FeatureQuery.Token.Body

/-!
# Cutting a text into tokens

Every text has tokens: what cannot be a parenthesis or a keyword is a feature, and only blanks and
colons in front of a token belong to none. A feature takes everything up to the `)` that encloses
it, so a keyword is seen only where a feature cannot start.
-/

namespace FeatureQuery

namespace Token

/-- Characters that belong to no token when they stand in front of one. -/
def isGap (c : Char) : Bool := Text.isBlank c || c = ':'

def isSeparator (c : Char) : Bool := c = ':' || c = '(' || c = ')'

/-- Characters that may not touch a keyword. -/
def isWordChar (c : Char) : Bool := c.isAlphanum || c = '_'

def keywords : List (Text × Token.Kind) :=
  [("not".toList, .not), ("and".toList, .and), ("or".toList, .or)]

/-- The keyword at the front of a text, with its length, given the character `before` it. -/
def keyword? (before : Option Char) (t : Text) : Option (Token.Kind × Nat) :=
  if before.any isWordChar then none
  else keywords.findSome? fun (word, kind) =>
    match Text.dropStart? word t with
    | some after => if after.head?.any isWordChar then none else some (kind, word.length)
    | none => none

/-- A body without the parenthesis that ends a call. -/
def dropCloser (body : Text) : Text :=
  if body.getLast? = some ')' then body.dropLast else body

/-- The feature at the front of a text, with its length. A call has one parenthesis open when its
body starts. -/
def feature (t : Text) : Feature × Nat :=
  let name := t.takeWhile (!isSeparator ·)
  match t.dropWhile (!isSeparator ·) with
  | ':' :: rest =>
    let extent := Body.scan 0 0 rest
    let body := rest.take extent.length
    (⟨if extent.terminated then .declaration else .invalid, false, name, Text.trim body⟩,
      name.length + 1 + extent.length)
  | '(' :: rest =>
    let extent := Body.scan 1 0 rest
    let body := rest.take extent.length
    (⟨if extent.terminated then .function else .invalid, true, name,
        Text.trim (dropCloser body)⟩,
      name.length + 1 + extent.length)
  | _ => (.bare name, name.length)

/-- What stands at the front of a text that starts with no gap. -/
def lexeme (before : Option Char) (t : Text) : Token.Kind × Nat :=
  match t.head? with
  | some '(' => (.lparen, 1)
  | some ')' => (.rparen, 1)
  | _ =>
    match keyword? before t with
    | some found => found
    | none => let (f, n) := feature t; (.feature f, n)

theorem keyword?_length_pos {before : Option Char} {t : Text} {found : Token.Kind × Nat}
    (h : keyword? before t = some found) : 0 < found.2 := by
  unfold keyword? at h
  split at h
  · cases h
  · obtain ⟨⟨word, kind⟩, listed, h⟩ := List.exists_of_findSome?_eq_some h
    have : 0 < word.length := by
      simp only [keywords, List.mem_cons, List.not_mem_nil, or_false, Prod.mk.injEq] at listed
      rcases listed with ⟨rfl, _⟩ | ⟨rfl, _⟩ | ⟨rfl, _⟩ <;> decide
    simp only at h
    split at h
    · split at h <;> cases h
      exact this
    · cases h

theorem feature_length_pos {c : Char} {t : Text} (h : isSeparator c = false) :
    0 < (feature (c :: t)).2 := by
  unfold feature
  simp only [List.takeWhile_cons, h, Bool.not_false, if_true]
  split <;> simp only [List.length_cons, Nat.zero_lt_succ] <;> omega

theorem lexeme_length_pos {before : Option Char} {c : Char} {t : Text} (h : isGap c = false) :
    0 < (lexeme before (c :: t)).2 := by
  unfold lexeme
  split
  · decide
  · decide
  · rename_i notOpening notClosing
    split
    · exact keyword?_length_pos ‹_›
    · refine feature_length_pos ?_
      simp_all [isGap, isSeparator]

end Token

/-- A place in a text that is being cut. -/
structure Cursor where
  before : Option Char
  rest : Text
  offset : Nat
  deriving DecidableEq, Repr

namespace Cursor

def start (t : Text) : Cursor := ⟨none, t, 0⟩

def forward (n : Nat) (c : Cursor) : Cursor :=
  ⟨(c.rest.take n).getLast?.or c.before, c.rest.drop n, c.offset + Text.width (c.rest.take n)⟩

@[simp] theorem rest_forward (n : Nat) (c : Cursor) : (c.forward n).rest = c.rest.drop n := rfl

def skipGap (c : Cursor) : Cursor := c.forward (c.rest.takeWhile Token.isGap).length

/-- The token that starts at a place, and the place after it. -/
def cut (c : Cursor) : Token × Cursor :=
  let found := Token.lexeme c.before c.rest
  let after := c.forward found.2
  (⟨found.1, c.rest.take found.2, ⟨c.offset, after.offset⟩⟩, after)

def next? (c : Cursor) : Option (Token × Cursor) :=
  if c.skipGap.rest.isEmpty then none else some c.skipGap.cut

theorem rest_skipGap (c : Cursor) : c.skipGap.rest = c.rest.dropWhile Token.isGap := by
  have whole := List.takeWhile_append_dropWhile (p := Token.isGap) (l := c.rest)
  rw [skipGap, rest_forward]
  conv => lhs; rw [← whole]
  exact List.drop_left' (by rw [whole])

theorem length_rest_next? {c after : Cursor} {token : Token} (h : c.next? = some (token, after)) :
    after.rest.length < c.rest.length := by
  have shorter : c.skipGap.rest.length ≤ c.rest.length := by simp [skipGap]
  have head := List.head?_dropWhile_not Token.isGap c.rest
  rw [← rest_skipGap] at head
  rw [next?] at h
  match rest : c.skipGap.rest with
  | [] => simp [rest] at h
  | first :: others =>
    simp only [rest, List.head?_cons] at head
    have pos := @Token.lexeme_length_pos c.skipGap.before first others head
    simp only [rest, List.isEmpty_cons, Bool.false_eq_true, if_false, cut] at h
    cases h
    simp only [rest_forward, rest, List.length_drop, List.length_cons] at shorter ⊢
    omega

def tokens (c : Cursor) : List Token :=
  match _h : c.next? with
  | none => []
  | some (token, after) => token :: after.tokens
termination_by c.rest.length
decreasing_by exact length_rest_next? _h

end Cursor

def tokenize (t : Text) : List Token := (Cursor.start t).tokens

end FeatureQuery
