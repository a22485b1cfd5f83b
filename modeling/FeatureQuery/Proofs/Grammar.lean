import FeatureQuery.Proofs.Lexeme
import FeatureQuery.Proofs.Written
import Mathlib.Data.List.Chain
import Mathlib.Data.List.TakeWhile

/-!
# JSON by its grammar

Which texts are JSON can be said without a reader. A value is a row of tokens, and a text of it has
spaces between them as it likes. The lexer cuts such a text into just these tokens: a word or a
number, which alone could go on, has only spaces and marks behind it.
-/

namespace FeatureQuery.Json

namespace Grammar

/-- The letters behind a backslash, and what they stand for. -/
def escapes : List (Char × Char) :=
  [('"', '"'), ('\\', '\\'), ('/', '/'), ('b', '\x08'), ('f', '\x0c'), ('n', '\n'), ('r', '\r'),
    ('t', '\t')]

/-- The hexadecimal digits of both cases, and their values. -/
def hexDigits : List (Char × Nat) :=
  "0123456789abcdef".toList.zipIdx ++ "0123456789ABCDEF".toList.zipIdx

/-- What may stand between the quotes of a string, and the pieces that it writes. -/
inductive Writes : List Piece → Text → Prop
  | nil : Writes [] []
  | char {c pieces body} : c ≠ '"' → c ≠ '\\' → 0x20 ≤ c.toNat → Writes pieces body →
      Writes (.char c :: pieces) (c :: body)
  | escape {e c pieces body} : (e, c) ∈ escapes → Writes pieces body →
      Writes (.char c :: pieces) ('\\' :: e :: body)
  | unit {a b c d i j k l pieces body} : (a, i) ∈ hexDigits → (b, j) ∈ hexDigits →
      (c, k) ∈ hexDigits → (d, l) ∈ hexDigits → Writes pieces body →
      Writes (.unit (((i * 16 + j) * 16 + k) * 16 + l) :: pieces)
        ('\\' :: 'u' :: a :: b :: c :: d :: body)

/-- The text of some pieces: a unit is a character, or one half of a pair that makes one. -/
inductive Denotes : List Piece → Text → Prop
  | nil : Denotes [] []
  | char {c pieces name} : Denotes pieces name → Denotes (.char c :: pieces) (c :: name)
  | unit {n pieces name} : n < 0xD800 ∨ 0xDFFF < n → Denotes pieces name →
      Denotes (.unit n :: pieces) (.ofNat n :: name)
  | pair {high low pieces name} : 0xD800 ≤ high → high ≤ 0xDBFF → 0xDC00 ≤ low → low ≤ 0xDFFF →
      Denotes pieces name → Denotes (.unit high :: .unit low :: pieces)
        (.ofNat (0x10000 + (high - 0xD800) * 0x400 + (low - 0xDC00)) :: name)

def quote (body : Text) : Text := '"' :: body ++ ['"']

def IsString (token : Text) : Prop := ∃ pieces body, Writes pieces body ∧ token = quote body

/-- The token is a string with this text. -/
def Spells (token name : Text) : Prop :=
  ∃ pieces body, Writes pieces body ∧ Denotes pieces name ∧ token = quote body

def IsDigits (t : Text) : Prop := t ≠ [] ∧ ∀ c ∈ t, c.isDigit = true

/-- A zero in front stands alone. -/
def IsWhole (t : Text) : Prop := t = ['0'] ∨ IsDigits t ∧ t.head? ≠ some '0'

def IsFraction (t : Text) : Prop := t = [] ∨ ∃ digits, IsDigits digits ∧ t = '.' :: digits

def IsExponent (t : Text) : Prop :=
  t = [] ∨ ∃ e sign digits, (e = 'e' ∨ e = 'E') ∧ (sign = [] ∨ sign = ['+'] ∨ sign = ['-']) ∧
    IsDigits digits ∧ t = e :: (sign ++ digits)

def IsNumber (token : Text) : Prop :=
  ∃ sign whole fraction exponent, (sign = [] ∨ sign = ['-']) ∧ IsWhole whole ∧
    IsFraction fraction ∧ IsExponent exponent ∧ token = sign ++ whole ++ fraction ++ exponent

def IsWord (token : Text) : Prop :=
  token = "null".toList ∨ token = "true".toList ∨ token = "false".toList

/-- Rows of tokens with commas between them. -/
def separated : List (List Text) → List Text
  | [] => []
  | part :: parts => part ++ parts.flatMap ([','] :: ·)

structure Member where
  key : Text
  value : List Text
  deriving DecidableEq

def Member.tokens (m : Member) : List Text := m.key :: [':'] :: m.value

def arrayTokens (items : List (List Text)) : List Text := ['['] :: (separated items ++ [[']']])

def objectTokens (members : List Member) : List Text :=
  ['\x7b'] :: (separated (members.map Member.tokens) ++ [['\x7d']])

/-- The tokens are a value, which may hold others to any depth. -/
inductive IsValue : List Text → Prop
  | word {token} : IsWord token → IsValue [token]
  | number {token} : IsNumber token → IsValue [token]
  | string {token} : IsString token → IsValue [token]
  | array {items} : (∀ item ∈ items, IsValue item) → IsValue (arrayTokens items)
  | object {members} : (∀ m ∈ members, IsString m.key) → (∀ m ∈ members, IsValue m.value) →
      IsValue (objectTokens members)

def spaces : List Char := [' ', '\t', '\n', '\r']

/-- The text has these tokens, and spaces around them as it likes. -/
inductive Spaced : List Text → Text → Prop
  | nil {gap} : (∀ c ∈ gap, c ∈ spaces) → Spaced [] gap
  | cons {gap token tokens t} : (∀ c ∈ gap, c ∈ spaces) → Spaced tokens t →
      Spaced (token :: tokens) (gap ++ token ++ t)

def Member.IsMember (m : Member) : Prop := IsString m.key ∧ IsValue m.value

/-- The text is an object with these members. -/
def IsObject (members : List Member) (t : Text) : Prop :=
  (∀ m ∈ members, m.IsMember) ∧ Spaced (objectTokens members) t

theorem Writes.append {first later : List Piece} {front back : Text} (start : Writes first front)
    (rest : Writes later back) : Writes (first ++ later) (front ++ back) := by
  induction start with
  | nil => exact rest
  | char quote backslash solid _ ih => exact .char quote backslash solid ih
  | escape listed _ ih => exact .escape listed ih
  | unit a b c d _ ih => exact .unit a b c d ih

/-- A text of plain characters is written as it stands. -/
theorem writes_plain {t : Text}
    (plain : t.all (fun c => c ≠ '"' ∧ c ≠ '\\' ∧ 0x20 ≤ c.toNat) = true) :
    Writes (t.map .char) t := by
  induction t with
  | nil => exact .nil
  | cons c t ih =>
    obtain ⟨first, later⟩ := Bool.and_eq_true_iff.mp (List.all_cons.symm.trans plain)
    obtain ⟨quote, backslash, solid⟩ := of_decide_eq_true first
    exact .char quote backslash solid (ih later)

theorem denotes_append (t : Text) {pieces : List Piece} {name : Text}
    (denoted : Denotes pieces name) : Denotes (t.map .char ++ pieces) (t ++ name) := by
  induction t with
  | nil => exact denoted
  | cons c t ih => exact .char ih

/-- Takes the tokens off the text, with the spaces in front of them. -/
def isSpaced : List Text → Text → Bool
  | [], t => t.all (· ∈ spaces)
  | token :: tokens, t =>
    (Text.dropStart? token (t.dropWhile (· ∈ spaces))).any (isSpaced tokens)

theorem spaced_of_isSpaced {tokens : List Text} {t : Text} (taken : isSpaced tokens t = true) :
    Spaced tokens t := by
  induction tokens generalizing t with
  | nil =>
    apply Spaced.nil
    simpa [isSpaced] using taken
  | cons token tokens ih =>
    obtain ⟨rest, found, left⟩ := (Option.any_eq_true _ _).mp taken
    have behind := Text.dropStart?_eq_some_iff.mp found
    have whole : t = t.takeWhile (· ∈ spaces) ++ token ++ rest := by
      rw [List.append_assoc, ← behind, List.takeWhile_append_dropWhile]
    rw [whole]
    refine .cons ?_ (ih left)
    intro c mem
    simpa using List.mem_takeWhile_imp mem

theorem Spells.isString {token name : Text} (spelled : Spells token name) : IsString token := by
  obtain ⟨pieces, body, written, -, split⟩ := spelled
  exact ⟨pieces, body, written, split⟩

end Grammar

open Grammar

namespace Escaped

theorem scan_simple {e c : Char} (listed : (e, c) ∈ escapes) (rest : Text) :
    scan ('\\' :: e :: rest) = cons (.char c) (scan rest) := by
  have known : ∀ p ∈ escapes, p.1 ≠ 'u' ∧ simple? p.1 = some p.2 := by decide
  obtain ⟨letter, found⟩ := known (e, c) listed
  rw [scan.eq_def]
  simp_all

theorem hexDigit?_of_mem {c : Char} {n : Nat} (listed : (c, n) ∈ hexDigits) :
    hexDigit? c = some n := by
  have known : ∀ p ∈ hexDigits, hexDigit? p.1 = some p.2 := by decide
  exact known (c, n) listed

theorem unit?_of_mem {a b c d : Char} {i j k l : Nat} (first : (a, i) ∈ hexDigits)
    (second : (b, j) ∈ hexDigits) (third : (c, k) ∈ hexDigits) (fourth : (d, l) ∈ hexDigits) :
    unit? a b c d = some (((i * 16 + j) * 16 + k) * 16 + l) := by
  simp [unit?, hexDigit?_of_mem first, hexDigit?_of_mem second, hexDigit?_of_mem third,
    hexDigit?_of_mem fourth]

theorem scan_unit {a b c d : Char} {n : Nat} (found : unit? a b c d = some n) (rest : Text) :
    scan ('\\' :: 'u' :: a :: b :: c :: d :: rest) = cons (.unit n) (scan rest) := by
  rw [scan.eq_def]
  simp [found]

theorem scan_writes {pieces : List Piece} {body : Text} (written : Writes pieces body)
    (rest : Text) : scan (body ++ '"' :: rest) = (⟨pieces, none⟩, rest) := by
  induction written with
  | nil => exact scan_closing rest
  | char quote backslash solid _ ih =>
    rw [List.cons_append, scan_char quote backslash (Nat.not_lt.mpr solid), ih]
    rfl
  | escape found _ ih =>
    rw [List.cons_append, List.cons_append, scan_simple found, ih]
    rfl
  | unit first second third fourth _ ih =>
    have found := unit?_of_mem first second third fourth
    simp only [List.cons_append]
    rw [scan_unit found, ih]
    rfl

theorem isLeading_iff {n : Nat} : isLeading n = true ↔ 0xD800 ≤ n ∧ n ≤ 0xDBFF := by
  simp [isLeading]

theorem isTrailing_iff {n : Nat} : isTrailing n = true ↔ 0xDC00 ≤ n ∧ n ≤ 0xDFFF := by
  simp [isTrailing]

theorem decode_denotes {pieces : List Piece} {name : Text} (denoted : Denotes pieces name) :
    decode none pieces = .ok name := by
  induction denoted with
  | nil => rfl
  | char _ ih =>
    rw [decode, ih]
    rfl
  | @unit n _ _ whole _ ih =>
    have leading : isLeading n = false := by
      rw [Bool.eq_false_iff, ne_eq, isLeading_iff]
      omega
    have trailing : isTrailing n = false := by
      rw [Bool.eq_false_iff, ne_eq, isTrailing_iff]
      omega
    rw [decode.eq_def]
    simp [leading, trailing, ih, Except.map]
  | @pair high low _ _ from_high to_high from_low to_low _ ih =>
    have half : isTrailing high = false := by
      rw [Bool.eq_false_iff, ne_eq, isTrailing_iff]
      omega
    have leading := isLeading_iff.mpr ⟨from_high, to_high⟩
    have trailing := isTrailing_iff.mpr ⟨from_low, to_low⟩
    rw [decode]
    simp [half, leading, trailing, ih, Except.map, pair]

end Escaped

section

variable {token digits whole fraction exponent rest : Text} {c : Char} {l : Lexeme}

/-- The tokens that are over at once: brackets, commas and colons. -/
def marks : List Char := ['\x7b', '\x7d', '[', ']', ',', ':']

def IsMark (token : Text) : Prop := ∃ c ∈ marks, token = [c]

/-- No word and no number goes on with this. -/
def Ends (rest : Text) : Prop := ∀ c ∈ rest.head?, c ∈ spaces ∨ c ∈ marks

theorem Ends.head (ends : Ends rest) :
    ∀ c ∈ rest.head?, c.isDigit = false ∧ c ≠ '.' ∧ c ≠ 'e' ∧ c ≠ 'E' := by
  intro c first
  have known : (spaces ++ marks).all
      (fun c => c.isDigit = false ∧ c ≠ '.' ∧ c ≠ 'e' ∧ c ≠ 'E') = true := by decide
  exact of_decide_eq_true (List.all_eq_true.mp known c (List.mem_append.mpr (ends c first)))

namespace Number

theorem digits_append (row : IsDigits digits) (other : ∀ c ∈ rest.head?, c.isDigit = false) :
    Number.digits (digits ++ rest) = .ok (digits, rest) := by
  have taken : (digits ++ rest).takeWhile Char.isDigit = digits := by
    rw [List.takeWhile_append_of_pos row.2]
    cases rest with
    | nil => simp
    | cons c rest => simp [other c rfl]
  have left : (digits ++ rest).dropWhile Char.isDigit = rest := by
    rw [List.dropWhile_append_of_pos row.2]
    cases rest with
    | nil => rfl
    | cons c rest => simp [other c rfl]
  simp [Number.digits, taken, left, row.1]

theorem isDigits_of_isWhole (shape : IsWhole whole) : IsDigits whole := by
  rcases shape with rfl | ⟨row, -⟩
  · exact ⟨by simp, by simp⟩
  · exact row

/-- A row of digits does not look like one with a sign. -/
theorem head?_of_isDigits (row : IsDigits digits) (rest : Text) :
    (digits ++ rest).head? ≠ some '-' ∧ (digits ++ rest).head? ≠ some '+' := by
  obtain ⟨c, digits, rfl⟩ := List.exists_cons_of_ne_nil row.1
  have digit := row.2 c List.mem_cons_self
  constructor
  · intro minus
    cases Option.some.inj minus
    cases digit
  · intro plus
    cases Option.some.inj plus
    cases digit

theorem scanWhole_append (shape : IsWhole whole) (other : ∀ c ∈ rest.head?, c.isDigit = false) :
    scanWhole (whole ++ rest) = .ok (whole, rest) := by
  rw [scanWhole, digits_append (isDigits_of_isWhole shape) other]
  rcases shape with rfl | ⟨-, first⟩
  · simp
  · simp [first]

theorem scanFraction_append (shape : IsFraction fraction)
    (other : ∀ c ∈ rest.head?, c.isDigit = false ∧ c ≠ '.') :
    scanFraction (fraction ++ rest) = .ok (fraction.drop 1, rest) := by
  rcases shape with rfl | ⟨digits, row, rfl⟩
  · rw [List.nil_append]
    unfold scanFraction
    split
    · exact absurd rfl (other '.' rfl).2
    · rfl
  · exact digits_append row fun c first => (other c first).1

theorem scanSigned_append {sign : Text} (signs : sign = [] ∨ sign = ['+'] ∨ sign = ['-'])
    (row : IsDigits digits) : ∃ n, ∀ rest : Text, (∀ c ∈ rest.head?, c.isDigit = false) →
      scanSigned (sign ++ digits ++ rest) = .ok (n, rest) := by
  rcases signs with rfl | rfl | rfl
  · refine ⟨value digits, ?_⟩
    intro rest other
    obtain ⟨minus, plus⟩ := head?_of_isDigits row rest
    simp only [scanSigned, List.nil_append, minus, plus, or_self, if_false,
      digits_append row other]
  · refine ⟨value digits, ?_⟩
    intro rest other
    simp [scanSigned, digits_append row other]
  · refine ⟨-value digits, ?_⟩
    intro rest other
    simp [scanSigned, digits_append row other]

theorem scanExponent_append (shape : IsExponent exponent) :
    ∃ n, ∀ rest : Text, (∀ c ∈ rest.head?, c.isDigit = false ∧ c ≠ 'e' ∧ c ≠ 'E') →
      scanExponent (exponent ++ rest) = .ok (n, rest) := by
  rcases shape with rfl | ⟨e, sign, digits, letter, signs, row, rfl⟩
  · refine ⟨0, ?_⟩
    intro rest other
    rw [List.nil_append]
    unfold scanExponent
    split
    · exact absurd rfl (other 'e' rfl).2.1
    · exact absurd rfl (other 'E' rfl).2.2
    · rfl
  · obtain ⟨n, scanned⟩ := scanSigned_append signs row
    refine ⟨n, ?_⟩
    intro rest other
    have later := scanned rest fun c first => (other c first).1
    rcases letter with rfl | rfl <;> exact later

theorem head?_of_isExponent (shape : IsExponent exponent)
    (other : ∀ c ∈ rest.head?, c.isDigit = false ∧ c ≠ '.') :
    ∀ c ∈ (exponent ++ rest).head?, c.isDigit = false ∧ c ≠ '.' := by
  rcases shape with rfl | ⟨e, sign, digits, letter, -, -, rfl⟩
  · exact other
  · intro c first
    cases Option.some.inj first
    rcases letter with rfl | rfl <;> decide

theorem head?_of_isFraction (shape : IsFraction fraction)
    (other : ∀ c ∈ rest.head?, c.isDigit = false) :
    ∀ c ∈ (fraction ++ rest).head?, c.isDigit = false := by
  rcases shape with rfl | ⟨digits, -, rfl⟩
  · exact other
  · intro c first
    cases Option.some.inj first
    rfl

/-- A number of any size is read up to its end. -/
theorem scan_append (shape : IsNumber token) :
    ∃ n, ∀ rest, Ends rest → Number.scan (token ++ rest) = .ok (n, rest) := by
  obtain ⟨sign, whole, fraction, exponent, signs, isWhole, isFraction, isExponent, rfl⟩ := shape
  obtain ⟨power, scannedExponent⟩ := scanExponent_append isExponent
  refine ⟨⟨whole, fraction.drop 1, power⟩, ?_⟩
  intro rest ends
  have afterFraction := head?_of_isExponent isExponent fun c first =>
    ⟨(ends.head c first).1, (ends.head c first).2.1⟩
  have afterWhole := head?_of_isFraction isFraction fun c first => (afterFraction c first).1
  have afterExponent := scannedExponent rest fun c first =>
    ⟨(ends.head c first).1, (ends.head c first).2.2⟩
  have unsigned : (if (sign ++ (whole ++ (fraction ++ (exponent ++ rest)))).head? = some '-'
      then (sign ++ (whole ++ (fraction ++ (exponent ++ rest)))).drop 1
      else sign ++ (whole ++ (fraction ++ (exponent ++ rest)))) =
      whole ++ (fraction ++ (exponent ++ rest)) := by
    rcases signs with rfl | rfl
    · rw [List.nil_append, if_neg]
      exact (head?_of_isDigits (isDigits_of_isWhole isWhole) _).1
    · simp
  simp only [List.append_assoc]
  rw [Number.scan, unsigned, scanWhole_append isWhole afterWhole]
  simp [scanFraction_append isFraction afterFraction, afterExponent, bind, Except.bind, pure,
    Except.pure]

theorem head_of_isNumber (shape : IsNumber token) :
    ∃ c t, token = c :: t ∧ (c = '-' ∨ c.isDigit = true) := by
  obtain ⟨sign, whole, fraction, exponent, signs, isWhole, -, -, rfl⟩ := shape
  rcases signs with rfl | rfl
  · have row := isDigits_of_isWhole isWhole
    obtain ⟨c, digits, rfl⟩ := List.exists_cons_of_ne_nil row.1
    exact ⟨c, _, rfl, .inr (row.2 c List.mem_cons_self)⟩
  · exact ⟨'-', _, rfl, .inl rfl⟩

end Number

theorem Lexeme.scanWord_append (word rest : Text) : scanWord word (word ++ rest) = .ok rest := by
  induction word with
  | nil => rfl
  | cons c word ih => rw [List.cons_append, scanWord, if_pos rfl, ih]

theorem lexemes_nil : lexemes [] = [] := by
  rw [lexemes]

theorem lexemes_of_scan {t : Text} (solid : Lexeme.isSpace c = false)
    (scanned : Lexeme.scan c t = (l, rest)) : lexemes (c :: t) = l :: lexemes rest := by
  rw [lexemes, solid, scanned]
  rfl

theorem lexemes_gap {gap : Text} (blank : ∀ c ∈ gap, c ∈ spaces) (rest : Text) :
    lexemes (gap ++ rest) = lexemes rest := by
  have known : spaces.all Lexeme.isSpace = true := by decide
  induction gap with
  | nil => rfl
  | cons c gap ih =>
    have space := List.all_eq_true.mp known c (blank c List.mem_cons_self)
    rw [List.cons_append, lexemes, if_pos space]
    exact ih fun d mem => blank d (List.mem_cons_of_mem c mem)

/-- What a token is read as: a mark in front of anything, the others in front of an end. -/
def Reads (token : Text) (l : Lexeme) : Prop :=
  ∀ rest, IsMark token ∨ Ends rest → lexemes (token ++ rest) = l :: lexemes rest

/-- What a token is read as by itself. -/
def lexeme (token : Text) : Lexeme := (lexemes token).headD .stray

theorem Reads.lexeme_eq (reads : Reads token l) : lexeme token = l := by
  have alone := reads [] (.inr nofun)
  rw [List.append_nil, lexemes_nil] at alone
  rw [lexeme, alone]
  rfl

theorem reads_mark (found : Lexeme.punctuation? c = some l) (solid : Lexeme.isSpace c = false) :
    Reads [c] l := by
  intro rest _
  exact lexemes_punctuation found solid rest

theorem reads_of_isMark (mark : IsMark token) : Reads token (lexeme token) := by
  have known : marks.all
      (fun c => (Lexeme.punctuation? c).isSome ∧ Lexeme.isSpace c = false) = true := by decide
  obtain ⟨c, listed, rfl⟩ := mark
  obtain ⟨found, solid⟩ := of_decide_eq_true (List.all_eq_true.mp known c listed)
  obtain ⟨l, found⟩ := Option.isSome_iff_exists.mp found
  rw [(reads_mark found solid).lexeme_eq]
  exact reads_mark found solid

theorem reads_quote {pieces : List Piece} {body : Text} (written : Writes pieces body) :
    Reads (quote body) (.string ⟨pieces, none⟩) := by
  intro rest _
  have scanned : Lexeme.scan '"' (body ++ '"' :: rest) = (.string ⟨pieces, none⟩, rest) := by
    show (Lexeme.string _, _) = _
    rw [Escaped.scan_writes written]
  have split : quote body ++ rest = '"' :: (body ++ '"' :: rest) := by simp [quote]
  rw [split]
  exact lexemes_of_scan rfl scanned

theorem reads_string (string : IsString token) :
    ∃ pieces, Reads token (.string ⟨pieces, none⟩) := by
  obtain ⟨pieces, body, written, rfl⟩ := string
  exact ⟨pieces, reads_quote written⟩

theorem reads_word (word : IsWord token) : ∃ found, Reads token (.literal (.ok found)) := by
  have known {c : Char} {word : Text} {found : Literal}
      (start : Lexeme.literal? c = some (found, word)) (solid : Lexeme.isSpace c = false)
      (unmarked : Lexeme.punctuation? c = none) : Reads (c :: word) (.literal (.ok found)) := by
    intro rest _
    have scanned : Lexeme.scan c (word ++ rest) = (.literal (.ok found), rest) := by
      simp only [Lexeme.scan, unmarked, start, Lexeme.scanWord_append]
    exact lexemes_of_scan solid scanned
  rcases word with rfl | rfl | rfl
  · exact ⟨_, known rfl rfl rfl⟩
  · exact ⟨_, known rfl rfl rfl⟩
  · exact ⟨_, known rfl rfl rfl⟩

/-- What a number starts with starts nothing else. -/
theorem Lexeme.of_numeric (numeric : c = '-' ∨ c.isDigit = true) :
    isSpace c = false ∧ punctuation? c = none ∧ literal? c = none ∧ c ≠ '"' := by
  refine ⟨?_, ?_, ?_, ?_⟩
  · by_contra space
    simp only [isSpace, Bool.not_eq_false, Bool.or_eq_true, decide_eq_true_eq] at space
    rcases space with ((rfl | rfl) | rfl) | rfl <;> exact absurd numeric (by decide)
  · unfold punctuation?
    split <;> first | rfl | exact absurd numeric (by decide)
  · unfold literal?
    split <;> first | rfl | exact absurd numeric (by decide)
  · rintro rfl
    exact absurd numeric (by decide)

theorem reads_number (number : IsNumber token) : ∃ n, Reads token (.number (.ok n)) := by
  obtain ⟨n, scanned⟩ := Number.scan_append number
  obtain ⟨c, t, rfl, numeric⟩ := Number.head_of_isNumber number
  obtain ⟨solid, unmarked, unlettered, unquoted⟩ := Lexeme.of_numeric numeric
  refine ⟨n, ?_⟩
  rintro rest (⟨d, listed, same⟩ | ends)
  · cases (List.cons.inj same).1
    have known : marks.all (fun c => ¬(c = '-' ∨ c.isDigit = true)) = true := by decide
    exact absurd numeric (of_decide_eq_true (List.all_eq_true.mp known c listed))
  · have cut : Lexeme.scan c (t ++ rest) = (.number (.ok n), rest) := by
      have whole : Number.scan (c :: (t ++ rest)) = .ok (n, rest) := scanned rest ends
      simp only [Lexeme.scan, unmarked, unlettered, if_neg unquoted, if_pos numeric, whole]
    exact lexemes_of_scan solid cut

/-- Tokens that are read one by one, as no two words or numbers meet. -/
structure Readable (tokens : List Text) : Prop where
  reads : ∀ token ∈ tokens, Reads token (lexeme token)
  apart : tokens.IsChain fun token next => IsMark token ∨ IsMark next

theorem Reads.readable (reads : Reads token l) : Readable [token] := by
  refine ⟨?_, .singleton token⟩
  intro other mem
  rw [List.mem_singleton.mp mem, reads.lexeme_eq]
  exact reads

namespace Readable

variable {front back part : List Text} {parts : List (List Text)} {t : Text}

theorem nil : Readable [] := ⟨by simp, .nil⟩

/-- Around a mark nothing meets. -/
theorem append_mark (first : Readable front) (mark : IsMark token) (last : Readable back) :
    Readable (front ++ token :: back) := by
  refine ⟨?_, ?_⟩
  · intro other mem
    rcases List.mem_append.mp mem with mem | mem
    · exact first.reads other mem
    · rcases List.mem_cons.mp mem with rfl | mem
      · exact reads_of_isMark mark
      · exact last.reads other mem
  · apply List.isChain_append.mpr
    refine ⟨first.apart, List.isChain_cons.mpr ⟨fun _ _ => .inl mark, last.apart⟩, ?_⟩
    intro _ _ next same
    cases Option.some.inj same
    exact .inr mark

-- What is read already grows by one part after the other.
theorem append_parts (first : Readable front) (each : ∀ part ∈ parts, Readable part) :
    Readable (front ++ parts.flatMap ([','] :: ·)) := by
  induction parts generalizing front with
  | nil => simpa using first
  | cons part parts ih =>
    have comma : IsMark [','] := ⟨',', by decide, rfl⟩
    have longer := first.append_mark comma (each part List.mem_cons_self)
    have whole := ih longer fun other mem => each other (List.mem_cons_of_mem part mem)
    simpa using whole

theorem bracketed {opening closing : Text} (opened : IsMark opening) (closed : IsMark closing)
    (each : ∀ part ∈ parts, Readable part) :
    Readable (opening :: (separated parts ++ [closing])) := by
  have inside : Readable (separated parts) := by
    cases parts with
    | nil => exact nil
    | cons part parts =>
      apply append_parts (each part List.mem_cons_self)
      exact fun other mem => each other (List.mem_cons_of_mem part mem)
  have whole := nil.append_mark opened (inside.append_mark closed nil)
  exact whole

/-- In front of a mark, or of nothing, a text is at an end. -/
theorem ends_of_spaced {tokens : List Text} (spaced : Spaced tokens t)
    (marked : ∀ next ∈ tokens.head?, IsMark next) : Ends t := by
  intro c first
  cases spaced with
  | nil blank => exact .inl (blank c (List.mem_of_mem_head? first))
  | @cons gap token tokens t blank _ =>
    cases gap with
    | nil =>
      obtain ⟨d, listed, rfl⟩ := marked token rfl
      cases Option.some.inj first
      exact .inr listed
    | cons d gap =>
      cases Option.some.inj first
      exact .inl (blank c List.mem_cons_self)

/-- The lexer finds the tokens, whatever spaces there are. -/
theorem lexemes_spaced {tokens : List Text} (readable : Readable tokens)
    (spaced : Spaced tokens t) : lexemes t = tokens.map lexeme := by
  induction spaced with
  | @nil gap blank =>
    have skipped := lexemes_gap blank []
    rw [List.append_nil, lexemes_nil] at skipped
    exact skipped
  | @cons gap token tokens t blank spaced ih =>
    obtain ⟨meet, apart⟩ := List.isChain_cons.mp readable.apart
    have later : lexemes t = tokens.map lexeme :=
      ih ⟨fun other mem => readable.reads other (List.mem_cons_of_mem token mem), apart⟩
    have clear : IsMark token ∨ Ends t := by
      by_cases mark : IsMark token
      · exact .inl mark
      · exact .inr (ends_of_spaced spaced fun next first => (meet next first).resolve_left mark)
    rw [List.append_assoc, lexemes_gap blank,
      readable.reads token List.mem_cons_self t clear, later, List.map_cons]

end Readable

namespace Grammar

theorem Member.readable {m : Member} (key : IsString m.key) (value : Readable m.value) :
    Readable m.tokens := by
  obtain ⟨pieces, reads⟩ := reads_string key
  exact reads.readable.append_mark ⟨_, by decide, rfl⟩ value

theorem IsValue.readable {tokens : List Text} (value : IsValue tokens) : Readable tokens := by
  induction value with
  | word word =>
    obtain ⟨found, reads⟩ := reads_word word
    exact reads.readable
  | number number =>
    obtain ⟨n, reads⟩ := reads_number number
    exact reads.readable
  | string string =>
    obtain ⟨pieces, reads⟩ := reads_string string
    exact reads.readable
  | array _ ih => exact .bracketed ⟨_, by decide, rfl⟩ ⟨_, by decide, rfl⟩ ih
  | object keys _ ih =>
    apply Readable.bracketed ⟨_, by decide, rfl⟩ ⟨_, by decide, rfl⟩
    intro part mem
    obtain ⟨m, listed, rfl⟩ := List.mem_map.mp mem
    exact m.readable (keys m listed) (ih m listed)

end Grammar

end

end FeatureQuery.Json
