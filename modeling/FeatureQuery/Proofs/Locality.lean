import FeatureQuery.Token.Lexer

/-!
# Cutting in front of a closing parenthesis

A text whose features are in order is cut in front of a `)` as it is cut alone: no quote of it
waits for a character behind the `)`, and no feature of it has a parenthesis left that the `)`
could close.
-/

namespace FeatureQuery

namespace Body

variable {α : Type} [DecidableEq α] [Marked α] {quote : α} {escaped : Bool} {letters : List α}
  {k : Nat}

/-- Every quote was closed, and every parenthesis. -/
def Extent.InOrder (e : Extent) : Prop := e.terminated = true ∧ e.unclosed = 0

theorem Extent.not_inOrder_spoiled (e : Extent) : ¬e.spoiled.InOrder := by
  intro h
  simpa [Extent.spoiled] using h.1

theorem closerFrom_append (h : closerFrom quote escaped letters = some k) (more : List α) :
    closerFrom quote escaped (letters ++ more) = some k := by
  induction letters generalizing escaped k with
  | nil => cases h
  | cons a rest ih =>
    simp only [closerFrom, List.cons_append] at h ⊢
    split at h
    · rwa [if_pos ‹_›]
    · rw [if_neg ‹_›]
      obtain ⟨j, found, rfl⟩ := Option.map_eq_some_iff.mp h
      rw [ih found, Option.map_some]

theorem closerFrom_lt_length (h : closerFrom quote escaped letters = some k) :
    k < letters.length := by
  induction letters generalizing escaped k with
  | nil => cases h
  | cons a rest ih =>
    simp only [closerFrom] at h
    split at h
    · cases h
      exact Nat.zero_lt_succ _
    · obtain ⟨j, found, rfl⟩ := Option.map_eq_some_iff.mp h
      exact Nat.succ_lt_succ (ih found)

/-- A scan in order ends in front of a closing mark wherever it would end alone. -/
theorem scan_append_closing {closing : α} (closes : mark closing = .closing) (more : List α)
    {depth quoted : Nat} (inside : quoted ≤ letters.length)
    (inOrder : (scan depth quoted letters).InOrder) :
    scan depth quoted (letters ++ closing :: more) = scan depth quoted letters := by
  fun_induction scan depth quoted letters with
  | case1 depth quoted =>
    obtain rfl : depth = 0 := inOrder.2
    obtain rfl : quoted = 0 := by simpa using inside
    simp [scan, closes]
  | case2 depth a rest quoted ih =>
    rw [List.cons_append, scan, ih (by simpa using inside) inOrder]
  | case3 depth a rest isQuote k found ih =>
    have append : closer a (rest ++ closing :: more) = some k := closerFrom_append found _
    have last : k + 1 ≤ rest.length := closerFrom_lt_length found
    simp only [List.cons_append, scan, isQuote, append]
    rw [ih last inOrder]
  | case4 => exact absurd inOrder (Extent.not_inOrder_spoiled _)
  | case5 depth a rest opens ih =>
    simp only [List.cons_append, scan, opens]
    rw [ih (Nat.zero_le _) inOrder]
  | case6 a rest stops => simp only [List.cons_append, scan, stops]
  | case7 a rest closes depth ih | case8 depth a rest closes ih | case9 depth a rest closes ih =>
    simp only [List.cons_append, scan, closes]
    rw [ih (Nat.zero_le _) inOrder]

end Body

namespace Text

theorem takeWhile_append_cons {p : Char → Bool} {c : Char} (stops : p c = false) (t more : Text) :
    (t ++ c :: more).takeWhile p = t.takeWhile p := by
  induction t with
  | nil => simp [stops]
  | cons a t ih => simp only [List.cons_append, List.takeWhile_cons, ih]

theorem dropWhile_append_cons {p : Char → Bool} {c : Char} (stops : p c = false) (t more : Text) :
    (t ++ c :: more).dropWhile p = t.dropWhile p ++ c :: more := by
  induction t with
  | nil => simp [stops]
  | cons a t ih =>
    simp only [List.cons_append, List.dropWhile_cons, ih]
    split <;> rfl

theorem dropStart?_append_cons {word : Text} {c : Char} (fresh : c ∉ word) (t more : Text) :
    dropStart? word (t ++ c :: more) = (dropStart? word t).map (· ++ c :: more) := by
  have same : word.isPrefixOf (t ++ c :: more) = word.isPrefixOf t := by
    induction word generalizing t with
    | nil => simp
    | cons a word ih =>
      rw [List.mem_cons, not_or] at fresh
      cases t with
      | nil => simp [List.isPrefixOf, Ne.symm fresh.1]
      | cons b t => simp [List.isPrefixOf, ih fresh.2]
  unfold dropStart?
  rw [same]
  split
  · rename_i isPrefix
    have shorter := (List.isPrefixOf_iff_prefix.mp isPrefix).length_le
    rw [List.drop_append_of_le_length shorter, Option.map_some]
  · rfl

end Text

def Span.shift (n : Nat) (s : Span) : Span := ⟨s.start + n, s.stop + n⟩

namespace Token

/-- How the body of the feature at the front of a text ends; a name alone has none. -/
def bodyExtent (t : Text) : Body.Extent :=
  match t.dropWhile (!isSeparator ·) with
  | ':' :: rest => Body.scan 0 0 rest
  | '(' :: rest => Body.scan 1 0 rest
  | _ => ⟨0, true, 0⟩

theorem feature_append_closer {t : Text} (inOrder : (bodyExtent t).InOrder) (more : Text) :
    feature (t ++ ')' :: more) = feature t := by
  have name := Text.takeWhile_append_cons (p := (!isSeparator ·)) (c := ')') rfl t more
  have after := Text.dropWhile_append_cons (p := (!isSeparator ·)) (c := ')') rfl t more
  have closes : mark ')' = Mark.closing := rfl
  unfold bodyExtent at inOrder
  unfold feature
  rw [name, after]
  split at inOrder
  · rename_i rest found
    have scanned := Body.scan_append_closing closes more (Nat.zero_le _) inOrder
    have inside := Body.length_scan_le 0 0 rest
    simp only [found, List.cons_append, scanned, List.take_append_of_le_length inside]
  · rename_i rest found
    have scanned := Body.scan_append_closing closes more (Nat.zero_le _) inOrder
    have inside := Body.length_scan_le 1 0 rest
    simp only [found, List.cons_append, scanned, List.take_append_of_le_length inside]
  · rename_i notColon notOpening
    cases found : t.dropWhile (!isSeparator ·) with
    | nil => rfl
    | cons c rest =>
      rw [found] at notColon notOpening
      simp only [List.cons_append]
      split <;> simp_all

theorem head?_append_closer (t more : Text) :
    (t ++ ')' :: more).head?.any isWordChar = t.head?.any isWordChar := by
  cases t <;> rfl

theorem keyword?_append_closer (before : Option Char) (t more : Text) :
    keyword? before (t ++ ')' :: more) = keyword? before t := by
  have fresh : ∀ found ∈ keywords, ')' ∉ found.1 := by decide
  unfold keyword?
  congr 1
  generalize keywords = words at fresh ⊢
  induction words with
  | nil => rfl
  | cons found words ih =>
    rw [List.forall_mem_cons] at fresh
    rw [List.findSome?_cons, List.findSome?_cons, ih fresh.2]
    simp only [Text.dropStart?_append_cons fresh.1]
    cases Text.dropStart? found.1 t with
    | none => rfl
    | some after => simp only [Option.map_some, head?_append_closer]

/-- Of the character before a place, only whether it is a word character matters. -/
theorem lexeme_congr {before before' : Option Char}
    (same : before'.any isWordChar = before.any isWordChar) (t : Text) :
    lexeme before' t = lexeme before t := by
  simp only [lexeme, keyword?, same]

theorem lexeme_append_closer (before : Option Char) {t : Text} (nonempty : t ≠ [])
    (inOrder : ∀ f, (lexeme before t).1 = .feature f → (bodyExtent t).InOrder) (more : Text) :
    lexeme before (t ++ ')' :: more) = lexeme before t := by
  have head : (t ++ ')' :: more).head? = t.head? := by cases t <;> trivial
  unfold lexeme at inOrder ⊢
  rw [head, keyword?_append_closer]
  split
  · rfl
  · rfl
  · cases found : keyword? before t with
    | some found => rfl
    | none =>
      have inOrder := inOrder (feature t).1 (by simp [found])
      simp only [feature_append_closer inOrder]

theorem keyword?_length_le {before : Option Char} {t : Text} {found : Kind × Nat}
    (h : keyword? before t = some found) : found.2 ≤ t.length := by
  unfold keyword? at h
  split at h
  · cases h
  · obtain ⟨⟨word, kind⟩, -, h⟩ := List.exists_of_findSome?_eq_some h
    simp only [Text.dropStart?] at h
    split at h
    · rename_i after isWord
      split at isWord
      · split at h <;> cases h
        exact (List.isPrefixOf_iff_prefix.mp ‹_›).length_le
      · cases isWord
    · cases h

theorem feature_length_le (t : Text) : (feature t).2 ≤ t.length := by
  have whole := congrArg List.length
    (List.takeWhile_append_dropWhile (p := (!isSeparator ·)) (l := t))
  rw [List.length_append] at whole
  unfold feature
  split
  · rename_i rest found
    have inside := Body.length_scan_le 0 0 rest
    simp only [found, List.length_cons] at whole ⊢
    omega
  · rename_i rest found
    have inside := Body.length_scan_le 1 0 rest
    simp only [found, List.length_cons] at whole ⊢
    omega
  · simp only
    omega

theorem lexeme_length_le (before : Option Char) {t : Text} (nonempty : t ≠ []) :
    (lexeme before t).2 ≤ t.length := by
  have pos : 0 < t.length := List.length_pos_iff.mpr nonempty
  unfold lexeme
  split
  · exact pos
  · exact pos
  · split
    · exact keyword?_length_le ‹_›
    · exact feature_length_le t

/-- The same token, `n` bytes later. -/
def shift (n : Nat) (token : Token) : Token := { token with span := token.span.shift n }

end Token

namespace Cursor

theorem takeWhile_isGap_rest_skipGap (c : Cursor) : c.skipGap.rest.takeWhile Token.isGap = [] := by
  have head := List.head?_dropWhile_not Token.isGap c.rest
  rw [← rest_skipGap] at head
  cases rest : c.skipGap.rest with
  | nil => rfl
  | cons first others =>
    simp only [rest, List.head?_cons] at head
    simp [head]

theorem skipGap_eq_self {c : Cursor} (h : c.rest.takeWhile Token.isGap = []) : c.skipGap = c := by
  rw [skipGap, h]
  simp [forward]

theorem skipGap_skipGap (c : Cursor) : c.skipGap.skipGap = c.skipGap :=
  skipGap_eq_self c.takeWhile_isGap_rest_skipGap

theorem next?_skipGap (c : Cursor) : c.skipGap.next? = c.next? := by
  rw [next?, skipGap_skipGap, next?]

theorem tokens_skipGap (c : Cursor) : c.skipGap.tokens = c.tokens := by
  rw [tokens, tokens, next?_skipGap]

theorem tokens_of_rest_skipGap_eq_nil {c : Cursor} (h : c.skipGap.rest = []) : c.tokens = [] := by
  rw [tokens, next?, h]
  rfl

theorem tokens_of_rest_skipGap_ne_nil {c : Cursor} (h : c.skipGap.rest ≠ []) :
    c.tokens = c.skipGap.cut.1 :: c.skipGap.cut.2.tokens := by
  rw [tokens, next?, if_neg (by simpa using h)]

/-- The cursor is at its offset in `whole`. -/
def At (whole : Text) (c : Cursor) : Prop :=
  ∃ passed, whole = passed ++ c.rest ∧ c.offset = Text.width passed

theorem at_start (t : Text) : (start t).At t := ⟨[], rfl, rfl⟩

theorem At.forward {whole : Text} {c : Cursor} (h : c.At whole) (n : Nat) :
    (c.forward n).At whole := by
  obtain ⟨passed, rfl, offset⟩ := h
  refine ⟨passed ++ c.rest.take n, ?_, ?_⟩
  · simp [Cursor.forward]
  · simp [Cursor.forward, offset]

theorem dropBytes?_width (passed rest : Text) :
    Text.dropBytes? (Text.width passed) (passed ++ rest) = some rest := by
  induction passed with
  | nil => cases rest <;> simp [Text.dropBytes?]
  | cons c passed ih =>
    have pos := c.utf8Size_pos
    obtain ⟨n, size⟩ : ∃ n, c.utf8Size + Text.width passed = n + 1 :=
      ⟨c.utf8Size + Text.width passed - 1, by omega⟩
    rw [Text.width_cons, size, List.cons_append, Text.dropBytes?, ← size]
    simp [ih]

theorem At.dropBytes? {whole : Text} {c : Cursor} (h : c.At whole) :
    Text.dropBytes? c.offset whole = some c.rest := by
  obtain ⟨passed, rfl, offset⟩ := h
  rw [offset, dropBytes?_width]

/-- `d` is to read the text of `c` and then a `)`, `n` bytes later. -/
structure Embeds (n : Nat) (more : Text) (c d : Cursor) : Prop where
  rest : d.rest = c.rest ++ ')' :: more
  offset : d.offset = c.offset + n
  before : d.before.any Token.isWordChar = c.before.any Token.isWordChar

namespace Embeds

variable {n : Nat} {more : Text} {c d : Cursor}

theorem forward (h : Embeds n more c d) {m : Nat} (inside : m ≤ c.rest.length) :
    Embeds n more (c.forward m) (d.forward m) := by
  have taken : d.rest.take m = c.rest.take m := by
    rw [h.rest, List.take_append_of_le_length inside]
  refine ⟨?_, ?_, ?_⟩
  · rw [rest_forward, rest_forward, h.rest, List.drop_append_of_le_length inside]
  · simp only [Cursor.forward, taken, h.offset]
    omega
  · simp only [Cursor.forward, taken]
    cases (c.rest.take m).getLast? with
    | none => exact h.before
    | some last => rfl

theorem skipGap (h : Embeds n more c d) : Embeds n more c.skipGap d.skipGap := by
  have same : d.rest.takeWhile Token.isGap = c.rest.takeWhile Token.isGap := by
    rw [h.rest, Text.takeWhile_append_cons (by decide)]
  rw [Cursor.skipGap, Cursor.skipGap, same]
  exact h.forward (List.takeWhile_prefix _).length_le

theorem cut (h : Embeds n more c d) (nonempty : c.rest ≠ [])
    (inOrder : ∀ f, c.cut.1.kind = .feature f → (Token.bodyExtent c.rest).InOrder) :
    d.cut.1 = c.cut.1.shift n ∧ Embeds n more c.cut.2 d.cut.2 := by
  have inside := Token.lexeme_length_le c.before nonempty
  have same : Token.lexeme d.before d.rest = Token.lexeme c.before c.rest := by
    rw [Token.lexeme_congr h.before, h.rest, Token.lexeme_append_closer _ nonempty inOrder]
  have after := h.forward inside
  constructor
  · simp only [Cursor.cut, same, Token.shift, Span.shift, h.offset, after.offset, Token.mk.injEq,
      true_and]
    exact ⟨by rw [h.rest, List.take_append_of_le_length inside], trivial⟩
  · simpa only [Cursor.cut, same] using after

end Embeds

theorem offset_add_width_forward (n : Nat) (c : Cursor) :
    (c.forward n).offset + Text.width (c.forward n).rest = c.offset + Text.width c.rest := by
  conv => rhs; rw [← List.take_append_drop n c.rest, Text.width_append]
  simp [forward, Nat.add_assoc]

/-- A text in order is cut in front of a `)` as it is cut alone. -/
theorem tokens_of_embeds {n : Nat} {whole more : Text} {c d : Cursor} (place : c.At whole)
    (h : Embeds n more c d)
    (inOrder : ∀ token ∈ c.tokens, ∀ f, token.kind = .feature f →
      ∀ rest ∈ Text.dropBytes? token.span.start whole, (Token.bodyExtent rest).InOrder) :
    ∃ e : Cursor, d.tokens = c.tokens.map (Token.shift n) ++ e.tokens ∧ e.rest = ')' :: more ∧
      e.offset = c.offset + Text.width c.rest + n := by
  induction c using tokens.induct generalizing d with
  | case1 c ended =>
    have empty : c.skipGap.rest = [] := by simpa [next?] using ended
    refine ⟨d.skipGap, ?_, ?_, ?_⟩
    · rw [tokens_skipGap, tokens_of_rest_skipGap_eq_nil empty]
      rfl
    · rw [h.skipGap.rest, empty]
      rfl
    · have same := offset_add_width_forward (c.rest.takeWhile Token.isGap).length c
      rw [← skipGap, empty, Text.width_nil] at same
      rw [h.skipGap.offset, ← same, Nat.add_zero]
  | case2 c token after found ih =>
    have nonempty : c.skipGap.rest ≠ [] := by
      intro empty
      simp [next?, empty] at found
    obtain ⟨rfl, rfl⟩ : c.skipGap.cut.1 = token ∧ c.skipGap.cut.2 = after := by
      simpa [next?, nonempty, Prod.ext_iff] using found
    rw [tokens_of_rest_skipGap_ne_nil nonempty] at inOrder ⊢
    rw [List.forall_mem_cons] at inOrder
    have place : c.skipGap.At whole := place.forward _
    have body : ∀ f, c.skipGap.cut.1.kind = .feature f →
        (Token.bodyExtent c.skipGap.rest).InOrder := by
      intro f kind
      exact inOrder.1 f kind _ place.dropBytes?
    obtain ⟨token, after⟩ := h.skipGap.cut nonempty body
    obtain ⟨e, tokens, rest, offset⟩ := ih (place.forward _) after inOrder.2
    refine ⟨e, ?_, rest, ?_⟩
    · have larger : d.skipGap.rest ≠ [] := by
        rw [h.skipGap.rest]
        simp
      rw [tokens_of_rest_skipGap_ne_nil larger, token, tokens]
      rfl
    · rw [offset]
      congr 1
      exact (offset_add_width_forward _ c.skipGap).trans (offset_add_width_forward _ c)

theorem tokens_cons_of_head {c : Cursor} {a : Char} {t : Text} (rest : c.rest = a :: t)
    (starts : Token.isGap a = false) : c.tokens = c.cut.1 :: c.cut.2.tokens := by
  have same : c.skipGap = c := by
    apply skipGap_eq_self
    simp [rest, starts]
  have nonempty : c.skipGap.rest ≠ [] := by simp [same, rest]
  rw [tokens_of_rest_skipGap_ne_nil nonempty, same]

theorem tokens_opening {c : Cursor} {t : Text} (rest : c.rest = '(' :: t) :
    c.tokens = ⟨.lparen, ['('], ⟨c.offset, c.offset + 1⟩⟩ ::
      tokens ⟨some '(', t, c.offset + 1⟩ := by
  have size : '('.utf8Size = 1 := by decide
  rw [tokens_cons_of_head rest (by decide)]
  simp [cut, rest, Token.lexeme, forward, size]

theorem tokens_closing {c : Cursor} {t : Text} (rest : c.rest = ')' :: t) :
    c.tokens = ⟨.rparen, [')'], ⟨c.offset, c.offset + 1⟩⟩ ::
      tokens ⟨some ')', t, c.offset + 1⟩ := by
  have size : ')'.utf8Size = 1 := by decide
  rw [tokens_cons_of_head rest (by decide)]
  simp [cut, rest, Token.lexeme, forward, size]

end Cursor

end FeatureQuery
