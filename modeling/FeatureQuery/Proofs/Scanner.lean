import FeatureQuery.Proofs.Boundary
import FeatureQuery.Proofs.Coverage

/-!
# Slicing a text

A lexer that holds its text in bytes knows its place as an index, and learns about the text by
slicing it. A slice that reaches beyond the text, or cuts a character apart, fails. None ever does:
such a lexer cuts the tokens of the text, and stands in front of whole characters throughout.
-/

namespace FeatureQuery

namespace Token

/-- The kind and length of a listed word, where it stands and does not go on. -/
def wordAt? (t : Text) (entry : Text × Kind) : Option (Kind × Nat) :=
  match Text.dropStart? entry.1 t with
  | some after => if after.head?.any isWordChar then none else some (entry.2, entry.1.length)
  | none => none

/-- A body is scanned from its separator on. -/
theorem reads_separator {call terminated : Bool} {body rest : Text}
    (reads : Body.Reads (bodyDepth call) body rest terminated) :
    Body.Reads 0 (Feature.separator call :: body) rest terminated := by
  cases call with
  | false => exact .letter (.inr rfl) reads
  | true => exact .opening rfl reads

end Token

/-- A place in a text, and the indices that the text has been sliced at on the way. -/
structure Scanner where
  text : Text
  position : Nat
  sliced : List Nat
  deriving DecidableEq, Repr

/-- Bytes that are in front of a scanner. -/
def Scanner.left (s : Scanner) : Nat := s.text.width - s.position

/-- Steps of a scanner; they fail with a slice. -/
abbrev Scanning := StateT Scanner Option

namespace Scanning

/-- Takes turns until one of them has an answer. A turn that has none moves the scanner on; if one
did not, the turns would not end, and this fails. -/
def untilAnswer {α : Type} (turn : Scanning (Option α)) (s : Scanner) : Option (α × Scanner) :=
  match turn s with
  | none => none
  | some (some a, s') => some (a, s')
  | some (none, s') => if _moved : s'.left < s.left then untilAnswer turn s' else none
termination_by s.left
decreasing_by exact _moved

def position : Scanning Nat := do
  return (← get).position

def text : Scanning Text := do
  return (← get).text

def moveTo (i : Nat) : Scanning Unit :=
  modify fun s => { s with position := i }

def slice (i j : Nat) : Scanning Text := do
  modify fun s => { s with sliced := s.sliced ++ [i, j] }
  Text.slice? i j (← get).text

def sliceFrom (i : Nat) : Scanning Text := do
  slice i (← text).width

def peek : Scanning (Option Char) := do
  let rest ← sliceFrom (← position)
  return rest.head?

def bump : Scanning Unit := do
  match ← peek with
  | some c => moveTo ((← position) + c.utf8Size)
  | none => return

def skipBlanks : Scanning Unit :=
  untilAnswer do
    if (← peek).any Text.isBlank then
      bump
      return none
    else return some ()

def token (kind : Token.Kind) (start : Nat) : Scanning Token := do
  let stop ← position
  let raw ← slice start stop
  return ⟨kind, raw, ⟨start, stop⟩⟩

/-- The first of the words that stands at `start`, and does not go on. -/
def readWord (start : Nat) (rest : Text) : List (Text × Token.Kind) → Scanning (Option Token)
  | [] => return none
  | (word, kind) :: others =>
    match Text.dropStart? word rest with
    | none => readWord start rest others
    | some _ => do
      let after ← sliceFrom (start + word.width)
      if after.head?.any Token.isWordChar then readWord start rest others
      else
        moveTo (start + word.width)
        return some (← token kind start)

def readKeyword (start : Nat) : Scanning (Option Token) := do
  let rest ← sliceFrom start
  let passed ← slice 0 start
  if passed.getLast?.any Token.isWordChar then return none
  else readWord start rest Token.keywords

/-- The rest of a feature whose name ends at `separator`. -/
def readBody (start separator : Nat) (call : Bool) (name : Text) : Scanning Token := do
  let (stop, terminated) := Body.stop (← text).utf8 separator 0 true
  moveTo stop
  let _raw ← slice start stop
  let body ← slice (separator + 1) stop
  token (.feature (.ofBody call name body terminated)) start

/-- A feature, unless its name were empty. -/
def readFeature (start : Nat) : Scanning (Option Token) := do
  let rest ← sliceFrom start
  let width := Text.width (rest.takeWhile (!Token.isSeparator ·))
  if width = 0 then return none
  else
    let separator := start + width
    let name ← slice start separator
    match (← sliceFrom separator).head? with
    | some ':' => return some (← readBody start separator false name)
    | some '(' => return some (← readBody start separator true name)
    | _ =>
      moveTo separator
      return some (← token (.feature (.bare name)) start)

/-- A keyword, or else a feature. -/
def readLexeme (start : Nat) : Scanning (Option Token) := do
  match ← readKeyword start with
  | some token => return some token
  | none => readFeature start

/-- What is to be answered where `here` is the first character; one that starts no token is passed
over. -/
def readFrom (start : Nat) (here : Option Char) : Scanning (Option (Option Token)) :=
  match here with
  | none => return some none
  | some '(' => do
    bump
    return some (some (← token .lparen start))
  | some ')' => do
    bump
    return some (some (← token .rparen start))
  | some _ => do
    match ← readLexeme start with
    | some token => return some (some token)
    | none =>
      bump
      return none

def turn : Scanning (Option (Option Token)) := do
  skipBlanks
  let start ← position
  readFrom start (← peek)

/-- The next token, if there is one. -/
def next : Scanning (Option Token) := untilAnswer turn

/-- The answers of `n` calls for the next token. -/
def calls : Nat → Scanning (List (Option Token))
  | 0 => return []
  | n + 1 => do
    let answer ← next
    let answers ← calls n
    return answer :: answers

end Scanning

namespace Scanner

/-- A scanner in front of `t`. -/
def start (t : Text) : Scanner := ⟨t, 0, []⟩

/-- The scanner is where the cursor is, and has sliced `t` between characters only. -/
structure Follows (t : Text) (s : Scanner) (c : Cursor) : Prop where
  text : s.text = t
  position : s.position = c.offset
  sliced : ∀ i ∈ s.sliced, Text.OnBoundary t i

end Scanner

namespace Cursor

variable {t : Text} {c : Cursor} {n : Nat}

/-- The cursor is in `t`, and knows what is in front of it. -/
def Placed (t : Text) (c : Cursor) : Prop :=
  ∃ passed, t = passed ++ c.rest ∧ c.offset = Text.width passed ∧ c.before = passed.getLast?

theorem placed_start (t : Text) : (start t).Placed t := ⟨[], rfl, rfl, rfl⟩

theorem Placed.forward (place : c.Placed t) (n : Nat) : (c.forward n).Placed t := by
  obtain ⟨passed, whole, offset, before⟩ := place
  refine ⟨passed ++ c.rest.take n, ?_, ?_, ?_⟩
  · rw [rest_forward, List.append_assoc, List.take_append_drop, whole]
  · simp [Cursor.forward, offset]
  · simp [Cursor.forward, before, List.getLast?_append]

theorem forward_forward (m n : Nat) (c : Cursor) :
    (c.forward m).forward n = c.forward (m + n) := by
  simp only [forward, List.drop_drop, List.take_add, Text.width_append, List.getLast?_append,
    Option.or_assoc, Nat.add_assoc]

theorem forward_eq_self (h : c.rest = []) (n : Nat) : c.forward n = c := by
  obtain ⟨before, rest, offset⟩ := c
  obtain rfl : rest = [] := h
  simp [forward]

theorem Placed.offset_le (place : c.Placed t) : c.offset ≤ t.width := by
  obtain ⟨passed, whole, offset, -⟩ := place
  rw [whole, offset, Text.width_append]
  exact Nat.le_add_right _ _

theorem offset_le_forward (n : Nat) (c : Cursor) : c.offset ≤ (c.forward n).offset :=
  Nat.le_add_right _ _

theorem offset_lt_forward {a : Char} {more : Text} (here : c.rest = a :: more) :
    c.offset < (c.forward 1).offset := by
  have pos := a.utf8Size_pos
  simp only [forward, here, List.take_succ_cons, List.take_zero, Text.width_cons]
  omega

theorem offset_forward {raw rest : Text} (here : c.rest = raw ++ rest) :
    (c.forward raw.length).offset = c.offset + raw.width := by
  simp [forward, here]

theorem skipGap_forward (gaps : (c.rest.take n).all Token.isGap = true) :
    (c.forward n).skipGap = c.skipGap := by
  rw [List.all_eq_true] at gaps
  have whole : c.rest.takeWhile Token.isGap =
      c.rest.take n ++ (c.rest.drop n).takeWhile Token.isGap := by
    rw [← List.takeWhile_append_of_pos gaps, List.take_append_drop]
  rw [skipGap, skipGap, whole, List.length_append, rest_forward, ← forward_forward,
    List.length_take]
  rcases Nat.le_total n c.rest.length with inside | beyond
  · rw [Nat.min_eq_left inside]
  · rw [Nat.min_eq_right beyond]
    simp [forward, List.take_of_length_le beyond, List.drop_eq_nil_of_le beyond]

/-- The token that `n` characters are when they are cut here. -/
def tokenAs (c : Cursor) (kind : Token.Kind) (n : Nat) : Token :=
  ⟨kind, c.rest.take n, ⟨c.offset, (c.forward n).offset⟩⟩

/-- The token of this kind and length, if one is found here, and the place behind it. -/
def answer (c : Cursor) : Option (Token.Kind × Nat) → Option Token × Cursor
  | none => (none, c)
  | some (kind, n) => (some (c.tokenAs kind n), c.forward n)

/-- The answer to a call for the next token, and the place behind it. -/
def call (c : Cursor) : Option Token × Cursor :=
  match c.next? with
  | none => (none, c.skipGap)
  | some (token, after) => (some token, after)

theorem call_forward (gaps : (c.rest.take n).all Token.isGap = true) :
    (c.forward n).call = c.call := by
  simp only [call, next?, skipGap_forward gaps]

theorem call_of_rest_nil (h : c.rest = []) : c.call = (none, c) := by
  have still : c.skipGap = c := skipGap_eq_self (by simp [h])
  simp [call, next?, still, h]

theorem call_of_rest_cons {a : Char} {more : Text} (h : c.rest = a :: more)
    (starts : Token.isGap a = false) :
    c.call = c.answer (some (Token.lexeme c.before c.rest)) := by
  have still : c.skipGap = c := skipGap_eq_self (by simp [h, starts])
  rw [call, next?, still, if_neg (by simp [h])]
  rfl

theorem Placed.call (place : c.Placed t) : c.call.2.Placed t := by
  unfold Cursor.call
  split
  · exact place.forward _
  · rename_i token after found
    rw [next?] at found
    split at found
    · cases found
    · cases found
      exact (place.forward _).forward _

/-- A call takes the first of the tokens that are left. -/
theorem tokens_call (c : Cursor) :
    c.call.1 = c.tokens.head? ∧ c.call.2.tokens = c.tokens.tail := by
  rw [tokens]
  cases found : c.next? with
  | none =>
    have left : c.tokens = [] := by rw [tokens, found]
    simp [call, found, tokens_skipGap, left]
  | some step => simp [call, found]

end Cursor

/-- From where the cursor `c` is, the steps succeed with `a`, and lead to `d`. -/
def Runs {α : Type} (t : Text) (c : Cursor) (steps : Scanning α) (a : α) (d : Cursor) : Prop :=
  ∀ s : Scanner, s.Follows t c → ∃ s', steps s = some (a, s') ∧ s'.Follows t d

section

variable {α β : Type} {t front piece back word : Text} {c d e : Cursor} {i j n : Nat}

namespace Runs

theorem pure (a : α) : Runs t c (pure a) a c := fun s follows => ⟨s, rfl, follows⟩

theorem bind {steps : Scanning α} {a : α} {more : α → Scanning β} {b : β}
    (first : Runs t c steps a d) (second : Runs t d (more a) b e) :
    Runs t c (steps >>= more) b e := by
  intro s follows
  obtain ⟨s', run, follows'⟩ := first s follows
  obtain ⟨s'', run', follows''⟩ := second s' follows'
  refine ⟨s'', ?_, follows''⟩
  show (steps s).bind (fun p => more p.1 p.2) = _
  rw [run]
  exact run'

/-- A turn with an answer is the last. -/
theorem answered {turn : Scanning (Option α)} {a : α} (last : Runs t c turn (some a) d) :
    Runs t c (Scanning.untilAnswer turn) a d := by
  intro s follows
  obtain ⟨s', run, follows'⟩ := last s follows
  refine ⟨s', ?_, follows'⟩
  rw [Scanning.untilAnswer, run]

theorem again {turn : Scanning (Option α)} {a : α} (first : Runs t c turn none d)
    (moved : c.offset < d.offset) (inside : d.offset ≤ t.width)
    (more : Runs t d (Scanning.untilAnswer turn) a e) :
    Runs t c (Scanning.untilAnswer turn) a e := by
  intro s follows
  obtain ⟨s', run, follows'⟩ := first s follows
  obtain ⟨s'', run', follows''⟩ := more s' follows'
  have less : s'.left < s.left := by
    rw [Scanner.left, Scanner.left, follows.text, follows'.text, follows.position,
      follows'.position]
    omega
  refine ⟨s'', ?_, follows''⟩
  rw [Scanning.untilAnswer, run]
  simp only [dif_pos less]
  exact run'

end Runs

namespace Scanning

theorem runs_position : Runs t c position c.offset c := by
  intro s follows
  refine ⟨s, ?_, follows⟩
  rw [← follows.position]
  rfl

theorem runs_text : Runs t c text t c := by
  intro s follows
  refine ⟨s, ?_, follows⟩
  rw [← follows.text]
  rfl

theorem runs_moveTo (there : d.offset = i) : Runs t c (moveTo i) () d := by
  intro s follows
  exact ⟨_, rfl, follows.text, there.symm, follows.sliced⟩

theorem runs_slice (whole : t = front ++ (piece ++ back)) (first : i = front.width)
    (last : j = front.width + piece.width) : Runs t c (slice i j) piece c := by
  intro s follows
  have found : Text.slice? i j s.text = some piece := by
    rw [follows.text, whole, first, last, Text.slice?_width]
  refine ⟨{ s with sliced := s.sliced ++ [i, j] }, ?_, follows.text, follows.position, ?_⟩
  · show (Text.slice? i j s.text).bind _ = _
    rw [found]
    rfl
  · simp only [List.mem_append, List.mem_cons, List.not_mem_nil, or_false]
    rintro k (earlier | rfl | rfl)
    · exact follows.sliced k earlier
    · exact ⟨front, _, whole, first⟩
    · exact ⟨front ++ piece, back, by rw [whole, List.append_assoc], by rw [last, Text.width_append]⟩

theorem runs_sliceFrom (whole : t = front ++ piece) (first : i = front.width) :
    Runs t c (sliceFrom i) piece c := by
  have last : t.width = front.width + piece.width := by rw [whole, Text.width_append]
  refine .bind runs_text ?_
  have split : t = front ++ (piece ++ []) := by rw [List.append_nil, whole]
  exact runs_slice split first last

theorem runs_peek (place : c.Placed t) : Runs t c peek c.rest.head? c := by
  obtain ⟨passed, whole, offset, -⟩ := place
  refine .bind runs_position ?_
  refine .bind (runs_sliceFrom whole offset) ?_
  exact .pure _

theorem runs_bump (place : c.Placed t) : Runs t c bump () (c.forward 1) := by
  refine .bind (runs_peek place) ?_
  cases rest : c.rest with
  | nil =>
    rw [Cursor.forward_eq_self rest]
    exact .pure ()
  | cons a more =>
    refine .bind runs_position ?_
    exact runs_moveTo (by simp [Cursor.forward, rest])

/-- Blanks are passed, and no blank is left in front. -/
theorem runs_skipBlanks (place : c.Placed t) :
    ∃ n, (c.rest.take n).all Text.isBlank = true ∧
      (c.rest.drop n).head?.any Text.isBlank = false ∧ Runs t c skipBlanks () (c.forward n) := by
  obtain ⟨rest, here⟩ : ∃ rest, c.rest = rest := ⟨_, rfl⟩
  have peeked := runs_peek place
  induction rest generalizing c with
  | nil =>
    rw [here] at peeked
    refine ⟨0, rfl, by simp [here], ?_⟩
    exact .answered (.bind peeked (.pure _))
  | cons a rest ih =>
    rw [here] at peeked
    by_cases blank : Text.isBlank a
    · have after := place.forward 1
      obtain ⟨n, passed, stops, more⟩ := ih after (by simp [here]) (runs_peek after)
      simp only [Cursor.rest_forward, List.drop_drop] at passed stops
      rw [Cursor.forward_forward] at more
      refine ⟨1 + n, ?_, stops, ?_⟩
      · simpa [List.take_add, here, blank] using passed
      · refine .again (.bind peeked ?_) (Cursor.offset_lt_forward here) after.offset_le more
        simp only [List.head?_cons, Option.any_some, blank, if_true]
        exact .bind (runs_bump place) (.pure _)
    · refine ⟨0, rfl, by simpa [here] using blank, ?_⟩
      refine .answered (.bind peeked ?_)
      simp only [List.head?_cons, Option.any_some, blank]
      exact .pure _

theorem runs_token (place : c.Placed t) (kind : Token.Kind) (n : Nat) :
    Runs t (c.forward n) (token kind c.offset) (c.tokenAs kind n) (c.forward n) := by
  obtain ⟨passed, whole, offset, -⟩ := place
  have split : t = passed ++ (c.rest.take n ++ c.rest.drop n) := by
    rw [List.take_append_drop, whole]
  refine .bind runs_position ?_
  refine .bind (runs_slice split offset ?_) ?_
  · simp [Cursor.forward, offset]
  · exact .pure _

/-- What is found here is answered once the scanner has moved behind it. -/
theorem runs_answer (place : c.Placed t) {kind : Token.Kind} (there : (c.forward n).offset = j) :
    Runs t c (do moveTo j; return some (← token kind c.offset)) (c.answer (some (kind, n))).1
      (c.answer (some (kind, n))).2 := by
  refine .bind (runs_moveTo there) ?_
  refine .bind (runs_token place kind n) ?_
  exact .pure _

theorem runs_readWord (place : c.Placed t) (words : List (Text × Token.Kind)) :
    Runs t c (readWord c.offset c.rest words)
      (c.answer (words.findSome? (Token.wordAt? c.rest))).1
      (c.answer (words.findSome? (Token.wordAt? c.rest))).2 := by
  induction words with
  | nil => exact .pure none
  | cons entry others ih =>
    obtain ⟨word, kind⟩ := entry
    rw [List.findSome?_cons]
    cases found : Text.dropStart? word c.rest with
    | none => simpa [readWord, Token.wordAt?, found] using ih
    | some after =>
      have split := Text.dropStart?_eq_some_iff.mp found
      have ⟨passed, whole, offset, _⟩ := place
      simp only [readWord, Token.wordAt?, found]
      have behind : t = (passed ++ word) ++ after := by rw [whole, split, List.append_assoc]
      have first : c.offset + word.width = (passed ++ word).width := by
        rw [offset, Text.width_append]
      refine .bind (runs_sliceFrom behind first) ?_
      by_cases goesOn : after.head?.any Token.isWordChar
      · simpa only [if_pos goesOn] using ih
      · simp only [if_neg goesOn]
        exact runs_answer place (Cursor.offset_forward split)

theorem runs_readKeyword (place : c.Placed t) :
    Runs t c (readKeyword c.offset) (c.answer (Token.keyword? c.before c.rest)).1
      (c.answer (Token.keyword? c.before c.rest)).2 := by
  have ⟨passed, whole, offset, before⟩ := place
  refine .bind (runs_sliceFrom whole offset) ?_
  have split : t = [] ++ (passed ++ c.rest) := whole
  refine .bind (runs_slice split rfl (by simp [offset])) ?_
  rw [← before]
  by_cases word : c.before.any Token.isWordChar
  · rw [Token.keyword?, if_pos word, if_pos word]
    exact .pure none
  · rw [Token.keyword?, if_neg word, if_neg word]
    exact runs_readWord place Token.keywords

theorem runs_readBody (place : c.Placed t) {call terminated : Bool} {name body rest : Text}
    (here : c.rest = name ++ Feature.separator call :: body ++ rest)
    (reads : Body.Reads (Token.bodyDepth call) body rest terminated) :
    let length := (name ++ Feature.separator call :: body).length
    Runs t c (readBody c.offset (c.offset + name.width) call name)
      (c.tokenAs (.feature (.ofBody call name body terminated)) length) (c.forward length) := by
  intro length
  have ⟨passed, whole, offset, _⟩ := place
  have behind : (c.forward length).offset =
      c.offset + (name ++ Feature.separator call :: body).width := Cursor.offset_forward here
  have one : (Feature.separator call).utf8Size = 1 := by cases call <;> rfl
  rw [here] at whole
  -- The bytes are scanned from the separator on, so that it counts as a part of what is read.
  have stops : Body.stop t.utf8 (c.offset + name.width) 0 true =
      ((c.forward length).offset, terminated) := by
    have bytes := Body.stop_of_reads (passed ++ name).utf8 (Token.reads_separator reads).utf8 true
    simp only [← Text.utf8_append, Text.length_utf8, Bool.true_and] at bytes
    rw [behind, whole, offset, ← Text.width_append]
    simpa [Nat.add_assoc] using bytes
  refine .bind runs_text ?_
  rw [stops]
  refine .bind (runs_moveTo rfl) ?_
  refine .bind (runs_slice whole offset (by rw [behind, offset])) ?_
  have inner : t = (passed ++ name ++ [Feature.separator call]) ++ (body ++ rest) := by
    simp [whole]
  have first : c.offset + name.width + 1 =
      Text.width (passed ++ name ++ [Feature.separator call]) := by simp [offset, one, Nat.add_assoc]
  refine .bind (runs_slice inner first ?_) (runs_token place _ length)
  simp only [behind, offset, Text.width_append, Text.width_cons, Text.width_nil]
  omega

theorem runs_readFeature_of_separator {a : Char} {more : Text} (place : c.Placed t)
    (here : c.rest = a :: more) (separates : Token.isSeparator a = true) :
    Runs t c (readFeature c.offset) none c := by
  have ⟨passed, whole, offset, _⟩ := place
  refine .bind (runs_sliceFrom whole offset) ?_
  simp only [here, List.takeWhile_cons, separates]
  exact .pure none

theorem runs_readFeature {a : Char} {more : Text} (place : c.Placed t)
    (here : c.rest = a :: more) (letter : Token.isSeparator a = false) :
    let found := (Token.Kind.feature (Token.feature c.rest).1, (Token.feature c.rest).2)
    Runs t c (readFeature c.offset) (c.answer (some found)).1 (c.answer (some found)).2 := by
  intro found
  have ⟨passed, whole, offset, _⟩ := place
  obtain ⟨others, rest, split, free, stops⟩ := Token.exists_name_append more letter
  have nonempty := List.cons_ne_nil a others
  generalize a :: others = name at split free nonempty
  rw [← here] at split
  rw [split] at whole
  have named := (Token.split_name free stops).1
  rw [← split] at named
  refine .bind (runs_sliceFrom whole offset) ?_
  simp only [← split, named, if_neg (Nat.ne_of_gt (Text.width_pos nonempty))]
  refine .bind (runs_slice whole offset (by rw [offset])) ?_
  have behind : t = (passed ++ name) ++ rest := by rw [whole, List.append_assoc]
  have first : c.offset + Text.width name = Text.width (passed ++ name) := by
    rw [offset, Text.width_append]
  refine .bind (runs_sliceFrom behind first) ?_
  rcases Token.atCloser_or_body stops with ends | ⟨call, body, rest, terminated, rfl, reads⟩
  · have read := Token.feature_of_name free ends
    rw [← split] at read
    simp only [found, read]
    rcases ends.eq_nil_or_cons with rfl | ⟨more, rfl⟩ <;>
      exact runs_answer place (Cursor.offset_forward split)
  · have read := Token.feature_of_body free reads
    rw [← List.cons_append, ← List.append_assoc] at split
    rw [← split] at read
    have bodied := runs_readBody place split reads
    simp only [found, read]
    cases call with
    | false => exact .bind bodied (.pure _)
    | true => exact .bind bodied (.pure _)

/-- No token starts with a colon. -/
theorem runs_readLexeme_of_colon {more : Text} (place : c.Placed t) (here : c.rest = ':' :: more) :
    Runs t c (readLexeme c.offset) none c := by
  have unread : Token.keyword? c.before c.rest = none := by
    rw [here]
    exact Token.keyword?_of_not_word rfl
  have keyword := runs_readKeyword place
  rw [unread] at keyword
  exact .bind keyword (runs_readFeature_of_separator place here rfl)

theorem runs_readLexeme {a : Char} {more : Text} (place : c.Placed t) (here : c.rest = a :: more)
    (letter : Token.isSeparator a = false) :
    Runs t c (readLexeme c.offset) (c.answer (some (Token.lexeme c.before c.rest))).1
      (c.answer (some (Token.lexeme c.before c.rest))).2 := by
  have opening : a ≠ '(' := by
    rintro rfl
    cases letter
  have closing : a ≠ ')' := by
    rintro rfl
    cases letter
  have read : Token.lexeme c.before c.rest = (Token.keyword? c.before c.rest).getD
      (.feature (Token.feature c.rest).1, (Token.feature c.rest).2) := by
    rw [here, Token.lexeme_of_letter opening closing]
  refine .bind (runs_readKeyword place) ?_
  rw [read]
  cases Token.keyword? c.before c.rest with
  | some found => exact .pure _
  | none => exact runs_readFeature place here letter

/-- Only a colon has no answer. -/
theorem runs_readFrom (place : c.Placed t) (stops : c.rest.head?.any Text.isBlank = false) :
    Runs t c (readFrom c.offset c.rest.head?) (some c.call.1) c.call.2 ∨
      ∃ more, c.rest = ':' :: more ∧
        Runs t c (readFrom c.offset c.rest.head?) none (c.forward 1) := by
  cases here : c.rest with
  | nil =>
    left
    rw [Cursor.call_of_rest_nil here]
    exact .pure _
  | cons a more =>
    have letter : Text.isBlank a = false := by simpa [here] using stops
    by_cases opening : a = '('
    · left
      subst opening
      rw [Cursor.call_of_rest_cons here rfl, here]
      exact .bind (runs_bump place) (.bind (runs_token place .lparen 1) (.pure _))
    by_cases closing : a = ')'
    · left
      subst closing
      rw [Cursor.call_of_rest_cons here rfl, here]
      exact .bind (runs_bump place) (.bind (runs_token place .rparen 1) (.pure _))
    by_cases colon : a = ':'
    · right
      subst colon
      exact ⟨more, rfl,
        .bind (runs_readLexeme_of_colon place here) (.bind (runs_bump place) (.pure _))⟩
    · left
      have starts : Token.isGap a = false := by simp [Token.isGap, letter, colon]
      have separates : Token.isSeparator a = false := by
        simp [Token.isSeparator, colon, opening, closing]
      have lexeme := runs_readLexeme place here separates
      rw [Cursor.call_of_rest_cons here starts]
      unfold readFrom
      split
      · contradiction
      · rename_i head
        exact absurd (Option.some.inj head) opening
      · rename_i head
        exact absurd (Option.some.inj head) closing
      · exact .bind lexeme (.pure _)

/-- A turn has the answer, or passes what belongs to no token. -/
theorem runs_turn (place : c.Placed t) :
    Runs t c turn (some c.call.1) c.call.2 ∨
      ∃ d, Runs t c turn none d ∧ d.Placed t ∧ c.offset < d.offset ∧
        d.rest.length < c.rest.length ∧ d.call = c.call := by
  obtain ⟨n, blanks, stops, skipped⟩ := runs_skipBlanks place
  have gaps : (c.rest.take n).all Token.isGap = true := by
    rw [List.all_eq_true] at blanks ⊢
    exact fun b mem => Token.isGap_of_isBlank (blanks b mem)
  have there := place.forward n
  rw [← Cursor.rest_forward] at stops
  rw [← Cursor.call_forward gaps]
  have run {answer : Option (Option Token)} {d : Cursor} (reads : Runs t (c.forward n)
      (readFrom (c.forward n).offset (c.forward n).rest.head?) answer d) : Runs t c turn answer d :=
    .bind skipped (.bind runs_position (.bind (runs_peek there) reads))
  rcases runs_readFrom there stops with last | ⟨more, here, first⟩
  · exact .inl (run last)
  · have gap : ((c.forward n).rest.take 1).all Token.isGap = true := by
      rw [here]
      rfl
    refine .inr ⟨_, run first, there.forward 1, ?_, ?_, Cursor.call_forward gap⟩
    · exact Nat.lt_of_le_of_lt (c.offset_le_forward n) (Cursor.offset_lt_forward here)
    · have shorter : (c.forward n).rest.length ≤ c.rest.length := by simp
      rw [here, List.length_cons] at shorter
      simp only [Cursor.rest_forward _ (c.forward n), here, List.length_drop, List.length_cons]
      omega

/-- The scanner answers with the token that is cut next. -/
theorem runs_next {c : Cursor} (place : c.Placed t) : Runs t c next c.call.1 c.call.2 := by
  rcases runs_turn place with last | ⟨d, first, placed, moved, shorter, same⟩
  · exact .answered last
  · -- What a turn without an answer passes is in the gap in front of the token.
    have more := runs_next placed
    rw [same] at more
    exact .again first moved placed.offset_le more
termination_by c.rest.length

/-- Calling again and again lists the tokens, and then nothing more. -/
theorem exists_runs_calls (place : c.Placed t) (n : Nat) :
    ∃ d, d.Placed t ∧ Runs t c (calls n) ((List.range n).map (c.tokens[·]?)) d := by
  induction n generalizing c with
  | zero => exact ⟨c, place, .pure _⟩
  | succ n ih =>
    obtain ⟨d, there, more⟩ := ih place.call
    obtain ⟨first, left⟩ := c.tokens_call
    have answers : (List.range (n + 1)).map (c.tokens[·]?) =
        c.call.1 :: (List.range n).map (c.call.2.tokens[·]?) := by
      rw [List.range_succ_eq_map, List.map_cons, List.map_map, first, left, List.head?_eq_getElem?]
      simp [Function.comp_def]
    rw [answers]
    exact ⟨d, there, .bind (runs_next place) (.bind more (.pure _))⟩

end Scanning

end

/-- However often a scanner is called, it slices the text between characters only, so that no slice
fails, and its answers are the tokens. And what is scanned as bytes, quoted strings and bodies, ends
where it ends in characters. -/
theorem Scanner.slices_on_boundary (t : Text) :
    (∀ n, ∃ s, Scanning.calls n (start t) = some ((List.range n).map ((tokenize t)[·]?), s) ∧
      Text.OnBoundary t s.position ∧ ∀ i ∈ s.sliced, i ≤ t.width ∧ Text.OnBoundary t i) ∧
    (∀ i j, (Text.slice? i j t).isSome ↔ i ≤ j ∧ Text.OnBoundary t i ∧ Text.OnBoundary t j) ∧
    (∀ k depth terminated, Body.stop t.utf8 (Text.width (t.take k)) depth terminated =
      (Text.width (t.take (Body.stop t k depth terminated).1),
        (Body.stop t k depth terminated).2)) ∧
    ∀ (quote : Char), quote.toNat < 0x80 → ∀ k,
      Body.findCloser t.utf8 (Text.width (t.take k)) (Text.byte quote) =
        (Body.findCloser t k quote).map fun j => Text.width (t.take j) := by
  refine ⟨?_, fun i j => Text.isSome_slice?_iff, fun k => Body.stop_utf8 t k, ?_⟩
  · intro n
    obtain ⟨d, place, runs⟩ := Scanning.exists_runs_calls (Cursor.placed_start t) n
    obtain ⟨s, run, follows⟩ := runs (start t) ⟨rfl, rfl, by simp [start]⟩
    obtain ⟨passed, whole, offset, -⟩ := place
    refine ⟨s, run, ⟨passed, _, whole, follows.position.trans offset⟩, ?_⟩
    exact fun i mem => ⟨(follows.sliced i mem).le_width, follows.sliced i mem⟩
  · exact fun quote ascii k => Body.findCloser_utf8 ascii t k

/-- A `)` and a character of three bytes in a quoted string. -/
theorem Scanner.slices_on_boundary_wide :
    let t : Text := "(content: \"→)\") 宋".toList
    (∃ s, Scanning.calls 5 (start t) = some ((List.range 5).map ((tokenize t)[·]?), s) ∧
      ∀ i ∈ s.sliced, i ≤ 21 ∧ Text.OnBoundary t i) ∧
    Body.stop t.utf8 8 0 true = (16, true) ∧
    '"'.toNat < 0x80 ∧ Body.findCloser t.utf8 11 (Text.byte '"') = some 15 := by
  intro t
  have ascii : '"'.toNat < 0x80 := by decide
  obtain ⟨calls, -, stop, closer⟩ := slices_on_boundary t
  refine ⟨?_, ?_, ascii, ?_⟩
  · obtain ⟨s, run, -, sliced⟩ := calls 5
    exact ⟨s, run, sliced⟩
  · have chars : Body.stop t 8 0 true = (14, true) := by
      rw [Body.stop_eq]
      decide
    have bytes := stop 8 0 true
    rw [chars] at bytes
    exact bytes
  · exact closer '"' ascii 11

end FeatureQuery
