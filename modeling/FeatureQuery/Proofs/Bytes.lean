import FeatureQuery.Proofs.Body

/-!
# Scanning bytes

The six marks are ASCII, and no byte of a wider character is: so bodies and quoted strings end at
the same place whether the characters of a text are scanned or its bytes.
-/

namespace FeatureQuery

theorem Mark.ofCode_of_le {n : Nat} (wide : 0x80 ≤ n) : Mark.ofCode n = .plain := by
  unfold Mark.ofCode
  split <;> first | omega | rfl

namespace Text

variable {c d : Char} {b : UInt8}

/-- The only byte of an ASCII character. -/
def byte (c : Char) : UInt8 := UInt8.ofNat c.toNat

@[simp] theorem utf8_nil : utf8 [] = [] := rfl

@[simp] theorem utf8_cons (c : Char) (t : Text) :
    utf8 (c :: t) = String.utf8EncodeChar c ++ utf8 t :=
  List.flatMap_cons

@[simp] theorem utf8_append (s t : Text) : utf8 (s ++ t) = utf8 s ++ utf8 t := by
  simp [utf8]

theorem utf8EncodeChar_of_ascii (ascii : c.toNat < 0x80) : String.utf8EncodeChar c = [byte c] := by
  have small : c.val.toNat ≤ 127 := Nat.le_of_lt_succ ascii
  simp only [String.utf8EncodeChar, if_pos small]
  rfl

theorem le_of_mem_utf8EncodeChar (wide : 0x80 ≤ c.toNat) (mem : b ∈ String.utf8EncodeChar c) :
    0x80 ≤ b.toNat := by
  have large : ¬c.val.toNat ≤ 127 := Nat.not_le.mpr wide
  have lead (n : Nat) (least : 0x80 ≤ n) (most : n < 0x100) : 0x80 ≤ (UInt8.ofNat n).toNat := by
    rw [UInt8.toNat_ofNat', Nat.mod_eq_of_lt most]
    exact least
  simp only [String.utf8EncodeChar, if_neg large] at mem
  split at mem
  · simp only [List.mem_cons, List.not_mem_nil, or_false] at mem
    rcases mem with rfl | rfl <;> exact lead _ (by omega) (by omega)
  split at mem
  · simp only [List.mem_cons, List.not_mem_nil, or_false] at mem
    rcases mem with rfl | rfl | rfl <;> exact lead _ (by omega) (by omega)
  · simp only [List.mem_cons, List.not_mem_nil, or_false] at mem
    rcases mem with rfl | rfl | rfl | rfl <;> exact lead _ (by omega) (by omega)

theorem toNat_byte (ascii : c.toNat < 0x80) : (byte c).toNat = c.toNat := by
  rw [byte, UInt8.toNat_ofNat']
  omega

theorem byte_inj (asciiC : c.toNat < 0x80) (asciiD : d.toNat < 0x80) : byte c = byte d ↔ c = d := by
  rw [← UInt8.toNat_inj, toNat_byte asciiC, toNat_byte asciiD, Char.toNat_inj]

theorem mark_byte (ascii : c.toNat < 0x80) : mark (byte c) = mark c := by
  show Mark.ofCode (byte c).toNat = Mark.ofCode c.toNat
  rw [toNat_byte ascii]

theorem ascii_of_mark (marked : mark c ≠ .plain) : c.toNat < 0x80 := by
  apply Nat.lt_of_not_le
  intro wide
  exact marked (Mark.ofCode_of_le wide)

end Text

namespace Body

open Text (byte utf8)

variable {quote a : Char} {content body rest : Text} {depth : Nat} {terminated : Bool}

theorem closerFrom_plain {q b : UInt8} (other : b ≠ q) (plain : mark b = .plain) (escaped : Bool)
    (more : List UInt8) :
    closerFrom q escaped (b :: more) = (closerFrom q false more).map (· + 1) := by
  simp [closerFrom, other, plain]

/-- No byte of a character beyond ASCII is one that is searched, or escapes one. -/
theorem closerFrom_wide (ascii : quote.toNat < 0x80) (wide : 0x80 ≤ a.toNat) (escaped : Bool)
    (more : List UInt8) : closerFrom (byte quote) escaped (String.utf8EncodeChar a ++ more) =
      (closerFrom (byte quote) false more).map (· + a.utf8Size) := by
  have other : ∀ b ∈ String.utf8EncodeChar a, b ≠ byte quote ∧ mark b = .plain := by
    intro b mem
    have least := Text.le_of_mem_utf8EncodeChar wide mem
    refine ⟨?_, Mark.ofCode_of_le least⟩
    rintro rfl
    rw [Text.toNat_byte ascii] at least
    omega
  rw [← String.length_utf8EncodeChar]
  obtain ⟨first, others, split⟩ :=
    List.exists_cons_of_ne_nil (String.utf8EncodeChar_ne_nil (c := a))
  rw [split] at other ⊢
  rw [List.forall_mem_cons] at other
  rw [List.cons_append, closerFrom_plain other.1.1 other.1.2]
  have later : closerFrom (byte quote) false (others ++ more) =
      (closerFrom (byte quote) false more).map (· + others.length) := by
    have all := other.2
    clear split other
    induction others with
    | nil => simp
    | cons b others ih =>
      rw [List.forall_mem_cons] at all
      rw [List.cons_append, closerFrom_plain all.1.1 all.1.2, ih all.2, Option.map_map]
      rfl
  rw [later, Option.map_map]
  rfl

/-- A quote is closed by the same character, seen as a byte. -/
theorem closerFrom_utf8 (ascii : quote.toNat < 0x80) (escaped : Bool) (t : Text) :
    closerFrom (byte quote) escaped (utf8 t) =
      (closerFrom quote escaped t).map fun k => Text.width (t.take k) := by
  induction t generalizing escaped with
  | nil => rfl
  | cons c t ih =>
    rw [Text.utf8_cons]
    rcases Nat.lt_or_ge c.toNat 0x80 with narrow | wide
    · rw [Text.utf8EncodeChar_of_ascii narrow, List.singleton_append, closerFrom, closerFrom]
      simp only [Text.byte_inj narrow ascii, Text.mark_byte narrow, ih]
      split
      · rfl
      · have size : c.utf8Size = 1 := by
          rw [← String.length_utf8EncodeChar, Text.utf8EncodeChar_of_ascii narrow]
          rfl
        simp [Option.map_map, Function.comp_def, size, Nat.add_comm]
    · have other : c ≠ quote := by
        rintro rfl
        omega
      have plain : mark c = .plain := Mark.ofCode_of_le wide
      rw [closerFrom_wide ascii wide, ih]
      simp [closerFrom, other, plain, Option.map_map, Function.comp_def, Nat.add_comm]

theorem closer_utf8 (ascii : quote.toNat < 0x80) (t : Text) :
    closer (byte quote) (utf8 t) = (closer quote t).map fun k => Text.width (t.take k) :=
  closerFrom_utf8 ascii false t

theorem Quoted.utf8 (closed : Quoted quote content) (ascii : quote.toNat < 0x80) :
    Quoted (byte quote) content.utf8 := by
  have bytes := closer_utf8 ascii (content ++ [quote])
  rw [Quoted] at closed
  rw [closed, Option.map_some, List.take_left, Text.utf8_append, Text.utf8_cons,
    Text.utf8EncodeChar_of_ascii ascii] at bytes
  rw [Quoted, Text.length_utf8]
  exact bytes

theorem Reads.plain {bytes more rest : List UInt8} (plain : ∀ b ∈ bytes, mark b = .plain)
    (reads : Reads depth more rest terminated) : Reads depth (bytes ++ more) rest terminated := by
  induction bytes with
  | nil => exact reads
  | cons b bytes ih =>
    rw [List.forall_mem_cons] at plain
    exact .letter (.inr plain.1) (ih plain.2)

/-- The bytes of a body are a body of bytes. -/
theorem Reads.utf8 (reads : Reads depth body rest terminated) :
    Reads depth body.utf8 rest.utf8 terminated := by
  have marked {a : Char} {k : Mark} (is : mark a = k) (other : k ≠ .plain) :
      String.utf8EncodeChar a = [byte a] ∧ mark (byte a) = k := by
    have ascii := Text.ascii_of_mark (is ▸ other)
    exact ⟨Text.utf8EncodeChar_of_ascii ascii, (Text.mark_byte ascii).trans is⟩
  induction reads with
  | ended => exact .ended
  | @stopped a rest closes =>
    obtain ⟨bytes, isMark⟩ := marked closes (by decide)
    rw [Text.utf8_cons, bytes]
    exact .stopped isMark
  | @quoted depth a content body rest terminated isQuote closed _ ih =>
    obtain ⟨bytes, isMark⟩ := marked isQuote (by decide)
    have ascii : a.toNat < 0x80 := Text.ascii_of_mark (by simp [isQuote])
    have whole : Text.utf8 (a :: (content ++ a :: body)) =
        byte a :: (Text.utf8 content ++ byte a :: Text.utf8 body) := by simp [bytes]
    rw [whole]
    exact .quoted isMark (closed.utf8 ascii) ih
  | @unclosed depth a body rest terminated isQuote found _ ih =>
    obtain ⟨bytes, isMark⟩ := marked isQuote (by decide)
    have ascii : a.toNat < 0x80 := Text.ascii_of_mark (by simp [isQuote])
    have none := closer_utf8 ascii (body ++ rest)
    rw [found, Text.utf8_append] at none
    rw [Text.utf8_cons, bytes]
    exact .unclosed isMark none ih
  | @opening depth a body rest terminated opens _ ih =>
    obtain ⟨bytes, isMark⟩ := marked opens (by decide)
    rw [Text.utf8_cons, bytes]
    exact .opening isMark ih
  | @closing depth a body rest terminated closes _ ih =>
    obtain ⟨bytes, isMark⟩ := marked closes (by decide)
    rw [Text.utf8_cons, bytes]
    exact .closing isMark ih
  | @letter depth a body rest terminated other _ ih =>
    rw [Text.utf8_cons]
    rcases Nat.lt_or_ge a.toNat 0x80 with narrow | wide
    · rw [Text.utf8EncodeChar_of_ascii narrow]
      exact .letter (by rwa [Text.mark_byte narrow]) ih
    · refine .plain ?_ ih
      intro b mem
      exact Mark.ofCode_of_le (Text.le_of_mem_utf8EncodeChar wide mem)

/-- The scan of the bytes ends where the scan of the characters does, and tells the same. -/
theorem scan_utf8 (depth : Nat) (t : Text) :
    (scan depth 0 t.utf8).length = Text.width (t.take (scan depth 0 t).length) ∧
      (scan depth 0 t.utf8).terminated = (scan depth 0 t).terminated := by
  obtain ⟨body, rest, terminated, rfl, reads⟩ := exists_reads depth t
  obtain ⟨length, same⟩ := scan_of_reads reads
  obtain ⟨bytes, sameBytes⟩ := scan_of_reads reads.utf8
  rw [Text.utf8_append, bytes, sameBytes, length, same, List.take_left, Text.length_utf8]
  exact ⟨rfl, rfl⟩

/-! ## By index -/

theorem drop_of_getElem? {α : Type} {letters : List α} {a : α} {i : Nat}
    (here : letters[i]? = some a) : letters.drop i = a :: letters.drop (i + 1) := by
  rw [List.drop_eq_getElem?_toList_append, here]
  rfl

section

variable {α : Type} [DecidableEq α] [Marked α] {letters : List α} {q a : α} {i k : Nat}

/-- The index of the first `quote` that an even run of escapes stands before. The letters start at
`i`, with a run of `escapes` just before. -/
def closeFrom (quote : α) (i escapes : Nat) : List α → Option Nat
  | [] => none
  | a :: rest =>
    if a = quote ∧ escapes % 2 = 0 then some i
    else closeFrom quote (i + 1) (if mark a = .escape then escapes + 1 else 0) rest

/-- Searches `quote` from the index `i` on. -/
def findCloser (letters : List α) (i : Nat) (quote : α) : Option Nat :=
  if i ≤ letters.length then closeFrom quote i 0 (letters.drop i) else none

theorem closeFrom_eq (quote : α) (i escapes : Nat) (letters : List α) :
    closeFrom quote i escapes letters =
      (closerFrom quote (escapes % 2 = 1) letters).map (i + ·) := by
  induction letters generalizing i escapes with
  | nil => rfl
  | cons a rest ih =>
    have parity : ¬decide (escapes % 2 = 1) = true ↔ escapes % 2 = 0 := by
      rw [decide_eq_true_eq]
      omega
    have next : decide ((if mark a = .escape then escapes + 1 else 0) % 2 = 1) =
        decide (mark a = .escape ∧ escapes % 2 = 0) := by
      split
      · rename_i escape
        simp only [escape, true_and, decide_eq_decide]
        omega
      · rename_i other
        simp [other]
    simp only [closeFrom, closerFrom, parity, ih, next]
    split
    · rfl
    · rw [Option.map_map]
      congr 1
      funext k
      simp only [Function.comp_apply]
      omega

theorem findCloser_eq (letters : List α) (i : Nat) (quote : α) :
    findCloser letters i quote = (closer quote (letters.drop i)).map (i + ·) := by
  unfold findCloser
  split
  · exact closeFrom_eq quote i 0 _
  · rw [List.drop_eq_nil_of_le (by omega)]
    rfl

theorem le_of_findCloser (found : findCloser letters i q = some k) : i ≤ k := by
  rw [findCloser_eq] at found
  obtain ⟨j, -, rfl⟩ := Option.map_eq_some_iff.mp found
  exact Nat.le_add_right i j

/-- Scans from the index `i` on, with `depth` parentheses open; `terminated` tells of the quotes
in front of it. The answer is where the scan stops, and whether every quote was closed. -/
def stop (letters : List α) (i depth : Nat) (terminated : Bool) : Nat × Bool :=
  match _here : letters[i]? with
  | none => (i, terminated)
  | some a =>
    match mark a with
    | .quote =>
      match _found : findCloser letters (i + 1) a with
      | some close => stop letters (close + 1) depth terminated
      | none => stop letters (i + 1) depth false
    | .opening => stop letters (i + 1) (depth + 1) terminated
    | .closing =>
      match depth with
      | 0 => (i, terminated)
      | depth + 1 => stop letters (i + 1) depth terminated
    | .escape | .plain => stop letters (i + 1) depth terminated
termination_by letters.length - i
decreasing_by
  all_goals
    have inside := (List.getElem?_eq_some_iff.mp _here).1
    try have later := le_of_findCloser _found
    omega

/-- The part behind a closed quote is scanned as if nothing were in front of it. -/
theorem scan_behind_closer (depth : Nat) (found : closer a letters = some k) :
    scan depth (k + 1) letters = (scan depth 0 (letters.drop (k + 1))).after (k + 1) := by
  obtain ⟨content, more, rfl, length, -⟩ := exists_quoted found
  have skipped := scan_quoted depth (content ++ [a]) more
  simp only [List.append_assoc, List.singleton_append, List.length_append, length,
    List.length_singleton] at skipped
  have behind : (content ++ a :: more).drop (k + 1) = more := by
    rw [List.append_cons, List.drop_left' (by simp [length])]
  rw [skipped, behind]

/-- The loop over indices stops where the scan of what follows does. -/
theorem stop_eq (letters : List α) (i depth : Nat) (terminated : Bool) :
    stop letters i depth terminated =
      (i + (scan depth 0 (letters.drop i)).length,
        terminated && (scan depth 0 (letters.drop i)).terminated) := by
  fun_induction stop letters i depth terminated with
  | case1 i depth terminated here =>
    rw [List.drop_eq_nil_of_le (List.getElem?_eq_none_iff.mp here)]
    simp [scan]
  | case2 i depth terminated a here isQuote close found ih =>
    rw [findCloser_eq] at found
    obtain ⟨k, closes, rfl⟩ := Option.map_eq_some_iff.mp found
    rw [ih, drop_of_getElem? here]
    simp only [scan, isQuote, closes, scan_behind_closer depth closes, List.drop_drop, Extent.after,
      ← Nat.add_assoc]
  | case3 i depth terminated a here isQuote found ih =>
    rw [findCloser_eq, Option.map_eq_none_iff] at found
    rw [ih, drop_of_getElem? here]
    simp [scan, isQuote, found, Extent.after, Extent.spoiled, Nat.add_assoc]
  | case4 i depth terminated a here opens ih =>
    rw [ih, drop_of_getElem? here]
    simp only [scan, opens, Extent.after, Nat.add_assoc]
  | case5 i terminated a here closes =>
    rw [drop_of_getElem? here]
    simp [scan, closes]
  | case6 i terminated a here closes depth ih =>
    rw [ih, drop_of_getElem? here]
    simp only [scan, closes, Extent.after, Nat.add_assoc]
  | case7 i depth terminated a here other ih | case8 i depth terminated a here other ih =>
    rw [ih, drop_of_getElem? here]
    simp only [scan, other, Extent.after, Nat.add_assoc]

theorem stop_of_reads (front : List α) {body rest : List α} {depth : Nat} {closed : Bool}
    (reads : Reads depth body rest closed) (terminated : Bool) :
    stop (front ++ (body ++ rest)) front.length depth terminated =
      ((front ++ body).length, terminated && closed) := by
  obtain ⟨length, same⟩ := scan_of_reads reads
  rw [stop_eq, List.drop_left, length, same, List.length_append]

end

theorem drop_utf8 (t : Text) (k : Nat) : t.utf8.drop (Text.width (t.take k)) = utf8 (t.drop k) := by
  conv => lhs; rw [← List.take_append_drop k t, Text.utf8_append]
  rw [List.take_append_drop]
  exact List.drop_left' (Text.length_utf8 _)

/-- The loop over the bytes ends with the loop over the characters. -/
theorem stop_utf8 (t : Text) (k depth : Nat) (terminated : Bool) :
    stop t.utf8 (Text.width (t.take k)) depth terminated =
      (Text.width (t.take (stop t k depth terminated).1), (stop t k depth terminated).2) := by
  obtain ⟨length, same⟩ := scan_utf8 depth (t.drop k)
  rw [stop_eq, stop_eq, drop_utf8, length, same, List.take_add, Text.width_append]

theorem findCloser_utf8 (ascii : quote.toNat < 0x80) (t : Text) (k : Nat) :
    findCloser t.utf8 (Text.width (t.take k)) (byte quote) =
      (findCloser t k quote).map fun j => Text.width (t.take j) := by
  rw [findCloser_eq, findCloser_eq, drop_utf8, closer_utf8 ascii, Option.map_map, Option.map_map]
  congr 1
  funext j
  rw [Function.comp_apply, Function.comp_apply, List.take_add, Text.width_append]

end Body

end FeatureQuery
