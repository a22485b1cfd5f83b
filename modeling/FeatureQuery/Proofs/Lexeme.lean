import FeatureQuery.Proofs.Body

/-!
# What a token can be

A token is a parenthesis, a keyword or a feature, and each has a shape of its own. `Lexed` lists the
shapes with what may follow them. Where a token starts, one of them fits, and the lexer reads it; a
text goes on with a token wherever it does not go on with a gap.
-/

namespace FeatureQuery

namespace Text

variable {p : Char → Bool} {rest : Text}

theorem takeWhile_eq_nil (stops : rest.head?.any p = false) : rest.takeWhile p = [] := by
  cases rest with
  | nil => rfl
  | cons c rest => simp_all

theorem takeWhile_append (stops : rest.head?.any p = false) (t : Text) :
    (t ++ rest).takeWhile p = t.takeWhile p := by
  cases rest with
  | nil => rw [List.append_nil]
  | cons c rest =>
    apply takeWhile_append_cons
    simpa using stops

theorem any_head?_dropWhile (p : Char → Bool) (t : Text) : (t.dropWhile p).head?.any p = false := by
  have head := List.head?_dropWhile_not p t
  cases found : (t.dropWhile p).head? with
  | none => rfl
  | some c =>
    rw [found] at head
    simpa using head

theorem dropStart?_eq_some_iff {start t after : Text} :
    dropStart? start t = some after ↔ t = start ++ after := by
  unfold dropStart?
  constructor
  · intro h
    split at h
    · rename_i isPrefix
      obtain ⟨more, rfl⟩ := List.isPrefixOf_iff_prefix.mp isPrefix
      simpa using h
    · cases h
  · rintro rfl
    have isPrefix := List.isPrefixOf_iff_prefix.mpr (List.prefix_append start after)
    rw [if_pos isPrefix, List.drop_left]

end Text

/-- The character that ends a name: a call has `(` there. -/
def Feature.separator (call : Bool) : Char := if call then '(' else ':'

/-- The feature with this name and body; a call takes its `)` with it. -/
def Feature.ofBody (call : Bool) (name body : Text) (terminated : Bool) : Feature where
  kind := if !terminated then .invalid else if call then .function else .declaration
  callForm := call
  left := name
  right := Text.trim (if call then Token.dropCloser body else body)

namespace Token

variable {kind : Kind} {name word raw rest : Text} {call : Bool}

/-- The longest word that a text starts with. -/
def leadingWord (t : Text) : Text := t.takeWhile isWordChar

/-- There is something left, and it is not a gap. -/
def Starts (t : Text) : Prop := ∃ c ∈ t.head?, isGap c = false

/-- A feature can end here. -/
def AtCloser (rest : Text) : Prop := ∀ c ∈ rest.head?, c = ')'

structure IsName (name : Text) : Prop where
  starts : Starts name
  free : ∀ c ∈ name, isSeparator c = false
  fresh : keywords.lookup (leadingWord name) = none

/-- Parentheses that are open where a body starts. -/
def bodyDepth (call : Bool) : Nat := if call then 1 else 0

/-- A text that starts with `raw`, and goes on with `rest`, starts with a token of this kind. -/
inductive Lexed : Kind → Text → Text → Prop where
  | opening {rest : Text} : Lexed .lparen ['('] rest
  | closing {rest : Text} : Lexed .rparen [')'] rest
  | keyword {kind : Kind} {word rest : Text} : (word, kind) ∈ keywords →
      rest.head?.any isWordChar = false → Lexed kind word rest
  | name {name rest : Text} : IsName name → AtCloser rest → Lexed (.feature (.bare name)) name rest
  | body {call : Bool} {name body rest : Text} {terminated : Bool} : IsName name →
      Body.Reads (bodyDepth call) body rest terminated →
      Lexed (.feature (.ofBody call name body terminated)) (name ++ Feature.separator call :: body)
        rest

theorem Starts.append (h : Starts raw) (rest : Text) : Starts (raw ++ rest) := by
  obtain ⟨c, head, starts⟩ := h
  exact ⟨c, by simp_all, starts⟩

theorem isGap_of_isBlank {c : Char} (h : Text.isBlank c = true) : isGap c = true := by
  simp [isGap, h]

theorem Starts.ne_nil (h : Starts raw) : raw ≠ [] := by
  rintro rfl
  obtain ⟨c, head, -⟩ := h
  cases head

theorem isWordChar_eq_false_of_isSeparator {c : Char} (h : isSeparator c = true) :
    isWordChar c = false := by
  simp only [isSeparator, Bool.or_eq_true, decide_eq_true_eq] at h
  rcases h with (rfl | rfl) | rfl <;> decide

theorem isWordChar_eq_false_of_isBlank {a : Char} (h : Text.isBlank a = true) :
    isWordChar a = false := by
  have other : a ≠ '_' := by
    rintro rfl
    revert h
    decide
  simp only [Text.isBlank, Text.blankRuns, List.any_cons, List.any_nil, Bool.or_false,
    Bool.or_eq_true, Bool.and_eq_true, decide_eq_true_eq] at h
  have upper : a.isUpper = false := by
    apply decide_eq_false
    rintro ⟨least, most⟩
    have least : 65 ≤ a.toNat := UInt32.le_iff_toNat_le.mp least
    have most : a.toNat ≤ 90 := UInt32.le_iff_toNat_le.mp most
    omega
  have lower : a.isLower = false := by
    apply Bool.eq_false_iff.mpr
    intro is
    obtain ⟨least, most⟩ := Bool.and_eq_true_iff.mp is
    have least : 97 ≤ a.toNat := UInt32.le_iff_toNat_le.mp (of_decide_eq_true least)
    have most : a.toNat ≤ 122 := UInt32.le_iff_toNat_le.mp (of_decide_eq_true most)
    omega
  have letter : a.isAlpha = false := Bool.or_eq_false_iff.mpr ⟨upper, lower⟩
  have digit : a.isDigit = false := by
    simp [Char.isDigit, UInt32.le_iff_toNat_le]
    omega
  simp [isWordChar, Char.isAlphanum, letter, digit, other]

theorem isWordChar_eq_false_of_isGap {a : Char} (h : isGap a = true) : isWordChar a = false := by
  rw [isGap, Bool.or_eq_true, decide_eq_true_eq] at h
  rcases h with blank | rfl
  · exact isWordChar_eq_false_of_isBlank blank
  · decide

theorem isSeparator_separator (call : Bool) : isSeparator (Feature.separator call) = true := by
  cases call <;> decide

theorem AtCloser.eq_nil_or_cons (h : AtCloser rest) : rest = [] ∨ ∃ more, rest = ')' :: more := by
  cases rest with
  | nil => exact .inl rfl
  | cons c more =>
    obtain rfl : c = ')' := h c rfl
    exact .inr ⟨more, rfl⟩

theorem AtCloser.stopsWord (h : AtCloser rest) : rest.head?.any isWordChar = false := by
  rcases h.eq_nil_or_cons with rfl | ⟨more, rfl⟩
  · rfl
  · rfl

theorem mem_keywords_cases (listed : (word, kind) ∈ keywords) :
    (∀ c ∈ word, isWordChar c = true) ∧ ∃ c ∈ word.head?, isGap c = false ∧ c ≠ '(' ∧ c ≠ ')' := by
  simp only [keywords, List.mem_cons, List.not_mem_nil, or_false, Prod.mk.injEq] at listed
  rcases listed with ⟨rfl, -⟩ | ⟨rfl, -⟩ | ⟨rfl, -⟩
  · exact ⟨List.all_eq_true.mp (by decide), 'n', by decide⟩
  · exact ⟨List.all_eq_true.mp (by decide), 'a', by decide⟩
  · exact ⟨List.all_eq_true.mp (by decide), 'o', by decide⟩

theorem leadingWord_append (whole : ∀ c ∈ word, isWordChar c = true)
    (stops : rest.head?.any isWordChar = false) : leadingWord (word ++ rest) = word := by
  rw [leadingWord, List.takeWhile_append_of_pos whole, Text.takeWhile_eq_nil stops,
    List.append_nil]

/-- A keyword is recognised when it is the whole word that a text starts with. -/
theorem keyword?_none (t : Text) : keyword? none t =
    (keywords.lookup (leadingWord t)).map fun kind => (kind, (leadingWord t).length) := by
  have words : ∀ found ∈ keywords, ∀ c ∈ found.1, isWordChar c = true := by
    rintro ⟨word, kind⟩ listed
    exact (mem_keywords_cases listed).1
  unfold keyword?
  rw [if_neg (by simp)]
  generalize keywords = list at words
  induction list with
  | nil => rfl
  | cons found list ih =>
    obtain ⟨word, kind⟩ := found
    rw [List.forall_mem_cons] at words
    rw [List.findSome?_cons, List.lookup_cons, ih words.2]
    by_cases same : leadingWord t = word
    · have after : t = word ++ t.dropWhile isWordChar := by
        rw [← same]
        exact List.takeWhile_append_dropWhile.symm
      simp [same, Text.dropStart?_eq_some_iff.mpr after, Text.any_head?_dropWhile]
    · have other : (leadingWord t == word) = false := by simpa using same
      cases found : Text.dropStart? word t with
      | none => simp [other, found]
      | some after =>
        by_cases goesOn : after.head?.any isWordChar = true
        · simp [other, found, goesOn]
        · rw [Text.dropStart?_eq_some_iff] at found
          rw [Bool.not_eq_true] at goesOn
          subst found
          exact absurd (leadingWord_append words.1 goesOn) same

theorem keyword?_of_not_word {before : Option Char} {t : Text}
    (stops : t.head?.any isWordChar = false) : keyword? before t = none := by
  by_cases word : before.any isWordChar = true
  · rw [keyword?, if_pos word]
  · have fresh := keyword?_none t
    rw [leadingWord, Text.takeWhile_eq_nil stops, keyword?, if_neg (by simp)] at fresh
    rw [keyword?, if_neg word, fresh]
    rfl

/-- Where no parenthesis stands, a keyword is looked for, and then a feature. -/
theorem lexeme_of_letter {before : Option Char} {a : Char} {t : Text} (opening : a ≠ '(')
    (closing : a ≠ ')') : lexeme before (a :: t) =
      (keyword? before (a :: t)).getD (.feature (feature (a :: t)).1, (feature (a :: t)).2) := by
  unfold lexeme
  split
  · rename_i head
    exact absurd (Option.some.inj head) opening
  · rename_i head
    exact absurd (Option.some.inj head) closing
  · cases keyword? before (a :: t) <;> rfl

theorem lexeme_of_head {a : Char} {t : Text} (opening : a ≠ '(') (closing : a ≠ ')') :
    lexeme none (a :: t) = match keywords.lookup (leadingWord (a :: t)) with
      | some kind => (kind, (leadingWord (a :: t)).length)
      | none => (.feature (feature (a :: t)).1, (feature (a :: t)).2) := by
  rw [lexeme_of_letter opening closing, keyword?_none]
  cases keywords.lookup (leadingWord (a :: t)) <;> rfl

theorem split_name (free : ∀ c ∈ name, isSeparator c = false)
    (stops : rest.head?.all isSeparator = true) :
    (name ++ rest).takeWhile (!isSeparator ·) = name ∧
      (name ++ rest).dropWhile (!isSeparator ·) = rest := by
  have whole : ∀ c ∈ name, (!isSeparator c) = true := by simpa using free
  rw [List.takeWhile_append_of_pos whole, List.dropWhile_append_of_pos whole]
  cases rest with
  | nil => simp
  | cons c rest => simp_all

theorem feature_of_name (free : ∀ c ∈ name, isSeparator c = false) (ends : AtCloser rest) :
    feature (name ++ rest) = (.bare name, name.length) := by
  have stops : rest.head?.all isSeparator = true := by
    rcases ends.eq_nil_or_cons with rfl | ⟨more, rfl⟩
    · rfl
    · rfl
  obtain ⟨before, after⟩ := split_name free stops
  unfold feature
  rw [before, after]
  rcases ends.eq_nil_or_cons with rfl | ⟨more, rfl⟩
  · rfl
  · rfl

theorem feature_of_body {body : Text} {terminated : Bool}
    (free : ∀ c ∈ name, isSeparator c = false)
    (reads : Body.Reads (bodyDepth call) body rest terminated) :
    feature (name ++ Feature.separator call :: body ++ rest) =
      (.ofBody call name body terminated,
        (name ++ Feature.separator call :: body).length) := by
  obtain ⟨length, closed⟩ := Body.scan_of_reads reads
  have separates := isSeparator_separator call
  have stops : (Feature.separator call :: (body ++ rest)).head?.all isSeparator = true := by
    simpa using separates
  have parts := split_name free stops
  have total : (name ++ Feature.separator call :: body).length = name.length + 1 + body.length := by
    simp only [List.length_append, List.length_cons]
    omega
  rw [total, List.append_assoc, List.cons_append]
  unfold feature
  rw [parts.1, parts.2]
  cases call <;> cases terminated <;>
    simp_all [bodyDepth, Feature.separator, Feature.ofBody]

theorem leadingWord_name (name : Text) (stops : rest.head?.any isWordChar = false) :
    leadingWord (name ++ rest) = leadingWord name :=
  Text.takeWhile_append stops name

/-- Where a name starts, the lexer reads a feature. -/
theorem lexeme_name (is : IsName name) (stops : rest.head?.any isWordChar = false) :
    lexeme none (name ++ rest) =
      (.feature (feature (name ++ rest)).1, (feature (name ++ rest)).2) := by
  obtain ⟨a, head, -⟩ := is.starts
  obtain ⟨name', rfl⟩ := List.head?_eq_some_iff.mp head
  have free := is.free a (List.mem_cons_self ..)
  have opening : a ≠ '(' := by
    rintro rfl
    cases free
  have closing : a ≠ ')' := by
    rintro rfl
    cases free
  have fresh := is.fresh
  rw [← leadingWord_name _ stops] at fresh
  rw [List.cons_append] at fresh ⊢
  rw [lexeme_of_head opening closing, fresh]

theorem lookup_of_mem_keywords (listed : (word, kind) ∈ keywords) :
    keywords.lookup word = some kind := by
  simp only [keywords, List.mem_cons, List.not_mem_nil, or_false, Prod.mk.injEq] at listed
  rcases listed with ⟨rfl, rfl⟩ | ⟨rfl, rfl⟩ | ⟨rfl, rfl⟩ <;> rfl

theorem mem_keywords_of_lookup (found : keywords.lookup word = some kind) :
    (word, kind) ∈ keywords := by
  obtain ⟨before, after, split, -⟩ := List.lookup_eq_some_iff.mp found
  rw [split]
  simp

theorem Lexed.starts (h : Lexed kind raw rest) : Starts raw := by
  cases h with
  | opening => exact ⟨'(', rfl, by decide⟩
  | closing => exact ⟨')', rfl, by decide⟩
  | keyword listed _ =>
    obtain ⟨-, c, head, starts, -⟩ := mem_keywords_cases listed
    exact ⟨c, head, starts⟩
  | name is _ => exact is.starts
  | body is _ => exact is.starts.append _

/-- The lexer reads every token of the list of shapes. -/
theorem lexeme_of_lexed (h : Lexed kind raw rest) :
    lexeme none (raw ++ rest) = (kind, raw.length) := by
  cases h with
  | opening => rfl
  | closing => rfl
  | keyword listed stops =>
    obtain ⟨whole, a, head, -, opening, closing⟩ := mem_keywords_cases listed
    have word := leadingWord_append whole stops
    obtain ⟨more, rfl⟩ := List.head?_eq_some_iff.mp head
    rw [List.cons_append] at word ⊢
    rw [lexeme_of_head opening closing, word, lookup_of_mem_keywords listed]
  | name is ends => rw [lexeme_name is ends.stopsWord, feature_of_name is.free ends]
  | @body call name body rest terminated is reads =>
    have stops : (Feature.separator call :: body ++ rest).head?.any isWordChar = false :=
      isWordChar_eq_false_of_isSeparator (isSeparator_separator call)
    have found := feature_of_body is.free reads
    rw [List.append_assoc] at found ⊢
    rw [lexeme_name is stops, found]

theorem atCloser_of_reads {depth : Nat} {body : Text} {terminated : Bool}
    (reads : Body.Reads depth body rest terminated) : AtCloser rest := by
  intro c head
  exact eq_of_mark (reads.closes c head) (.inr (.inr rfl))

/-- A text that does not start with a separator starts with a name. -/
theorem exists_name_append {a : Char} (t : Text) (letter : isSeparator a = false) :
    ∃ name rest : Text, a :: t = (a :: name) ++ rest ∧ (∀ b ∈ a :: name, isSeparator b = false) ∧
      rest.head?.all isSeparator = true := by
  have letters := List.all_takeWhile (p := (!isSeparator ·)) (l := t)
  have any := Text.any_head?_dropWhile (!isSeparator ·) t
  rw [List.all_eq_true] at letters
  refine ⟨t.takeWhile (!isSeparator ·), t.dropWhile (!isSeparator ·), ?_, ?_, ?_⟩
  · rw [List.cons_append, List.takeWhile_append_dropWhile]
  · rw [List.forall_mem_cons]
    exact ⟨letter, by simpa using letters⟩
  · cases found : (t.dropWhile (!isSeparator ·)).head? <;> simp_all

/-- Behind a name the feature ends, or there is a body. -/
theorem atCloser_or_body (stops : rest.head?.all isSeparator = true) :
    AtCloser rest ∨ ∃ call body after terminated, rest = Feature.separator call :: (body ++ after) ∧
      Body.Reads (bodyDepth call) body after terminated := by
  cases rest with
  | nil => exact .inl (by simp [AtCloser])
  | cons c more =>
    have bodied (call : Bool) (is : c = Feature.separator call) :
        ∃ call body after terminated, c :: more = Feature.separator call :: (body ++ after) ∧
          Body.Reads (bodyDepth call) body after terminated := by
      obtain ⟨body, after, terminated, rfl, reads⟩ := Body.exists_reads (bodyDepth call) more
      exact ⟨call, body, after, terminated, by rw [is], reads⟩
    simp only [List.head?_cons, Option.all_some, isSeparator, Bool.or_eq_true,
      decide_eq_true_eq] at stops
    rcases stops with (colon | opening) | closes
    · exact .inr (bodied false colon)
    · exact .inr (bodied true opening)
    · exact .inl (by simpa [AtCloser] using closes)

theorem exists_name {a : Char} {t : Text} (starts : isGap a = false) (opening : a ≠ '(')
    (closing : a ≠ ')') (fresh : keywords.lookup (leadingWord (a :: t)) = none) :
    ∃ name rest, a :: t = name ++ rest ∧ IsName name ∧ rest.head?.all isSeparator = true := by
  have letter : isSeparator a = false := by simp_all [isGap, isSeparator]
  obtain ⟨name, rest, whole, free, stops⟩ := exists_name_append t letter
  have noWord : rest.head?.any isWordChar = false := by
    cases found : rest.head? with
    | none => rfl
    | some c =>
      rw [found] at stops
      exact isWordChar_eq_false_of_isSeparator stops
  refine ⟨a :: name, rest, whole, ⟨⟨a, rfl, starts⟩, free, ?_⟩, stops⟩
  rw [← leadingWord_name _ noWord, ← whole, fresh]

/-- The lexer knows no other shape. -/
theorem exists_lexed {t : Text} (starts : Starts t) :
    ∃ kind raw rest, t = raw ++ rest ∧ Lexed kind raw rest := by
  obtain ⟨a, head, notGap⟩ := starts
  obtain ⟨t, rfl⟩ := List.head?_eq_some_iff.mp head
  by_cases opening : a = '('
  · subst opening
    exact ⟨_, _, t, rfl, .opening⟩
  by_cases closing : a = ')'
  · subst closing
    exact ⟨_, _, t, rfl, .closing⟩
  cases found : keywords.lookup (leadingWord (a :: t)) with
  | some kind =>
    refine ⟨kind, leadingWord (a :: t), (a :: t).dropWhile isWordChar, ?_, ?_⟩
    · exact List.takeWhile_append_dropWhile.symm
    · exact .keyword (mem_keywords_of_lookup found) (Text.any_head?_dropWhile _ _)
  | none =>
    obtain ⟨name, rest, whole, is, stops⟩ := exists_name notGap opening closing found
    rw [whole]
    rcases atCloser_or_body stops with ends | ⟨call, body, after, terminated, rfl, reads⟩
    · exact ⟨_, name, rest, rfl, .name is ends⟩
    · exact ⟨_, _, after, by simp, .body is reads⟩

end Token

end FeatureQuery
