import FeatureQuery.Proofs.Layout
import FeatureQuery.Proofs.Reading

/-!
# Letter case in features

Lowercase letters of a feature may be put in uppercase: the feature stays where it is and keeps its
key, and it does not turn into a keyword, since keywords are lowercase. The other way round is not
true. `AND (b: 2)` is a feature, and in lowercase it starts with a keyword.
-/

namespace FeatureQuery

open Token (isGap isWordChar isSeparator AtCloser IsName Lexed)

/-- The second character does for the first wherever letter case does not matter. It can only be
lowercase where it is the first. -/
structure Alike (a b : Char) : Prop where
  size : b.utf8Size = a.utf8Size
  blank : Text.isBlank b = Text.isBlank a
  separator : isSeparator b = isSeparator a
  word : isWordChar b = isWordChar a
  marked : mark b = mark a
  lowered : Text.lowerChar b = Text.lowerChar a
  lowercase : b.isLower = true → b = a
  same_or_letter : b = a ∨ isWordChar a = true ∧ mark a = .plain

/-- The second text is the first, which starts at byte `n`, with some lowercase letters of ASCII in
uppercase, where `Free` allows it. -/
inductive Raised (Free : Nat → Prop) : Nat → Text → Text → Prop where
  | nil {n : Nat} : Raised Free n [] []
  | keep {n : Nat} {c : Char} {t t' : Text} : Raised Free (n + c.utf8Size) t t' →
      Raised Free n (c :: t) (c :: t')
  | raise {n : Nat} {c : Char} {t t' : Text} : Free n → c.isLower = true →
      Raised Free (n + c.utf8Size) t t' → Raised Free n (c :: t) (c.toUpper :: t')

variable {Free : Nat → Prop} {n : Nat} {a c : Char} {t t' first first' second second' : Text}
  {raw raw' rest rest' : Text}

theorem exists_ofNat_of_isLower (lower : c.isLower = true) : ∃ i < 26, c = Char.ofNat (97 + i) := by
  obtain ⟨least, most⟩ := Bool.and_eq_true_iff.mp lower
  have least : 97 ≤ c.toNat := UInt32.le_iff_toNat_le.mp (of_decide_eq_true least)
  have most : c.toNat ≤ 122 := UInt32.le_iff_toNat_le.mp (of_decide_eq_true most)
  refine ⟨c.toNat - 97, by omega, ?_⟩
  rw [Nat.add_sub_cancel' least, Char.ofNat_toNat]

namespace Alike

theorem refl (a : Char) : Alike a a :=
  ⟨rfl, rfl, rfl, rfl, rfl, rfl, fun _ => rfl, .inl rfl⟩

theorem toUpper (lower : c.isLower = true) : Alike c c.toUpper := by
  have checked : ∀ i < 26, let a := Char.ofNat (97 + i)
      a.toUpper.utf8Size = a.utf8Size ∧ Text.isBlank a.toUpper = Text.isBlank a ∧
      isSeparator a.toUpper = isSeparator a ∧ isWordChar a.toUpper = isWordChar a ∧
      mark a.toUpper = mark a ∧ Text.lowerChar a.toUpper = Text.lowerChar a ∧
      a.toUpper.isLower = false ∧ isWordChar a = true ∧ mark a = .plain := by
    decide +kernel
  obtain ⟨i, inside, rfl⟩ := exists_ofNat_of_isLower lower
  obtain ⟨size, blank, separator, word, marked, lowered, upper, letter⟩ := checked i inside
  refine ⟨size, blank, separator, word, marked, lowered, ?_, .inr letter⟩
  intro lower
  rw [upper] at lower
  cases lower

theorem eq_of_not_word (alike : Alike c a) (other : isWordChar c = false) : a = c := by
  rcases alike.same_or_letter with same | ⟨letter, -⟩
  · exact same
  · rw [other] at letter
    cases letter

theorem eq_quote_iff (alike : Alike c a) {quote : Char} (isQuote : mark quote = .quote) :
    a = quote ↔ c = quote := by
  have marked := alike.marked
  rcases alike.same_or_letter with rfl | ⟨-, plain⟩
  · rfl
  · rw [plain] at marked
    constructor
    · rintro rfl
      rw [isQuote] at marked
      cases marked
    · rintro rfl
      rw [isQuote] at plain
      cases plain

theorem isGap_eq (alike : Alike c a) : isGap a = isGap c := by
  have word := alike.word
  rcases alike.same_or_letter with rfl | ⟨letter, -⟩
  · rfl
  · rw [letter] at word
    have notGap {b : Char} (isWord : isWordChar b = true) : isGap b = false := by
      cases gap : isGap b with
      | false => rfl
      | true =>
        rw [Token.isWordChar_eq_false_of_isGap gap] at isWord
        cases isWord
    rw [notGap letter, notGap word]

end Alike

namespace Raised

/-- Character by character, a raised text is alike. -/
@[elab_as_elim]
theorem alike_induction {motive : ∀ n t t', Raised Free n t t' → Prop}
    (nil : ∀ n, motive n [] [] .nil)
    (cons : ∀ n c a t t' tail whole, Alike c a → motive (n + c.utf8Size) t t' tail →
      motive n (c :: t) (a :: t') whole)
    (h : Raised Free n t t') : motive n t t' h := by
  induction h with
  | nil => exact nil _
  | keep tail ih => exact cons _ _ _ _ _ tail _ (.refl _) ih
  | raise _ lower tail ih => exact cons _ _ _ _ _ tail _ (.toUpper lower) ih

theorem exists_cons (h : Raised Free n (c :: t) t') : ∃ a after,
    t' = a :: after ∧ Alike c a ∧ Raised Free (n + c.utf8Size) t after := by
  cases h with
  | keep tail => exact ⟨c, _, rfl, .refl c, tail⟩
  | raise _ lower tail => exact ⟨_, _, rfl, .toUpper lower, tail⟩

/-- What is no letter is left as it is. -/
theorem exists_cons_same (h : Raised Free n (c :: t) t') (other : isWordChar c = false) :
    ∃ after, t' = c :: after ∧ Raised Free (n + c.utf8Size) t after := by
  obtain ⟨a, after, rfl, alike, tail⟩ := h.exists_cons
  exact ⟨after, by rw [alike.eq_of_not_word other], tail⟩

theorem refl (t : Text) : Raised Free n t t := by
  induction t generalizing n with
  | nil => exact .nil
  | cons c t ih => exact .keep ih

theorem append (front : Raised Free n first first')
    (back : Raised Free (n + first.width) second second') :
    Raised Free n (first ++ second) (first' ++ second') := by
  induction front with
  | nil => exact back
  | keep _ ih =>
    rw [Text.width_cons, ← Nat.add_assoc] at back
    exact .keep (ih back)
  | raise free lower _ ih =>
    rw [Text.width_cons, ← Nat.add_assoc] at back
    exact .raise free lower (ih back)

theorem exists_append (h : Raised Free n (first ++ second) t') : ∃ first' second',
    t' = first' ++ second' ∧ Raised Free n first first' ∧
      Raised Free (n + first.width) second second' := by
  induction first generalizing n t' with
  | nil => exact ⟨[], t', rfl, .nil, h⟩
  | cons c first ih =>
    rw [Text.width_cons, ← Nat.add_assoc]
    cases h with
    | keep tail =>
      obtain ⟨first', second', rfl, front, back⟩ := ih tail
      exact ⟨c :: first', second', rfl, .keep front, back⟩
    | raise free lower tail =>
      obtain ⟨first', second', rfl, front, back⟩ := ih tail
      exact ⟨c.toUpper :: first', second', rfl, .raise free lower front, back⟩

/-- Where nothing is free, no letter is raised. -/
theorem eq_of_fixed (fixed : ∀ p, n ≤ p → p < n + t.width → ¬Free p) (h : Raised Free n t t') :
    t' = t := by
  induction h with
  | nil => rfl
  | @keep n c t t' _ ih =>
    rw [ih]
    intro p least inside
    apply fixed p (by omega)
    rw [Text.width_cons]
    omega
  | @raise n c t t' free _ _ _ =>
    have pos := c.utf8Size_pos
    exfalso
    apply fixed n (Nat.le_refl n) _ free
    rw [Text.width_cons]
    omega

theorem width_eq (h : Raised Free n t t') : t'.width = t.width := by
  induction h using alike_induction with
  | nil => rfl
  | cons n c a t t' _ _ alike ih => rw [Text.width_cons, Text.width_cons, alike.size, ih]

theorem length_eq (h : Raised Free n t t') : t'.length = t.length := by
  induction h with
  | nil => rfl
  | keep _ ih | raise _ _ _ ih => rw [List.length_cons, List.length_cons, ih]

theorem allBlank_eq (h : Raised Free n t t') : t'.allBlank = t.allBlank := by
  induction h using alike_induction with
  | nil => rfl
  | cons n c a t t' _ _ alike ih =>
    rw [Text.allBlank, List.all_cons, alike.blank, ← Text.allBlank, ih]
    rfl

theorem normalize_eq (h : Raised Free n t t') : Key.normalize t' = Key.normalize t := by
  induction h using alike_induction with
  | nil => rfl
  | cons n c a t t' _ _ alike ih =>
    have head : Key.normalize [a] = Key.normalize [c] := by
      cases blank : Text.isBlank c <;>
        simp [Key.normalize, Text.lower, alike.blank, alike.lowered, blank]
    have split (b : Char) (s : Text) := Key.normalize_append [b] s
    simp only [List.singleton_append] at split
    rw [split a, split c, head, ih]

/-- A raised letter is not lowercase any more. -/
theorem eq_of_isLower (all : ∀ a ∈ t', a.isLower = true) (h : Raised Free n t t') : t' = t := by
  induction h using alike_induction with
  | nil => rfl
  | cons n c a t t' _ _ alike ih =>
    rw [List.forall_mem_cons] at all
    rw [alike.lowercase all.1, ih all.2]

theorem eq_of_all_isGap (gaps : t.all isGap = true) (h : Raised Free n t t') : t' = t := by
  induction h using alike_induction with
  | nil => rfl
  | cons n c a t t' _ _ alike ih =>
    rw [List.all_cons, Bool.and_eq_true] at gaps
    rw [alike.eq_of_not_word (Token.isWordChar_eq_false_of_isGap gaps.1), ih gaps.2]

theorem any_head?_isWordChar (h : Raised Free n t t') :
    t'.head?.any isWordChar = t.head?.any isWordChar := by
  cases h using alike_induction with
  | nil => rfl
  | cons n c a t t' _ _ alike => exact alike.word

theorem leadingWord (h : Raised Free n t t') :
    Raised Free n (Token.leadingWord t) (Token.leadingWord t') := by
  induction h with
  | nil => exact .nil
  | @keep n c t t' _ ih =>
    cases word : isWordChar c with
    | false => simpa [Token.leadingWord, word] using nil
    | true => simpa [Token.leadingWord, word] using keep ih
  | @raise n c t t' free lower _ ih =>
    have same := (Alike.toUpper lower).word
    cases word : isWordChar c with
    | false => simpa [Token.leadingWord, same, word] using nil
    | true => simpa [Token.leadingWord, same, word] using raise free lower ih

theorem atCloser (ends : AtCloser t) (h : Raised Free n t t') : AtCloser t' := by
  rcases ends.eq_nil_or_cons with rfl | ⟨more, rfl⟩
  · cases h
    exact ends
  · obtain ⟨after, rfl, -⟩ := h.exists_cons_same rfl
    exact ends

end Raised

namespace Body

variable {quote : Char} {escaped : Bool}

/-- Where a quoted string ends does not depend on letter case. -/
theorem closerFrom_raised (isQuote : mark quote = .quote) (h : Raised Free n t t') :
    closerFrom quote escaped t' = closerFrom quote escaped t := by
  induction h using Raised.alike_induction generalizing escaped with
  | nil => rfl
  | cons n c a t t' _ _ alike ih =>
    simp only [closerFrom, alike.eq_quote_iff isQuote, alike.marked, ih]

theorem Quoted.raised {content content' : Text} (isQuote : mark quote = .quote)
    (closed : Quoted quote content) (h : Raised Free n content content') :
    Quoted quote content' := by
  rw [Quoted, closer, closerFrom_raised isQuote (h.append (.refl [quote])), h.length_eq]
  exact closed

theorem Reads.raised {depth : Nat} {body body' : Text} {terminated : Bool}
    (reads : Reads depth body rest terminated) (front : Raised Free n body body')
    (back : Raised Free (n + body.width) rest rest') : Reads depth body' rest' terminated := by
  induction reads generalizing n body' with
  | ended =>
    cases front
    cases back
    exact .ended
  | stopped closes =>
    cases front
    obtain ⟨a, after, rfl, alike, -⟩ := back.exists_cons
    exact .stopped (alike.marked.trans closes)
  | @quoted depth a content body rest terminated isQuote closed _ ih =>
    rw [Text.width_cons, Text.width_append, Text.width_cons] at back
    obtain ⟨b, after, rfl, alike, tail⟩ := front.exists_cons
    obtain ⟨content', after, rfl, content, tail⟩ := tail.exists_append
    obtain ⟨d, body', rfl, last, tail⟩ := tail.exists_cons
    obtain rfl := (alike.eq_quote_iff isQuote).mpr rfl
    obtain rfl := (last.eq_quote_iff isQuote).mpr rfl
    refine .quoted isQuote (closed.raised isQuote content) (ih tail ?_)
    simpa only [Nat.add_assoc] using back
  | @unclosed depth a body rest terminated isQuote none _ ih =>
    rw [Text.width_cons, ← Nat.add_assoc] at back
    obtain ⟨b, body', rfl, alike, tail⟩ := front.exists_cons
    obtain rfl := (alike.eq_quote_iff isQuote).mpr rfl
    refine .unclosed isQuote ?_ (ih tail back)
    rw [closer, closerFrom_raised isQuote (tail.append back)]
    exact none
  | opening opens _ ih =>
    rw [Text.width_cons, ← Nat.add_assoc] at back
    obtain ⟨b, body', rfl, alike, tail⟩ := front.exists_cons
    exact .opening (alike.marked.trans opens) (ih tail back)
  | closing closes _ ih =>
    rw [Text.width_cons, ← Nat.add_assoc] at back
    obtain ⟨b, body', rfl, alike, tail⟩ := front.exists_cons
    exact .closing (alike.marked.trans closes) (ih tail back)
  | letter other _ ih =>
    rw [Text.width_cons, ← Nat.add_assoc] at back
    obtain ⟨b, body', rfl, alike, tail⟩ := front.exists_cons
    rw [← alike.marked] at other
    exact .letter other (ih tail back)

end Body

namespace Token

variable {kind : Kind} {name name' : Text}

/-- Of a feature only how it was recognised. -/
def Kind.form : Kind → Kind
  | .feature f => .feature ⟨f.kind, f.callForm, [], []⟩
  | kind => kind

theorem isLower_of_mem_keywords {word : Text} (listed : (word, kind) ∈ keywords) :
    ∀ a ∈ word, a.isLower = true := by
  simp only [keywords, List.mem_cons, List.not_mem_nil, or_false, Prod.mk.injEq] at listed
  rcases listed with ⟨rfl, -⟩ | ⟨rfl, -⟩ | ⟨rfl, -⟩ <;> exact List.all_eq_true.mp (by decide)

/-- A raised name starts with no keyword, or it would have started with that one before. -/
theorem IsName.raised (is : IsName name) (h : Raised Free n name name') : IsName name' := by
  refine ⟨?_, ?_, ?_⟩
  · obtain ⟨c, head, starts⟩ := is.starts
    obtain ⟨more, rfl⟩ := List.head?_eq_some_iff.mp head
    obtain ⟨a, after, rfl, alike, -⟩ := h.exists_cons
    exact ⟨a, rfl, alike.isGap_eq.trans starts⟩
  · have free := is.free
    clear is
    induction h using Raised.alike_induction with
    | nil => exact free
    | cons n c a t t' _ _ alike ih =>
      rw [List.forall_mem_cons] at free ⊢
      exact ⟨alike.separator.trans free.1, ih free.2⟩
  · cases found : keywords.lookup (leadingWord name') with
    | none => rfl
    | some kind =>
      have lower := isLower_of_mem_keywords (mem_keywords_of_lookup found)
      have fresh := is.fresh
      rw [← h.leadingWord.eq_of_isLower lower, found] at fresh
      cases fresh

/-- A token that is a feature may be raised; any other has to stay as it is. -/
theorem Lexed.raised (lexed : Lexed kind raw rest) (front : Raised Free n raw raw')
    (back : Raised Free (n + raw.width) rest rest')
    (fixed : (∀ f, kind ≠ .feature f) → raw' = raw) :
    ∃ kind', Lexed kind' raw' rest' ∧ kind'.form = kind.form := by
  cases lexed with
  | opening =>
    obtain rfl := fixed (by simp)
    exact ⟨_, .opening, rfl⟩
  | closing =>
    obtain rfl := fixed (by simp)
    exact ⟨_, .closing, rfl⟩
  | keyword listed stops =>
    obtain rfl := fixed (kind_ne_feature_of_mem_keywords listed)
    exact ⟨_, .keyword listed (back.any_head?_isWordChar.trans stops), rfl⟩
  | name is ends => exact ⟨_, .name (is.raised front) (back.atCloser ends), rfl⟩
  | @body call name body rest terminated is reads =>
    obtain ⟨name', after, rfl, name, tail⟩ := front.exists_append
    have separates := isWordChar_eq_false_of_isSeparator (isSeparator_separator call)
    obtain ⟨body', rfl, body⟩ := tail.exists_cons_same separates
    rw [Text.width_append, Text.width_cons] at back
    refine ⟨_, .body (is.raised name) (reads.raised body ?_), rfl⟩
    simpa only [Nat.add_assoc] using back

/-- How a token was recognised, and where it stands. -/
def outline (token : Token) : Kind × Span := (token.kind.form, token.span)

/-- All of a token but its spelling. -/
def sight (token : Token) : (Kind × Span) × Text := (token.outline, Key.normalize token.raw)

theorem Kind.shape_of_form {kind kind' : Kind} (h : kind.form = kind'.form) :
    kind.shape = kind'.shape := by
  cases kind <;> cases kind' <;> simp_all [Kind.form, Kind.shape]

theorem view_of_sight {x y : Token} (h : x.sight = y.sight) : x.view = y.view := by
  simp only [sight, outline, Prod.mk.injEq] at h
  rw [view, view, Kind.shape_of_form h.1.1, h.2]

theorem span_of_sight {x y : Token} (h : x.sight = y.sight) : x.span = y.span :=
  congrArg (·.1.2) h

end Token

/-- Letters that are raised change nothing about a token but its letters. -/
theorem Cuts.raised {tokens : List Token} (cuts : Cuts n t tokens) (h : Raised Free n t t')
    (fixed : ∀ token ∈ tokens, (∀ f, token.kind ≠ .feature f) → ∀ p, token.Covers p → ¬Free p) :
    ∃ tokens', Cuts n t' tokens' ∧ tokens'.map Token.sight = tokens.map Token.sight := by
  induction cuts generalizing t' with
  | ended gaps =>
    obtain rfl := h.eq_of_all_isGap gaps
    exact ⟨[], .ended gaps, rfl⟩
  | @token n gap kind raw rest tokens gaps lexed _ ih =>
    rw [List.forall_mem_cons] at fixed
    obtain ⟨gap', after, rfl, front, tail⟩ := h.exists_append
    obtain ⟨raw', rest', rfl, inner, back⟩ := tail.exists_append
    obtain rfl := front.eq_of_all_isGap gaps
    have same : (∀ f, kind ≠ .feature f) → raw' = raw := by
      intro other
      apply inner.eq_of_fixed
      intro p least inside
      exact fixed.1 other p ⟨least, inside⟩
    obtain ⟨kind', lexed', form⟩ := lexed.raised inner back same
    obtain ⟨tokens', cuts', same⟩ := ih back fixed.2
    rw [← inner.width_eq] at cuts'
    refine ⟨_, .token gaps lexed' cuts', ?_⟩
    simp only [List.map_cons, same, Token.sight, Token.outline, form, inner.width_eq,
      inner.normalize_eq]

/-- The span that an error points at. -/
def ParseError.place : ParseError → Option Span
  | .unexpectedToken _ span | .nestingTooDeep span => some span
  | .expectedCloser found => found
  | .emptyInput | .invalidSyntax _ => none

/-- What is wrong, and where. -/
def ParseError.fault (e : ParseError) : ParseError.Cause × Option Span := (e.cause, e.place)

namespace Reading

variable {limit : Option Nat} {x y : Token}

theorem Blames.place_eq {token : Token} {e : ParseError} (h : Blames token e) :
    e.place = some token.span := by
  cases h with
  | unexpected | noCloser | tooDeep => rfl

theorem feed_of_sight (same : x.sight = y.sight) (s : Reading) :
    (s.feed limit x).mapError ParseError.fault = (s.feed limit y).mapError ParseError.fault := by
  have alike : (s.feed limit x).mapError ParseError.cause =
      (s.feed limit y).mapError ParseError.cause := feed_of_view (Token.view_of_sight same) s
  cases foundX : s.feed limit x <;> cases foundY : s.feed limit y <;> rw [foundX, foundY] at alike
  · have cause := Except.error.inj alike
    have placeX := (blames_of_feed foundX).place_eq
    have placeY := (blames_of_feed foundY).place_eq
    rw [Token.span_of_sight same, ← placeY] at placeX
    simp [ParseError.fault, cause, placeX]
  · cases alike
  · cases alike
  · exact congrArg Except.ok (Except.ok.inj alike)

theorem finish_fault {input input' : Text} (s : Reading) :
    (s.finish input).mapError ParseError.fault = (s.finish input').mapError ParseError.fault := by
  unfold finish
  split
  · rfl
  · rfl

end Reading

/-- The byte at `p` belongs to a feature. -/
def Text.InFeature (t : Text) (p : Nat) : Prop :=
  ∃ token ∈ tokenize t, (∃ f, token.kind = .feature f) ∧ token.Covers p

theorem Text.not_inFeature_of_covers {token : Token} {p : Nat} (mem : token ∈ tokenize t)
    (other : ∀ f, token.kind ≠ .feature f) (covers : token.Covers p) : ¬t.InFeature p := by
  rintro ⟨token', mem', ⟨f, kind⟩, covers'⟩
  obtain rfl := (cuts_tokenize t).eq_of_covers mem mem' covers covers'
  exact other f kind

/-- A condition with letters of its features in uppercase has the same tokens at the same places,
and is read as the same condition, or refused for the same cause at the same place. -/
theorem Condition.parse_raised (raised : Raised t.InFeature 0 t t') :
    (tokenize t').map Token.outline = (tokenize t).map Token.outline ∧
    (∀ c, parse t' = .ok c ↔ parse t = .ok c) ∧
    ∀ e, parse t = .error e →
      ∃ e', parse t' = .error e' ∧ e'.cause = e.cause ∧ e'.place = e.place := by
  obtain ⟨tokens, cuts, same⟩ := (cuts_tokenize t).raised raised
    fun _ mem other _ covers => Text.not_inFeature_of_covers mem other covers
  obtain rfl : tokenize t' = tokens := cuts_iff.mp cuts
  have alike := parse_of_look Reading.feed_of_sight Reading.finish_fault raised.allBlank_eq same
  refine ⟨?_, ?_, ?_⟩
  · have outlines := congrArg (List.map Prod.fst) same
    rwa [List.map_map, List.map_map] at outlines
  · intro c
    rw [← mapError_eq_ok_iff, alike, mapError_eq_ok_iff]
  · intro e refused
    rw [refused] at alike
    obtain ⟨e', refused', fault⟩ := mapError_eq_error_iff.mp alike
    obtain ⟨cause, place⟩ := Prod.mk.inj fault
    exact ⟨e', refused', cause, place⟩

/-- A name that starts like the keyword in front of it, and a keyword in a body. -/
theorem Condition.parse_raised_beside_keyword :
    let t : Text := "not(note: or é)".toList
    let t' : Text := "not(NOTe: oR é)".toList
    let c := Condition.not (.feature .declaration "note:oré".toList)
    Raised t.InFeature 0 t t' ∧
      (tokenize t').map Token.outline = (tokenize t).map Token.outline ∧
      parse t = .ok c ∧ parse t' = .ok c := by
  intro t t' c
  have accepted : parse t = .ok c := by decide +kernel
  have free : ∀ p ∈ [4, 5, 6, 11], t.InFeature p := by
    intro p mem
    let f : Feature := ⟨.declaration, false, "note".toList, "or é".toList⟩
    have within : ∀ p ∈ [4, 5, 6, 11], 4 ≤ p ∧ p < 15 := by decide
    exact ⟨⟨.feature f, "note: or é".toList, ⟨4, 15⟩⟩, by decide +kernel, ⟨f, rfl⟩, within p mem⟩
  have raised : Raised t.InFeature 0 t t' := by
    apply Raised.keep
    apply Raised.keep
    apply Raised.keep
    apply Raised.keep
    apply Raised.raise (free 4 (by decide)) rfl
    apply Raised.raise (free 5 (by decide)) rfl
    apply Raised.raise (free 6 (by decide)) rfl
    apply Raised.keep
    apply Raised.keep
    apply Raised.keep
    apply Raised.keep
    apply Raised.raise (free 11 (by decide)) rfl
    exact .refl _
  obtain ⟨outlines, same, -⟩ := parse_raised raised
  exact ⟨raised, outlines, accepted, (same c).mpr accepted⟩

end FeatureQuery
