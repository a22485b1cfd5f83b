import FeatureQuery.Key
import FeatureQuery.Proofs.Lexeme

/-!
# Blanks put into a text

A text is spread when blanks are put in at some places. Nothing that is read changes by that, as
long as no blank parts an escape from what it escapes, and none is put into a name.
-/

namespace FeatureQuery

open Token (isGap isWordChar AtCloser IsName Lexed)

/-- The second text is the first, which starts at byte `n`, with blanks put in where `Free` allows
it. -/
inductive Spread (Free : Nat → Prop) : Nat → Text → Text → Prop where
  | nil {n : Nat} : Spread Free n [] []
  | keep {n : Nat} {c : Char} {t t' : Text} : Spread Free (n + c.utf8Size) t t' →
      Spread Free n (c :: t) (c :: t')
  | blank {n : Nat} {b : Char} {t t' : Text} : Free n → Text.isBlank b = true →
      Spread Free n t t' → Spread Free n t (b :: t')

variable {Free : Nat → Prop} {n : Nat} {c : Char} {t t' first second rest : Text}

namespace Spread

/-- Where a character is, there are blanks and then the character. -/
theorem exists_cons (h : Spread Free n (c :: t) t') : ∃ blanks after,
    t' = blanks ++ c :: after ∧ blanks.all Text.isBlank = true ∧ (blanks ≠ [] → Free n) ∧
      Spread Free (n + c.utf8Size) t after := by
  generalize whole : c :: t = s at h
  induction h with
  | nil => cases whole
  | keep tail _ =>
    cases whole
    exact ⟨[], _, rfl, rfl, fun nonempty => absurd rfl nonempty, tail⟩
  | @blank n b s s' free isBlank _ ih =>
    obtain ⟨blanks, after, rfl, all, -, tail⟩ := ih whole
    exact ⟨b :: blanks, after, rfl, by simp [isBlank, all], fun _ => free, tail⟩

theorem of_nil (h : Spread Free n [] t') : t'.all Text.isBlank = true := by
  generalize whole : ([] : Text) = s at h
  induction h with
  | nil => rfl
  | keep => cases whole
  | blank _ isBlank _ ih => simp [isBlank, ih whole]

/-- Where nothing is free, nothing is put in. -/
theorem exists_fixed (fixed : ∀ p, n ≤ p → p < n + first.width → ¬Free p)
    (h : Spread Free n (first ++ second) t') : ∃ after,
      t' = first ++ after ∧ Spread Free (n + first.width) second after := by
  induction first generalizing n t' with
  | nil => exact ⟨t', rfl, h⟩
  | cons c first ih =>
    obtain ⟨blanks, after, rfl, -, free, tail⟩ := h.exists_cons
    have pos := c.utf8Size_pos
    have later : ∀ p, n + c.utf8Size ≤ p → p < n + c.utf8Size + Text.width first → ¬Free p := by
      intro p least inside
      apply fixed p
      · omega
      · rw [Text.width_cons]
        omega
    obtain ⟨after, rfl, others⟩ := ih later tail
    have none : blanks = [] := by
      apply Classical.byContradiction
      intro nonempty
      apply fixed n (Nat.le_refl n) _ (free nonempty)
      rw [Text.width_cons]
      omega
    subst none
    exact ⟨after, rfl, by simpa only [Text.width_cons, Nat.add_assoc] using others⟩

/-- What is in one piece has blanks only in front of it. -/
theorem exists_piece (nonempty : first ≠ [])
    (fixed : ∀ p, n < p → p < n + first.width → ¬Free p)
    (h : Spread Free n (first ++ second) t') : ∃ blanks after,
      t' = blanks ++ (first ++ after) ∧ blanks.all Text.isBlank = true ∧
        Spread Free (n + first.width) second after := by
  obtain ⟨c, first, rfl⟩ := List.exists_cons_of_ne_nil nonempty
  obtain ⟨blanks, after, rfl, all, -, tail⟩ := h.exists_cons
  have pos := c.utf8Size_pos
  rw [Text.width_cons, ← Nat.add_assoc] at fixed
  obtain ⟨after, rfl, others⟩ := tail.exists_fixed fun p least => fixed p (by omega)
  exact ⟨blanks, after, rfl, all, by simpa only [Text.width_cons, Nat.add_assoc] using others⟩

theorem all_isGap_of_all_isBlank {blanks : Text} (h : blanks.all Text.isBlank = true) :
    blanks.all isGap = true := by
  rw [List.all_eq_true] at h ⊢
  intro c mem
  exact Token.isGap_of_isBlank (h c mem)

theorem exists_gap (gaps : first.all isGap = true) (h : Spread Free n (first ++ second) t') :
    ∃ gap after, t' = gap ++ after ∧ gap.all isGap = true ∧
      Spread Free (n + first.width) second after := by
  induction first generalizing n t' with
  | nil => exact ⟨[], t', rfl, rfl, h⟩
  | cons c first ih =>
    obtain ⟨blanks, after, rfl, all, -, tail⟩ := h.exists_cons
    rw [List.all_cons, Bool.and_eq_true] at gaps
    obtain ⟨gap, after, rfl, allGap, tail⟩ := ih gaps.2 tail
    refine ⟨blanks ++ c :: gap, after, by simp, ?_, ?_⟩
    · simp [all_isGap_of_all_isBlank all, gaps.1, allGap]
    · simpa only [Text.width_cons, Nat.add_assoc] using tail

theorem normalize_blanks {blanks : Text} (all : blanks.all Text.isBlank = true) :
    Key.normalize blanks = [] := by
  have none : blanks.filter (!Text.isBlank ·) = [] := by
    rw [List.filter_eq_nil_iff]
    simpa using all
  rw [Key.normalize, none, Text.lower_nil]

theorem normalize_eq (h : Spread Free n t t') : Key.normalize t' = Key.normalize t := by
  induction h with
  | nil => rfl
  | @keep n c t t' _ ih =>
    have split (t : Text) := Key.normalize_append [c] t
    simp only [List.singleton_append] at split
    rw [split t', split t, ih]
  | blank _ isBlank _ ih => simpa [Key.normalize, isBlank] using ih

theorem allBlank_eq (h : Spread Free n t t') : t'.allBlank = t.allBlank := by
  induction h with
  | nil => rfl
  | keep _ ih => simpa [Text.allBlank] using congrArg _ ih
  | blank _ isBlank _ ih => simpa [Text.allBlank, isBlank] using ih

theorem stopsWord (stops : t.head?.any isWordChar = false) (h : Spread Free n t t') :
    t'.head?.any isWordChar = false := by
  cases h with
  | nil => rfl
  | keep _ => exact stops
  | blank _ isBlank _ => exact Token.isWordChar_eq_false_of_isBlank isBlank

/-- Where a text ends or goes on with `)`, so does the spread text after some blanks. -/
theorem exists_atCloser (ends : AtCloser t) (h : Spread Free n t t') : ∃ blanks after,
    t' = blanks ++ after ∧ blanks.all Text.isBlank = true ∧ AtCloser after ∧
      Spread Free n t after := by
  cases t with
  | nil => exact ⟨t', [], by simp, h.of_nil, ends, .nil⟩
  | cons c t =>
    obtain ⟨blanks, after, rfl, all, -, tail⟩ := h.exists_cons
    exact ⟨blanks, c :: after, rfl, all, ends, .keep tail⟩

end Spread

theorem mark_of_isBlank {b : Char} (h : Text.isBlank b = true) : mark b = .plain := by
  have others : b.toNat ≠ 0x22 ∧ b.toNat ≠ 0x27 ∧ b.toNat ≠ 0x60 ∧ b.toNat ≠ 0x5C ∧
      b.toNat ≠ 0x28 ∧ b.toNat ≠ 0x29 := by
    simp only [Text.isBlank, Text.blankRuns, List.any_cons, List.any_nil, Bool.or_false,
      Bool.or_eq_true, Bool.and_eq_true, decide_eq_true_eq] at h
    omega
  change Mark.ofCode b.toNat = .plain
  unfold Mark.ofCode
  split <;> simp_all

theorem eq_escape_of_mark {c : Char} (h : mark c = .escape) : c = '\\' :=
  eq_of_mark h (.inl rfl)

namespace Body

variable {quote : Char} {escaped : Bool}

/-- A blank may stand behind an escape only where nothing is escaped. -/
def Calm (Free : Nat → Prop) (n : Nat) (t : Text) : Prop :=
  ∀ passed rest, t = passed ++ '\\' :: rest → Free (n + passed.width + 1) → AtCloser rest

theorem Calm.append (h : Calm Free n (first ++ second)) : Calm Free (n + first.width) second := by
  rintro passed rest rfl free
  apply h (first ++ passed) rest (by simp)
  simpa only [Text.width_append, Nat.add_assoc] using free

theorem Calm.tail (h : Calm Free n (c :: t)) : Calm Free (n + c.utf8Size) t := by
  rintro passed rest rfl free
  apply h (c :: passed) rest rfl
  simpa only [Text.width_cons, Nat.add_assoc] using free

/-- Right in front of a `)`, or at the end, nothing is escaped. -/
theorem closerFrom_atCloser (isQuote : mark quote = .quote) (ends : AtCloser t) :
    closerFrom quote true t = closerFrom quote false t := by
  rcases ends.eq_nil_or_cons with rfl | ⟨more, rfl⟩
  · rfl
  · have closes : mark ')' = Mark.closing := rfl
    have other : ')' ≠ quote := by
      rintro rfl
      rw [closes] at isQuote
      cases isQuote
    simp [closerFrom, closes, other]

theorem closerFrom_blank (isQuote : mark quote = .quote) {b : Char}
    (isBlank : Text.isBlank b = true) (escaped : Bool) (t : Text) :
    closerFrom quote escaped (b :: t) = (closerFrom quote false t).map (· + 1) := by
  have plain := mark_of_isBlank isBlank
  have other : b ≠ quote := by
    rintro rfl
    rw [plain] at isQuote
    cases isQuote
  simp [closerFrom, plain, other]

/-- What may stand in front of the rest of a text, when it is searched for a quote. -/
def Behind (Free : Nat → Prop) (n : Nat) (escaped : Bool) (t : Text) : Prop :=
  escaped = true → Free n → AtCloser t

theorem Calm.behind (h : Calm Free n (c :: t)) (escaped : Bool) :
    Behind Free (n + c.utf8Size) (decide (mark c = .escape ∧ ¬escaped)) t := by
  intro escapes free
  obtain ⟨isEscape, -⟩ := of_decide_eq_true escapes
  obtain rfl := eq_escape_of_mark isEscape
  exact h [] t rfl free

/-- A quote that is never closed is not closed by blanks. -/
theorem closerFrom_spread_none (isQuote : mark quote = .quote) (spread : Spread Free n t t')
    (calm : Calm Free n t) (behind : Behind Free n escaped t)
    (none : closerFrom quote escaped t = none) : closerFrom quote escaped t' = Option.none := by
  induction spread generalizing escaped with
  | nil => rfl
  | @keep n c t t' _ ih =>
    rw [closerFrom] at none ⊢
    split at none
    · cases none
    · rw [if_neg ‹_›]
      rw [Option.map_eq_none_iff] at none ⊢
      exact ih calm.tail (calm.behind escaped) none
  | @blank n b t t' free isBlank _ ih =>
    rw [closerFrom_blank isQuote isBlank, Option.map_eq_none_iff]
    apply ih calm
    · intro escapes
      cases escapes
    · cases escaped with
      | false => exact none
      | true => rwa [closerFrom_atCloser isQuote (behind rfl free)] at none

theorem exists_content_spread (isQuote : mark quote = .quote) (spread : Spread Free n t t')
    (calm : Calm Free n t) (behind : Behind Free n escaped t) {content : Text}
    (split : t = content ++ quote :: rest)
    (found : closerFrom quote escaped (content ++ [quote]) = some content.length) :
    ∃ content' rest', t' = content' ++ quote :: rest' ∧
      closerFrom quote escaped (content' ++ [quote]) = some content'.length ∧
      Spread Free (n + content.width + quote.utf8Size) rest rest' := by
  induction spread generalizing escaped content with
  | nil => simp at split
  | @keep n c t t' tail ih =>
    cases content with
    | nil =>
      obtain ⟨rfl, rfl⟩ := List.cons.inj split
      exact ⟨[], t', rfl, found, tail⟩
    | cons a content =>
      obtain ⟨rfl, rfl⟩ := List.cons.inj split
      rw [List.cons_append, closerFrom] at found
      split at found
      · cases found
      · rename_i goesOn
        rw [List.length_cons, Option.map_eq_some_iff] at found
        obtain ⟨k, found, same⟩ := found
        obtain rfl := Nat.succ.inj same
        obtain ⟨content', rest', rfl, closed, tail⟩ :=
          ih calm.tail (calm.behind escaped) rfl found
        refine ⟨c :: content', rest', rfl, ?_, ?_⟩
        · rw [List.cons_append, closerFrom, if_neg goesOn, closed]
          rfl
        · simpa only [Text.width_cons, Nat.add_assoc] using tail
  | @blank n b t t' free isBlank _ ih =>
    have unescaped : closerFrom quote false (content ++ [quote]) = some content.length := by
      cases escaped with
      | false => exact found
      | true =>
        have ends := behind rfl free
        rwa [closerFrom_atCloser isQuote] at found
        subst split
        cases content <;> simpa [AtCloser] using ends
    obtain ⟨content', rest', rfl, closed, tail⟩ := ih calm (by simp [Behind]) split unescaped
    refine ⟨b :: content', rest', rfl, ?_, tail⟩
    rw [List.cons_append, closerFrom_blank isQuote isBlank, closed]
    rfl

theorem Reads.blanks {depth : Nat} {blanks body : Text} {terminated : Bool}
    (all : blanks.all Text.isBlank = true) (reads : Reads depth body rest terminated) :
    Reads depth (blanks ++ body) rest terminated := by
  induction blanks with
  | nil => exact reads
  | cons b blanks ih =>
    rw [List.all_cons, Bool.and_eq_true] at all
    exact .letter (.inr (mark_of_isBlank all.1)) (ih all.2)

/-- What is read behind a letter is read behind it and the blanks in front of it. -/
theorem Reads.exists_cons {depth : Nat} {a : Char} {blanks body after : Text} {terminated : Bool}
    {Inner : Text → Text → Prop} (all : blanks.all Text.isBlank = true)
    (step : ∀ {body rest}, Inner body rest → Reads depth (a :: body) rest terminated)
    (inner : ∃ body' rest', after = body' ++ rest' ∧ Inner body' rest' ∧
      Spread Free (n + a.utf8Size + body.width) rest rest') :
    ∃ body' rest', blanks ++ a :: after = body' ++ rest' ∧ Reads depth body' rest' terminated ∧
      Spread Free (n + Text.width (a :: body)) rest rest' := by
  obtain ⟨body', rest', rfl, reads, tail⟩ := inner
  refine ⟨blanks ++ a :: body', rest', by simp, Reads.blanks all (step reads), ?_⟩
  simpa only [Text.width_cons, Nat.add_assoc] using tail

/-- A body is read with the blanks that are put into it. -/
theorem Reads.spread {depth : Nat} {body : Text} {terminated : Bool}
    (reads : Reads depth body rest terminated) (spread : Spread Free n (body ++ rest) t')
    (calm : Calm Free n (body ++ rest)) : ∃ body' rest', t' = body' ++ rest' ∧
      Reads depth body' rest' terminated ∧ Spread Free (n + body.width) rest rest' := by
  induction reads generalizing n t' with
  | ended =>
    refine ⟨t', [], by simp, ?_, .nil⟩
    rw [← List.append_nil t']
    exact Reads.blanks spread.of_nil .ended
  | @stopped a rest closes =>
    obtain ⟨blanks, after, rfl, all, -, tail⟩ := spread.exists_cons
    refine ⟨blanks, a :: after, rfl, ?_, .keep tail⟩
    rw [← List.append_nil blanks]
    exact Reads.blanks all (.stopped closes)
  | @quoted depth a content body rest terminated isQuote closed _ ih =>
    rw [List.cons_append, List.append_assoc, List.cons_append] at spread calm
    obtain ⟨blanks, after, rfl, all, -, tail⟩ := spread.exists_cons
    have inside := calm.tail
    obtain ⟨content', after', rfl, closed', tail⟩ :=
      exists_content_spread isQuote tail inside (by simp [Behind]) rfl closed
    have last := inside.append.tail
    obtain ⟨body', rest', rfl, reads, tail⟩ := ih tail last
    refine ⟨blanks ++ a :: (content' ++ a :: body'), rest', by simp, ?_, ?_⟩
    · exact Reads.blanks all (.quoted isQuote closed' reads)
    · simpa only [Text.width_cons, Text.width_append, Nat.add_assoc] using tail
  | @unclosed depth a body rest terminated isQuote none _ ih =>
    obtain ⟨blanks, after, rfl, all, -, tail⟩ := spread.exists_cons
    have inside := calm.tail
    have none' := closerFrom_spread_none isQuote tail inside (by simp [Behind]) none
    obtain ⟨body', rest', rfl, reads, tail⟩ := ih tail inside
    refine ⟨blanks ++ a :: body', rest', by simp, ?_, ?_⟩
    · exact Reads.blanks all (.unclosed isQuote none' reads)
    · simpa only [Text.width_cons, Nat.add_assoc] using tail
  | opening opens _ ih =>
    obtain ⟨blanks, after, rfl, all, -, tail⟩ := spread.exists_cons
    exact Reads.exists_cons all (.opening opens) (ih tail calm.tail)
  | closing closes _ ih =>
    obtain ⟨blanks, after, rfl, all, -, tail⟩ := spread.exists_cons
    exact Reads.exists_cons all (.closing closes) (ih tail calm.tail)
  | letter other _ ih =>
    obtain ⟨blanks, after, rfl, all, -, tail⟩ := spread.exists_cons
    exact Reads.exists_cons all (.letter other) (ih tail calm.tail)

end Body

end FeatureQuery
