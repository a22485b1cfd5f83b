import FeatureQuery.Proofs.Coverage
import FeatureQuery.Proofs.Spread
import FeatureQuery.Proofs.View

/-!
# Layout

A condition may be laid out freely: blanks between its tokens and in the bodies of its features do
not change what is read, or why nothing is. Only names and keywords are left in one piece, and an
escape with what it escapes.
-/

namespace FeatureQuery

open Token (isGap isWordChar AtCloser IsName Lexed)
open Body (Calm)

variable {Free : Nat → Prop} {n : Nat} {t t' raw rest : Text} {kind : Token.Kind} {token : Token}
  {tokens : List Token}

namespace Token

/-- Inside the token, only what follows the separator of a feature is free. -/
def Fixed (Free : Nat → Prop) (token : Token) : Prop :=
  ∀ p, Free p → token.span.start < p → p < token.span.stop →
    ∃ f, token.kind = .feature f ∧ token.span.start + f.left.width < p

theorem IsName.append_blanks {name blanks : Text} (is : IsName name)
    (all : blanks.all Text.isBlank = true) : IsName (name ++ blanks) := by
  rw [List.all_eq_true] at all
  refine ⟨is.starts.append _, ?_, ?_⟩
  · intro c mem
    rcases List.mem_append.mp mem with mem | mem
    · exact is.free c mem
    · have isBlank := all c mem
      cases separates : isSeparator c with
      | false => rfl
      | true =>
        simp only [isSeparator, Bool.or_eq_true, decide_eq_true_eq] at separates
        rcases separates with (rfl | rfl) | rfl <;> revert isBlank <;> decide
  · rw [leadingWord_name, is.fresh]
    cases blanks with
    | nil => rfl
    | cons b blanks => exact isWordChar_eq_false_of_isBlank (all b (List.mem_cons_self ..))

theorem kind_ne_feature_of_mem_keywords {word : Text} (listed : (word, kind) ∈ keywords)
    (f : Feature) : kind ≠ .feature f := by
  rintro rfl
  simp [keywords] at listed

/-- A token is read with the blanks that are put into it, and those in front of it are a gap. -/
theorem Lexed.spread (lexed : Lexed kind raw rest) (spread : Spread Free n (raw ++ rest) t')
    (calm : Calm Free n (raw ++ rest)) (fixed : Fixed Free ⟨kind, raw, ⟨n, n + raw.width⟩⟩) :
    ∃ blanks kind' raw' rest', t' = blanks ++ (raw' ++ rest') ∧
      blanks.all Text.isBlank = true ∧ Lexed kind' raw' rest' ∧ kind'.shape = kind.shape ∧
      Spread Free (n + raw.width) rest rest' := by
  cases lexed with
  | opening =>
    obtain ⟨blanks, after, rfl, all, -, tail⟩ := spread.exists_cons
    exact ⟨blanks, _, _, after, rfl, all, .opening, rfl, tail⟩
  | closing =>
    obtain ⟨blanks, after, rfl, all, -, tail⟩ := spread.exists_cons
    exact ⟨blanks, _, _, after, rfl, all, .closing, rfl, tail⟩
  | keyword listed stops =>
    have whole : ∀ p, n < p → p < n + raw.width → ¬Free p := by
      intro p least inside free
      obtain ⟨f, feature, -⟩ := fixed p free least inside
      exact kind_ne_feature_of_mem_keywords listed f feature
    obtain ⟨-, c, head, -⟩ := mem_keywords_cases listed
    have nonempty : raw ≠ [] := by
      rintro rfl
      cases head
    obtain ⟨blanks, after, rfl, all, tail⟩ := spread.exists_piece nonempty whole
    exact ⟨blanks, _, _, after, rfl, all, .keyword listed (tail.stopsWord stops), rfl, tail⟩
  | name is ends =>
    have whole : ∀ p, n < p → p < n + raw.width → ¬Free p := by
      intro p least inside free
      obtain ⟨f, feature, behind⟩ := fixed p free least inside
      cases feature
      exact Nat.lt_asymm inside behind
    obtain ⟨blanks, after, rfl, all, tail⟩ := spread.exists_piece is.starts.ne_nil whole
    -- The blanks behind a bare name become a part of it.
    obtain ⟨more, after, rfl, allMore, ends, tail⟩ := tail.exists_atCloser ends
    exact ⟨blanks, .feature (.bare (raw ++ more)), raw ++ more, after, by simp, all,
      .name (is.append_blanks allMore) ends, rfl, tail⟩
  | @body call name body rest terminated is reads =>
    let front := name ++ [Feature.separator call]
    have split : name ++ Feature.separator call :: body ++ rest = front ++ (body ++ rest) := by
      simp [front]
    rw [split] at spread calm
    have size : (Feature.separator call).utf8Size = 1 := by cases call <;> rfl
    have width : front.width = name.width + 1 := by simp [front, size]
    have whole : ∀ p, n < p → p < n + front.width → ¬Free p := by
      intro p least inside free
      have before : p < n + Text.width (name ++ Feature.separator call :: body) := by
        rw [Text.width_append, Text.width_cons]
        omega
      obtain ⟨f, feature, behind⟩ := fixed p free least before
      cases feature
      have left : n + name.width < p := behind
      omega
    obtain ⟨blanks, after, rfl, all, tail⟩ := spread.exists_piece (by simp [front]) whole
    obtain ⟨body', rest', rfl, reads', tail⟩ := reads.spread tail calm.append
    refine ⟨blanks, .feature (.ofBody call name body' terminated),
      name ++ Feature.separator call :: body', rest', by simp [front], all, .body is reads', rfl, ?_⟩
    have total : (name ++ Feature.separator call :: body).width = front.width + body.width := by
      simp [front, Nat.add_assoc]
    rwa [total, ← Nat.add_assoc]

/-- A token that ends with an escape is a feature. -/
theorem Lexed.atCloser_of_escape {before : Text} (h : Lexed kind (before ++ ['\\']) rest) :
    AtCloser rest := by
  generalize whole : before ++ ['\\'] = raw at h
  have mem : '\\' ∈ raw := by
    rw [← whole]
    simp
  cases h with
  | opening | closing => simp at mem
  | keyword listed _ =>
    have word := (mem_keywords_cases listed).1 '\\' mem
    cases word
  | name _ ends => exact ends
  | body _ reads => exact atCloser_of_reads reads

end Token

namespace Cuts

/-- A character at the place between an escape and what follows it is inside a token, or else
nothing is escaped there. -/
theorem atCloser_of_escape {passed : Text} (cuts : Cuts n t tokens)
    (split : t = passed ++ '\\' :: rest)
    (outside : ∀ token ∈ tokens, ¬(token.span.start < n + passed.width + 1 ∧
      n + passed.width + 1 < token.span.stop)) : AtCloser rest := by
  induction cuts generalizing passed with
  | ended gaps =>
    subst split
    simp only [List.all_append, List.all_cons, Bool.and_eq_true] at gaps
    cases gaps.2.1
  | @token n gap kind raw more tokens gaps lexed tail ih =>
    rw [List.forall_mem_cons] at outside
    rcases Text.append_eq_append_cons split with ⟨later, rfl, -⟩ | ⟨passed, rfl, inner⟩
    · simp only [List.all_append, List.all_cons, Bool.and_eq_true] at gaps
      cases gaps.2.1
    rw [Text.width_append] at outside
    rcases Text.append_eq_append_cons inner with ⟨later, rfl, rfl⟩ | ⟨passed, rfl, last⟩
    · cases later with
      | nil => exact lexed.atCloser_of_escape
      | cons c later =>
        have pos := c.utf8Size_pos
        have size : '\\'.utf8Size = 1 := rfl
        exfalso
        apply outside.1
        simp only [Text.width_append, Text.width_cons]
        omega
    · apply ih last
      simpa only [Text.width_append, Nat.add_assoc] using outside.2

/-- Blanks that are put in at free places change no token, for all that the parser sees. -/
theorem spread (cuts : Cuts n t tokens) (spread : Spread Free n t t') (calm : Calm Free n t)
    (fixed : ∀ token ∈ tokens, token.Fixed Free) (n' : Nat) :
    ∃ tokens', Cuts n' t' tokens' ∧ tokens'.map Token.view = tokens.map Token.view := by
  induction cuts generalizing t' n' with
  | @ended n gap gaps =>
    rw [← List.append_nil gap] at spread
    obtain ⟨gap', after, rfl, gaps', tail⟩ := spread.exists_gap gaps
    have none := Spread.all_isGap_of_all_isBlank tail.of_nil
    exact ⟨[], .ended (by simp [gaps', none]), rfl⟩
  | @token n gap kind raw rest tokens gaps lexed _ ih =>
    rw [List.forall_mem_cons] at fixed
    obtain ⟨gap', after, rfl, gaps', tail⟩ := spread.exists_gap gaps
    obtain ⟨blanks, kind', raw', rest', rfl, all, lexed', shape, last⟩ :=
      lexed.spread tail calm.append fixed.1
    let before := gap' ++ blanks
    have gaps'' : before.all isGap = true := by
      simp [before, gaps', Spread.all_isGap_of_all_isBlank all]
    obtain ⟨tokens', cuts', same⟩ :=
      ih last calm.append.append fixed.2 (n' + before.width + raw'.width)
    have key : Key.normalize raw' = Key.normalize raw := by
      have whole := tail.normalize_eq
      simp only [Key.normalize_append, Spread.normalize_blanks all, List.nil_append,
        last.normalize_eq] at whole
      exact List.append_cancel_right whole
    have cuts := Cuts.token gaps'' lexed' cuts'
    rw [List.append_assoc] at cuts
    exact ⟨_, cuts, by simp [Token.view, shape, key, same]⟩

end Cuts

/-- At byte `p` blanks may be put in: outside every token or at the ends of one; or else in a
feature, behind its separator, and not directly behind an escape. -/
def Text.TakesBlanks (t : Text) (p : Nat) : Prop :=
  (∀ token ∈ tokenize t, p ≤ token.span.start ∨ token.span.stop ≤ p) ∨
  ∃ token ∈ tokenize t, ∃ f, token.kind = .feature f ∧
    token.span.start + f.left.width < p ∧ p < token.span.stop ∧
    ∀ passed rest, t = passed ++ '\\' :: rest → Text.width passed + 1 ≠ p

theorem Text.calm_takesBlanks (t : Text) : Calm t.TakesBlanks 0 t := by
  rintro passed rest split (outside | ⟨token, -, f, -, -, -, unescaped⟩)
  · apply (cuts_tokenize t).atCloser_of_escape split
    intro token mem inside
    have apart := outside token mem
    omega
  · exact absurd (Nat.zero_add _).symm (unescaped passed rest split)

theorem Text.fixed_takesBlanks {t : Text} {token : Token} (mem : token ∈ tokenize t) :
    token.Fixed t.TakesBlanks := by
  rintro p (outside | ⟨other, memOther, f, kind, behind, before, -⟩) after inside
  · have apart := outside token mem
    omega
  · have coversOther : other.Covers p := ⟨by omega, before⟩
    have covers : token.Covers p := ⟨Nat.le_of_lt after, inside⟩
    obtain rfl := (cuts_tokenize t).eq_of_covers memOther mem coversOther covers
    exact ⟨f, kind, behind⟩

/-- A condition with more blanks between its tokens, or in the bodies of its features, is read as
the same condition, or refused for the same cause. -/
theorem Condition.parse_spread {t t' : Text} (spread : Spread t.TakesBlanks 0 t t') :
    (∀ c, parse t = .ok c → parse t' = .ok c) ∧
    ∀ e, parse t = .error e → ∃ e', parse t' = .error e' ∧ e'.cause = e.cause := by
  obtain ⟨tokens, cuts, same⟩ := (cuts_tokenize t).spread spread t.calm_takesBlanks
    (fun _ mem => Text.fixed_takesBlanks mem) 0
  obtain rfl : tokenize t' = tokens := cuts_iff.mp cuts
  have alike := parse_of_view spread.allBlank_eq same
  constructor
  · intro c accepted
    rw [accepted] at alike
    exact mapError_eq_ok_iff.mp alike
  · intro e refused
    rw [refused] at alike
    exact mapError_eq_error_iff.mp alike

/-- A blank behind the escaped quote leaves the quote escaped, and the body it is in quoted. -/
theorem Condition.parse_spread_quoted :
    let t : Text := "not(p:'\\'')".toList
    let t' : Text := "not ( p: '\\' ' ) ".toList
    Spread t.TakesBlanks 0 t t' ∧
      parse t = .ok (.not (.feature .declaration "p:'\\''".toList)) ∧
      parse t' = .ok (.not (.feature .declaration "p:'\\''".toList)) := by
  intro t t'
  have accepted : parse t = .ok (.not (.feature .declaration "p:'\\''".toList)) := by
    decide +kernel
  -- The ends of the tokens are free.
  have ends : ∀ p ∈ [3, 4, 10, 11], t.TakesBlanks p := by
    intro p mem
    have apart : ∀ p ∈ [3, 4, 10, 11], ∀ token ∈ tokenize t,
        p ≤ token.span.start ∨ token.span.stop ≤ p := by decide +kernel
    exact .inl (apart p mem)
  have escapes : ∀ passed rest, t = passed ++ '\\' :: rest → Text.width passed = 7 := by
    intro passed rest split
    have only : ∀ i < t.length, t[i]? = some '\\' → Text.width (t.take i) = 7 := by decide
    have here : t[passed.length]? = some '\\' := by simp [split]
    have inside := (List.getElem?_eq_some_iff.mp here).1
    have found := only passed.length inside here
    rwa [split, List.take_left] at found
  have body : ∀ p ∈ [6, 9], t.TakesBlanks p := by
    intro p mem
    let token : Token := ⟨.feature ⟨.declaration, false, ['p'], "'\\''".toList⟩,
      "p:'\\''".toList, ⟨4, 10⟩⟩
    have within : ∀ p ∈ [6, 9], 5 < p ∧ p < 10 ∧ 7 + 1 ≠ p := by decide
    obtain ⟨behind, before, unescaped⟩ := within p mem
    refine .inr ⟨token, by decide +kernel, _, rfl, behind, before, ?_⟩
    intro passed rest split
    rwa [escapes passed rest split]
  have spread : Spread t.TakesBlanks 0 t t' := by
    apply Spread.keep
    apply Spread.keep
    apply Spread.keep
    apply Spread.blank (ends 3 (by decide)) rfl
    apply Spread.keep
    apply Spread.blank (ends 4 (by decide)) rfl
    apply Spread.keep
    apply Spread.keep
    apply Spread.blank (body 6 (by decide)) rfl
    apply Spread.keep
    apply Spread.keep
    apply Spread.keep
    apply Spread.blank (body 9 (by decide)) rfl
    apply Spread.keep
    apply Spread.blank (ends 10 (by decide)) rfl
    apply Spread.keep
    apply Spread.blank (ends 11 (by decide)) rfl
    exact .nil
  exact ⟨spread, accepted, (parse_spread spread).1 _ accepted⟩

end FeatureQuery
