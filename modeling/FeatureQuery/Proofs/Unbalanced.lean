import FeatureQuery.Proofs.Closers
import Mathlib.Algebra.BigOperators.Intervals
import Mathlib.Data.Nat.Find
import Mathlib.Logic.Relation

/-!
# Where a body ends

A body ends with the first parenthesis that is closed outside of quoted strings and was not opened
there. What is outside is fixed by reading from the start: a quote that is closed later starts a
string that is passed over, and every other letter is plain. Which parentheses belong together is
said by counting between them, without the counter of the loop; the loop is then shown to count
right.
-/

namespace FeatureQuery.Body

variable {α : Type} [Marked α] {letters : List α} {start i j k p q c o : Nat} {m : Mark}

/-- A quoted string runs from the quote at `q` to its first closer, at `c`. -/
def IsString (letters : List α) (q c : Nat) : Prop :=
  (∃ a ∈ letters[q]?, mark a = .quote) ∧ IsLeast (closers letters q) c

/-- Reading from `start` comes to these indices; strings are passed over. -/
inductive Reached (letters : List α) (start : Nat) : Nat → Prop where
  | start : Reached letters start start
  | plain {p : Nat} : Reached letters start p → p < letters.length →
      (∀ c, ¬IsString letters p c) → Reached letters start (p + 1)
  | string {q c : Nat} : Reached letters start q → IsString letters q c →
      Reached letters start (c + 1)

/-- Outside of strings, the letter at `p` has the mark `m`. -/
structure Bare (letters : List α) (start : Nat) (m : Mark) (p : Nat) : Prop where
  reached : Reached letters start p
  marked : ∃ a ∈ letters[p]?, mark a = m
  plain : ∀ c, ¬IsString letters p c

open Classical in
/-- How often a mark stands outside of strings, from `i` on and before `j`. -/
noncomputable def bareCount (letters : List α) (start : Nat) (m : Mark) (i j : Nat) : Nat :=
  {p ∈ Finset.Ico i j | Bare letters start m p}.card

/-- The parenthesis opened at `o` is closed at `c`, the first closing one that has as many opening
as closing ones between `o` and itself. -/
def Closes (letters : List α) (start o c : Nat) : Prop :=
  IsLeast {c | o < c ∧ Bare letters start .closing c ∧
    bareCount letters start .opening (o + 1) c = bareCount letters start .closing (o + 1) c} c

/-- A closing parenthesis, in front of which every one that was opened is closed. -/
def Unbalanced (letters : List α) (start p : Nat) : Prop :=
  Bare letters start .closing p ∧
    ∀ o < p, Bare letters start .opening o → ∃ c < p, Closes letters start o c

/-- Parentheses opened less those closed, from `start` on and before `p`. -/
noncomputable def height (letters : List α) (start p : Nat) : Int :=
  bareCount letters start .opening start p - bareCount letters start .closing start p

/-! ## Reading -/

theorem Reached.start_le (h : Reached letters start p) : start ≤ p := by
  induction h with
  | start => exact Nat.le_refl _
  | plain _ _ _ ih => exact Nat.le_succ_of_le ih
  | string _ closed ih =>
    have behind := closed.2.1.1
    omega

theorem isString_iff [DecidableEq α] {a : α} (here : letters[q]? = some a) :
    IsString letters q c ↔ mark a = .quote ∧ findCloser letters (q + 1) a = some c := by
  simp [IsString, here, isLeast_closers_iff here]

/-- A quote starts no string just when the search of its closer fails. -/
theorem forall_not_isString_iff [DecidableEq α] {a : α} (here : letters[q]? = some a)
    (isQuote : mark a = .quote) :
    (∀ c, ¬IsString letters q c) ↔ findCloser letters (q + 1) a = none := by
  simp [isString_iff here, isQuote, Option.eq_none_iff_forall_ne_some]

theorem IsString.lt_length (closed : IsString letters q c) : c < letters.length := by
  obtain ⟨a, -, at_c⟩ := closed.2.1.2.1
  exact (List.getElem?_eq_some_iff.mp at_c).1

/-- Reading came to every letter that it has passed, or to a string that the letter is in. -/
theorem Reached.of_lt (reached : Reached letters start p) (from_start : start ≤ r)
    (before : r < p) : Reached letters start r ∨
      ∃ s c, Reached letters start s ∧ IsString letters s c ∧ s < r ∧ r ≤ c := by
  induction reached with
  | start => exact absurd from_start (Nat.not_le_of_lt before)
  | plain there _ _ ih =>
    rcases Nat.lt_succ_iff_lt_or_eq.mp before with earlier | rfl
    · exact ih earlier
    · exact .inl there
  | @string s c there closed ih =>
    rcases Nat.lt_trichotomy r s with earlier | rfl | within
    · exact ih earlier
    · exact .inl there
    · exact .inr ⟨s, c, there, closed, within, Nat.le_of_lt_succ before⟩

/-- No index within a string is come to. -/
theorem IsString.not_reached (closed : IsString letters q c) (first : Reached letters start q)
    (behind : q < p) (within : p ≤ c) : ¬Reached letters start p := by
  -- Both `q` and the index that `p` was come to from are in front of `p`.
  induction p using Nat.strong_induction_on generalizing q c with
  | h p ih =>
    intro reached
    cases reached with
    | start => exact absurd first.start_le (by omega)
    | @plain p' from_p inside plain =>
      rcases Nat.lt_or_ge q p' with later | here
      · exact ih p' (Nat.lt_succ_self p') closed first later (by omega) from_p
      · obtain rfl : q = p' := by omega
        exact plain c closed
    | @string q' c' from_q closed' =>
      have span' := closed'.2.1.1
      rcases Nat.lt_trichotomy q q' with later | rfl | earlier
      · exact ih q' (by omega) closed first later (by omega) from_q
      · have same := closed.2.unique closed'.2
        omega
      · exact ih q behind closed' from_q earlier (by omega) first

theorem IsString.not_bare (closed : IsString letters q c) (first : Reached letters start q)
    (from_q : q ≤ p) (within : p ≤ c) : ¬Bare letters start m p := by
  intro bare
  rcases Nat.eq_or_lt_of_le from_q with rfl | behind
  · exact bare.plain c closed
  · exact closed.not_reached first behind within bare.reached

theorem Bare.mark_unique {m' : Mark} (h : Bare letters start m p) (h' : Bare letters start m' p) :
    m = m' := by
  obtain ⟨a, at_p, rfl⟩ := h.marked
  obtain ⟨b, at_p', rfl⟩ := h'.marked
  rw [Option.mem_unique at_p at_p']

/-! ## Counting -/

theorem bareCount_add (m : Mark) (first : i ≤ j) (second : j ≤ k) :
    bareCount letters start m i k =
      bareCount letters start m i j + bareCount letters start m j k := by
  simp only [bareCount, Finset.card_filter]
  exact (Finset.sum_Ico_consecutive _ first second).symm

open Classical in
theorem bareCount_succ (m : Mark) (first : i ≤ j) : bareCount letters start m i (j + 1) =
    bareCount letters start m i j + if Bare letters start m j then 1 else 0 := by
  simp only [bareCount, Finset.card_filter, Finset.sum_Ico_succ_top first]

@[simp] theorem height_start : height letters start start = 0 := by
  simp [height, bareCount]

theorem height_of_opening (from_start : start ≤ p) (opens : Bare letters start .opening p) :
    height letters start (p + 1) = height letters start p + 1 := by
  have other : ¬Bare letters start .closing p := fun closes => nomatch opens.mark_unique closes
  simp only [height, bareCount_succ _ from_start, if_pos opens, if_neg other]
  omega

theorem height_of_closing (from_start : start ≤ p) (closes : Bare letters start .closing p) :
    height letters start (p + 1) = height letters start p - 1 := by
  have other : ¬Bare letters start .opening p := fun opens => nomatch closes.mark_unique opens
  simp only [height, bareCount_succ _ from_start, if_pos closes, if_neg other]
  omega

theorem height_of_other (from_start : start ≤ p) (noOpening : ¬Bare letters start .opening p)
    (noClosing : ¬Bare letters start .closing p) :
    height letters start (p + 1) = height letters start p := by
  simp only [height, bareCount_succ _ from_start, if_neg noOpening, if_neg noClosing]
  omega

/-- From one index to the next, the height changes by one at most, and by a parenthesis. -/
theorem height_succ_cases (letters : List α) (from_start : start ≤ p) :
    Bare letters start .opening p ∧ height letters start (p + 1) = height letters start p + 1 ∨
      Bare letters start .closing p ∧ height letters start (p + 1) = height letters start p - 1 ∨
      height letters start (p + 1) = height letters start p := by
  by_cases opens : Bare letters start .opening p
  · exact .inl ⟨opens, height_of_opening from_start opens⟩
  by_cases closes : Bare letters start .closing p
  · exact .inr (.inl ⟨closes, height_of_closing from_start closes⟩)
  · exact .inr (.inr (height_of_other from_start opens closes))

theorem height_eq_of_not_bare (from_start : start ≤ i) (le : i ≤ j)
    (none : ∀ p, i ≤ p → p < j → ∀ m, ¬Bare letters start m p) :
    height letters start j = height letters start i := by
  induction j, le using Nat.le_induction with
  | base => rfl
  | succ j le ih =>
    have before := ih fun p first last => none p first (Nat.lt_succ_of_lt last)
    have here := none j le (Nat.lt_succ_self j)
    rw [height_of_other (Nat.le_trans from_start le) (here _) (here _), before]

theorem count_eq_iff_height (from_start : start ≤ o) (behind : o < c) :
    bareCount letters start .opening (o + 1) c = bareCount letters start .closing (o + 1) c ↔
      height letters start c = height letters start (o + 1) := by
  have split (m : Mark) : bareCount letters start m start c =
      bareCount letters start m start (o + 1) + bareCount letters start m (o + 1) c :=
    bareCount_add m (by omega) (by omega)
  simp only [height, split]
  omega

/-- A parenthesis is closed as soon as the height is back where it was in front of it. -/
theorem exists_closes (opens : Bare letters start .opening o) (behind : o < p)
    (back : height letters start p ≤ height letters start o) :
    ∃ c < p, Closes letters start o c := by
  classical
  have from_start := opens.reached.start_le
  have raised := height_of_opening from_start opens
  have found : ∃ r, o < r ∧ height letters start r ≤ height letters start o := ⟨p, behind, back⟩
  obtain ⟨first, low⟩ := Nat.find_spec found
  have least (r : Nat) (after : o < r) (early : r < Nat.find found) :
      height letters start o < height letters start r := by
    have not := Nat.find_min found early
    simp only [not_and, not_le] at not
    exact not after
  have before_p : Nat.find found ≤ p := Nat.find_min' found ⟨behind, back⟩
  obtain ⟨c, last⟩ : ∃ c, Nat.find found = c + 1 := Nat.exists_eq_succ_of_ne_zero (by omega)
  rw [last] at low least before_p
  have after : o < c := by
    by_contra here
    obtain rfl : c = o := by omega
    omega
  have high := least c after (Nat.lt_succ_self c)
  have from_start' : start ≤ c := by omega
  rcases height_succ_cases letters from_start' with
    ⟨-, step⟩ | ⟨closes, step⟩ | step
  · omega
  · have level : height letters start c = height letters start (o + 1) := by omega
    refine ⟨c, before_p, ⟨after, closes, (count_eq_iff_height from_start after).mpr level⟩, ?_⟩
    rintro r ⟨after', closes', count⟩
    have level' := (count_eq_iff_height from_start after').mp count
    have step' := height_of_closing (by omega) closes'
    by_contra early
    have high' := least (r + 1) (by omega) (by omega)
    omega
  · omega

/-- Where the height is positive, a parenthesis is open. -/
theorem exists_open (from_start : start ≤ p) (high : 0 < height letters start p) :
    ∃ o < p, Bare letters start .opening o ∧ ∀ c < p, ¬Closes letters start o c := by
  classical
  let low (o : Nat) : Prop := start ≤ o ∧ height letters start o < height letters start p
  have lowest : low start := ⟨Nat.le_refl _, by simpa using high⟩
  obtain ⟨from_start', lower⟩ := Nat.findGreatest_spec from_start lowest
  have last (r : Nat) (after : Nat.findGreatest low p < r) (before : r ≤ p) :
      height letters start p ≤ height letters start r := by
    have not := Nat.findGreatest_is_greatest after before
    simp only [low, not_and, not_lt] at not
    exact not (by omega)
  have before : Nat.findGreatest low p ≤ p := Nat.findGreatest_le p
  generalize Nat.findGreatest low p = o at *
  have behind : o < p := by
    by_contra here
    obtain rfl : o = p := by omega
    omega
  have next := last (o + 1) (Nat.lt_succ_self o) behind
  rcases height_succ_cases letters from_start' with
    ⟨opens, step⟩ | ⟨-, step⟩ | step
  · refine ⟨o, behind, opens, ?_⟩
    rintro c before_p ⟨⟨after, closes, count⟩, -⟩
    have level := (count_eq_iff_height from_start' after).mp count
    have back := height_of_closing (by omega) closes
    have high' := last (c + 1) (by omega) before_p
    omega
  · omega
  · omega

/-- As long as the height was not negative, a closing parenthesis is unbalanced just where it is
zero. -/
theorem unbalanced_iff (nonneg : ∀ r, start ≤ r → r ≤ p → 0 ≤ height letters start r) :
    Unbalanced letters start p ↔ Bare letters start .closing p ∧ height letters start p = 0 := by
  constructor
  · rintro ⟨closes, balanced⟩
    have from_start := closes.reached.start_le
    refine ⟨closes, ?_⟩
    by_contra level
    have high : 0 < height letters start p := by
      have low := nonneg p from_start (Nat.le_refl p)
      omega
    obtain ⟨o, behind, opens, unclosed⟩ := exists_open from_start high
    obtain ⟨c, before, closed⟩ := balanced o behind opens
    exact unclosed c before closed
  · rintro ⟨closes, level⟩
    refine ⟨closes, ?_⟩
    intro o behind opens
    apply exists_closes opens behind
    rw [level]
    exact nonneg o opens.reached.start_le (Nat.le_of_lt behind)

/-! ## The loop -/

variable {a : α}

/-- How far the loop over indices has come. Its counter is an integer here, so that it could fall
below zero. -/
structure Progress where
  index : Nat
  depth : Int
  terminated : Bool

namespace Progress

variable {s s' : Progress}

/-- What every turn of a loop that began at `start` preserves. -/
structure Sound (letters : List α) (start : Nat) (s : Progress) : Prop where
  reached : Reached letters start s.index
  inside : s.index ≤ letters.length
  depth_eq : s.depth = height letters start s.index
  nonneg : ∀ p, start ≤ p → p ≤ s.index → 0 ≤ height letters start p
  terminated_iff : s.terminated = false ↔ ∃ p < s.index, Bare letters start .quote p

theorem sound_start (inside : start ≤ letters.length) : Sound letters start ⟨start, 0, true⟩ where
  reached := .start
  inside := inside
  depth_eq := height_start.symm
  nonneg p first last := by
    obtain rfl : p = start := Nat.le_antisymm last first
    simp
  terminated_iff := by
    simp only [Bool.true_eq_false, false_iff]
    rintro ⟨p, before, bare⟩
    exact absurd bare.reached.start_le (by omega)

/-- A string is passed over: it holds nothing that counts. -/
theorem Sound.string (sound : Sound letters start s) (closed : IsString letters s.index c) :
    Sound letters start { s with index := c + 1 } := by
  have from_start := sound.reached.start_le
  have span : s.index ≤ c + 1 := Nat.le_succ_of_le (Nat.le_of_lt closed.2.1.1)
  have none (p : Nat) (first : s.index ≤ p) (last : p < c + 1) (m : Mark) :
      ¬Bare letters start m p :=
    closed.not_bare sound.reached first (Nat.le_of_lt_succ last)
  have level (p : Nat) (first : s.index ≤ p) (last : p ≤ c + 1) :
      height letters start p = height letters start s.index :=
    height_eq_of_not_bare from_start first fun r after before => none r after (by omega)
  refine ⟨sound.reached.string closed, closed.lt_length, ?_, ?_, ?_⟩
  · rw [level (c + 1) span (Nat.le_refl _)]
    exact sound.depth_eq
  · intro p first last
    rcases Nat.le_total p s.index with before | after
    · exact sound.nonneg p first before
    · rw [level p after last]
      exact sound.nonneg s.index from_start (Nat.le_refl _)
  · rw [sound.terminated_iff]
    constructor
    · rintro ⟨p, before, bare⟩
      exact ⟨p, Nat.lt_of_lt_of_le before span, bare⟩
    · rintro ⟨p, before, bare⟩
      refine ⟨p, ?_, bare⟩
      by_contra after
      exact none p (Nat.le_of_not_lt after) before _ bare

/-- A plain letter is counted. -/
theorem Sound.plain (sound : Sound letters start s) (here : letters[s.index]? = some a)
    (plain : ∀ c, ¬IsString letters s.index c) {depth : Int} {terminated : Bool}
    (depth_eq : depth = height letters start (s.index + 1)) (nonneg : 0 ≤ depth)
    (terminated_iff : terminated = false ↔ s.terminated = false ∨ mark a = .quote) :
    Sound letters start ⟨s.index + 1, depth, terminated⟩ := by
  have inside : s.index < letters.length := (List.getElem?_eq_some_iff.mp here).1
  refine ⟨sound.reached.plain inside plain, inside, depth_eq, ?_, ?_⟩
  · intro p first last
    rcases Nat.lt_or_eq_of_le last with before | rfl
    · exact sound.nonneg p first (Nat.le_of_lt_succ before)
    · rwa [← depth_eq]
  · rw [terminated_iff, sound.terminated_iff]
    constructor
    · rintro (⟨p, before, bare⟩ | isQuote)
      · exact ⟨p, Nat.lt_succ_of_lt before, bare⟩
      · exact ⟨s.index, Nat.lt_succ_self _, sound.reached, ⟨a, here, isQuote⟩, plain⟩
    · rintro ⟨p, before, bare⟩
      rcases Nat.lt_succ_iff_lt_or_eq.mp before with before | rfl
      · exact .inl ⟨p, before, bare⟩
      · obtain ⟨b, at_p, isQuote⟩ := bare.marked
        obtain rfl : a = b := Option.some.inj (here.symm.trans at_p)
        exact .inr isQuote

/-- A letter that is no parenthesis leaves the height as it is. -/
theorem Sound.kept (sound : Sound letters start s) (here : letters[s.index]? = some a)
    (plain : ∀ c, ¬IsString letters s.index c) {terminated : Bool} (noOpening : mark a ≠ .opening)
    (noClosing : mark a ≠ .closing)
    (terminated_iff : terminated = false ↔ s.terminated = false ∨ mark a = .quote) :
    Sound letters start ⟨s.index + 1, s.depth, terminated⟩ := by
  have from_start := sound.reached.start_le
  have bare : Bare letters start (mark a) s.index := ⟨sound.reached, ⟨a, here, rfl⟩, plain⟩
  have level : height letters start (s.index + 1) = height letters start s.index :=
    height_of_other from_start (fun opens => noOpening (bare.mark_unique opens))
      fun closes => noClosing (bare.mark_unique closes)
  have nonneg := sound.nonneg s.index from_start (Nat.le_refl _)
  rw [← sound.depth_eq] at level nonneg
  exact sound.plain here plain level.symm nonneg terminated_iff

/-- A letter of another mark starts no string. -/
theorem not_isString (here : letters[p]? = some a) (other : mark a ≠ .quote) (c : Nat) :
    ¬IsString letters p c := by
  rintro ⟨⟨b, at_p, isQuote⟩, -⟩
  obtain rfl : a = b := Option.some.inj (here.symm.trans at_p)
  exact other isQuote

/-- Nothing in front of the loop is unbalanced: it would have brought the height below zero. -/
theorem Sound.not_unbalanced (sound : Sound letters start s) (before : p < s.index) :
    ¬Unbalanced letters start p := by
  intro unbalanced
  have from_start := unbalanced.1.reached.start_le
  have nonneg (r : Nat) (first : start ≤ r) (last : r ≤ p) : 0 ≤ height letters start r :=
    sound.nonneg r first (by omega)
  obtain ⟨closes, level⟩ := (unbalanced_iff nonneg).mp unbalanced
  have lowered := height_of_closing from_start closes
  have positive := sound.nonneg (p + 1) (by omega) before
  omega

variable [DecidableEq α]

/-- One turn of the loop; `none` where it stops. -/
def next? (letters : List α) (s : Progress) : Option Progress :=
  match letters[s.index]? with
  | none => none
  | some a =>
    match mark a with
    | .quote =>
      match findCloser letters (s.index + 1) a with
      | some close => some { s with index := close + 1 }
      | none => some { s with index := s.index + 1, terminated := false }
    | .opening => some { s with index := s.index + 1, depth := s.depth + 1 }
    | .closing =>
      if s.depth = 0 then none else some { s with index := s.index + 1, depth := s.depth - 1 }
    | .escape | .plain => some { s with index := s.index + 1 }

/-- From `s` the loop comes to `s'`. -/
abbrev Visits (letters : List α) : Progress → Progress → Prop :=
  Relation.ReflTransGen fun s s' => s.next? letters = some s'

theorem Sound.next (sound : Sound letters start s) (turn : s.next? letters = some s') :
    Sound letters start s' := by
  have from_start := sound.reached.start_le
  have nonneg := sound.nonneg s.index from_start (Nat.le_refl _)
  rw [← sound.depth_eq] at nonneg
  unfold next? at turn
  split at turn
  · cases turn
  rename_i a here
  -- The letter is plain in all cases but the first; what it does to the height is told by its mark.
  split at turn
  · rename_i isQuote
    split at turn
    · rename_i close found
      cases turn
      exact sound.string ((isString_iff here).mpr ⟨isQuote, found⟩)
    · rename_i never
      cases turn
      have plain := (forall_not_isString_iff here isQuote).mpr never
      exact sound.kept here plain (by simp [isQuote]) (by simp [isQuote]) (by simp [isQuote])
  · rename_i opens
    cases turn
    have plain := not_isString here (by simp [opens])
    have raised := height_of_opening from_start ⟨sound.reached, ⟨a, here, opens⟩, plain⟩
    rw [← sound.depth_eq] at raised
    exact sound.plain here plain raised.symm (by omega) (by simp [opens])
  · rename_i closes
    split at turn
    · cases turn
    · rename_i inner
      cases turn
      have plain := not_isString here (by simp [closes])
      have lowered := height_of_closing from_start ⟨sound.reached, ⟨a, here, closes⟩, plain⟩
      rw [← sound.depth_eq] at lowered
      exact sound.plain here plain lowered.symm (by omega) (by simp [closes])
  · rename_i escape
    cases turn
    have plain := not_isString here (by simp [escape])
    exact sound.kept here plain (by simp [escape]) (by simp [escape]) (by simp [escape])
  · rename_i other
    cases turn
    have plain := not_isString here (by simp [other])
    exact sound.kept here plain (by simp [other]) (by simp [other]) (by simp [other])

theorem Sound.visits (sound : Sound letters start s) (run : Visits letters s s') :
    Sound letters start s' := by
  induction run with
  | refl => exact sound
  | tail _ turn ih => exact ih.next turn

/-- Where the loop stops, it stands at the first unbalanced parenthesis or at the end. -/
theorem Sound.of_stopped (sound : Sound letters start s) (stopped : s.next? letters = none) :
    IsLeast {p | Unbalanced letters start p} s.index ∨
      (∀ p, ¬Unbalanced letters start p) ∧ s.index = letters.length := by
  unfold next? at stopped
  split at stopped
  · rename_i none
    have ended : s.index = letters.length :=
      Nat.le_antisymm sound.inside (List.getElem?_eq_none_iff.mp none)
    refine .inr ⟨fun p unbalanced => ?_, ended⟩
    obtain ⟨a, at_p, -⟩ := unbalanced.1.marked
    have inside : p < letters.length := (List.getElem?_eq_some_iff.mp at_p).1
    exact sound.not_unbalanced (ended ▸ inside) unbalanced
  · rename_i a here
    split at stopped
    · split at stopped <;> cases stopped
    · cases stopped
    · rename_i closes
      split at stopped
      · rename_i level
        have bare : Bare letters start .closing s.index :=
          ⟨sound.reached, ⟨a, here, closes⟩, not_isString here (by simp [closes])⟩
        refine .inl ⟨(unbalanced_iff sound.nonneg).mpr ⟨bare, ?_⟩, ?_⟩
        · rw [← sound.depth_eq, level]
        · intro p unbalanced
          by_contra before
          exact sound.not_unbalanced (Nat.lt_of_not_le before) unbalanced
      · cases stopped
    · cases stopped
    · cases stopped

/-- The loop ends, and `stop` is where. -/
theorem exists_visits_stop (letters : List α) (i depth : Nat) (terminated : Bool) :
    ∃ s, Visits letters ⟨i, depth, terminated⟩ s ∧ s.next? letters = none ∧
      stop letters i depth terminated = (s.index, s.terminated) := by
  fun_induction stop letters i depth terminated with
  | case1 i depth terminated here => exact ⟨_, .refl, by simp [next?, here], rfl⟩
  | case2 i depth terminated a here isQuote close found ih =>
    obtain ⟨s, run, stopped, same⟩ := ih
    exact ⟨s, run.head (by simp [next?, here, isQuote, found]), stopped, same⟩
  | case3 i depth terminated a here isQuote found ih =>
    obtain ⟨s, run, stopped, same⟩ := ih
    exact ⟨s, run.head (by simp [next?, here, isQuote, found]), stopped, same⟩
  | case4 i depth terminated a here opens ih =>
    obtain ⟨s, run, stopped, same⟩ := ih
    exact ⟨s, run.head (by simp [next?, here, opens]), stopped, same⟩
  | case5 i terminated a here closes => exact ⟨_, .refl, by simp [next?, here, closes], rfl⟩
  | case6 i terminated a here closes depth ih =>
    obtain ⟨s, run, stopped, same⟩ := ih
    have inner : (depth : Int) + 1 ≠ 0 := by omega
    exact ⟨s, run.head (by simp [next?, here, closes, inner]), stopped, same⟩
  | case7 i depth terminated a here other ih | case8 i depth terminated a here other ih =>
    obtain ⟨s, run, stopped, same⟩ := ih
    exact ⟨s, run.head (by simp [next?, here, other]), stopped, same⟩

end Progress

open Progress (Visits)

/-- From an index of the letters, be they characters or bytes, the loop stops at the first closing
parenthesis outside of strings that has no open one left for it, and at the end if there is none; so
does the scan of a body. A quote counts as not terminated when it stands outside of strings before
that place. The loop gets there, and on the way its counter is the number of parentheses that are
open, which is never below zero. -/
theorem stop_at_unbalanced [DecidableEq α] (letters : List α) (start : Nat)
    (inside : start ≤ letters.length) :
    let extent := scan 0 0 (letters.drop start)
    let found := stop letters start 0 true
    found = (start + extent.length, extent.terminated) ∧
      (IsLeast {p | Unbalanced letters start p} found.1 ∨
        (∀ p, ¬Unbalanced letters start p) ∧ found.1 = letters.length) ∧
      (found.2 = false ↔ ∃ p < found.1, Bare letters start .quote p) ∧
      (∃ s, Visits letters ⟨start, 0, true⟩ s ∧ s.next? letters = none ∧
        found = (s.index, s.terminated)) ∧
      ∀ s, Visits letters ⟨start, 0, true⟩ s →
        0 ≤ s.depth ∧ s.depth = height letters start s.index := by
  intro extent found
  obtain ⟨last, run, stopped, same⟩ := Progress.exists_visits_stop letters start 0 true
  have sound := (Progress.sound_start inside).visits run
  refine ⟨?_, ?_, ?_, ⟨last, run, stopped, same⟩, ?_⟩
  · simp only [found, extent, stop_eq, Bool.true_and]
  · simp only [found, same]
    exact sound.of_stopped stopped
  · simp only [found, same]
    exact sound.terminated_iff
  · intro s visited
    have sound := (Progress.sound_start inside).visits visited
    refine ⟨?_, sound.depth_eq⟩
    rw [sound.depth_eq]
    exact sound.nonneg s.index sound.reached.start_le (Nat.le_refl _)

/-- A string that holds a parenthesis and a wide character, a call within the call, and a quote that
is never closed. -/
theorem stop_at_unbalanced_quoted :
    let bytes := Text.utf8 "f('é)')\")".toList
    (1 ≤ bytes.length ∧ stop bytes 1 0 true = (9, false)) ∧
      IsLeast {p | Unbalanced bytes 1 p} 9 ∧ ∃ p < 9, Bare bytes 1 .quote p := by
  intro bytes
  have inside : 1 ≤ bytes.length := by decide +kernel
  have found : stop bytes 1 0 true = (9, false) := by decide +kernel
  have more : bytes.length = 10 := by decide +kernel
  obtain ⟨-, first, quotes, -, -⟩ := stop_at_unbalanced bytes 1 inside
  rw [found] at first quotes
  refine ⟨⟨inside, found⟩, ?_, quotes.mp rfl⟩
  rcases first with least | ⟨-, ended⟩
  · exact least
  · rw [more] at ended
    cases ended

end FeatureQuery.Body
