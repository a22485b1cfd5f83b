import FeatureQuery.Proofs.Bytes
import Mathlib.Algebra.Group.Nat.Even
import Mathlib.Data.List.DropRight
import Mathlib.Order.Bounds.Basic

/-!
# Where a quote is closed

The search for a closer carries one bit along: whether the escapes just passed are odd in number.
What it finds can be said of the letters alone. It is the first place behind the quote that holds
the same letter and has an even run of escapes in front of it, where the run begins behind the
quote.
-/

namespace FeatureQuery.Body

variable {α : Type} [Marked α] {letters front rest : List α} {quote a : α} {escaped : Bool}
  {p q c k : Nat}

/-- Length of the run of escapes that the letters end with. -/
def escapesAtEnd (letters : List α) : Nat := (letters.rtakeWhile (mark · = .escape)).length

/-- Where `quote` may be closed in the letters behind `front`. -/
def closersBehind (front : List α) (quote : α) (rest : List α) : Set Nat :=
  {k | rest[k]? = some quote ∧ Even (escapesAtEnd (front ++ rest.take k))}

/-- Where the quote at `q` may be closed. -/
def closers (letters : List α) (q : Nat) : Set Nat :=
  {c | q < c ∧ (∃ a, letters[q]? = some a ∧ letters[c]? = some a) ∧
    Even (escapesAtEnd ((letters.take c).drop (q + 1)))}

@[simp] theorem escapesAtEnd_nil : escapesAtEnd ([] : List α) = 0 := by
  simp [escapesAtEnd]

theorem escapesAtEnd_concat (front : List α) (a : α) : escapesAtEnd (front ++ [a]) =
    if mark a = .escape then escapesAtEnd front + 1 else 0 := by
  rw [escapesAtEnd, List.rtakeWhile_concat]
  split <;> simp_all [escapesAtEnd]

/-- A run of escapes ends where another letter stands. -/
theorem escapesAtEnd_append_cons (other : mark a ≠ .escape) (front rest : List α) :
    escapesAtEnd (front ++ a :: rest) = escapesAtEnd rest := by
  induction rest using List.reverseRecOn with
  | nil => simp [escapesAtEnd_concat, other]
  | append_singleton rest b ih =>
    rw [← List.cons_append, ← List.append_assoc, escapesAtEnd_concat, escapesAtEnd_concat, ih]

@[simp] theorem zero_mem_closersBehind :
    0 ∈ closersBehind front quote (a :: rest) ↔ a = quote ∧ Even (escapesAtEnd front) := by
  simp [closersBehind]

@[simp] theorem succ_mem_closersBehind : k + 1 ∈ closersBehind front quote (a :: rest) ↔
    k ∈ closersBehind (front ++ [a]) quote rest := by
  simp [closersBehind]

/-- The closers of a quote, counted from the letter behind it. -/
theorem mem_closers_iff (here : letters[q]? = some a) :
    c ∈ closers letters q ↔ ∃ k ∈ closersBehind [] a (letters.drop (q + 1)), c = q + 1 + k := by
  constructor
  · rintro ⟨behind, ⟨b, at_q, at_c⟩, even⟩
    obtain rfl : a = b := Option.some.inj (here.symm.trans at_q)
    obtain ⟨k, rfl⟩ := Nat.exists_eq_add_of_le (Nat.succ_le_of_lt behind)
    refine ⟨k, ⟨by simpa using at_c, ?_⟩, rfl⟩
    simpa [List.drop_take] using even
  · rintro ⟨k, ⟨holds, even⟩, rfl⟩
    refine ⟨by omega, ⟨a, here, by simpa using holds⟩, ?_⟩
    simpa [List.drop_take] using even

/-- What closes a quote would close an earlier one of the same kind. -/
theorem closers_subset (isQuote : mark a = .quote) (at_p : letters[p]? = some a)
    (at_q : letters[q]? = some a) (behind : p < q) : closers letters q ⊆ closers letters p := by
  rintro c ⟨behind', ⟨b, at_q', at_c⟩, even⟩
  obtain rfl : a = b := Option.some.inj (at_q.symm.trans at_q')
  refine ⟨by omega, ⟨a, at_p, at_c⟩, ?_⟩
  have here : (letters.take c)[q]? = some a := by rw [List.getElem?_take_of_lt behind', at_q]
  -- From `p` as from `q`, the run in front of `c` is counted no further back than to `q`.
  have split : (letters.take c).drop (p + 1) =
      ((letters.take c).drop (p + 1)).take (q - (p + 1)) ++
        a :: (letters.take c).drop (q + 1) := by
    conv => lhs; rw [← List.take_append_drop (q - (p + 1)) ((letters.take c).drop (p + 1))]
    rw [List.drop_drop, Nat.add_sub_cancel' behind, drop_of_getElem? here]
  rwa [split, escapesAtEnd_append_cons (by simp [isQuote])]

theorem escaped_nil : false = true ↔ ¬Even (escapesAtEnd ([] : List α)) := by simp

theorem escaped_concat (parity : escaped = true ↔ ¬Even (escapesAtEnd front)) (a : α) :
    decide (mark a = .escape ∧ ¬escaped) = true ↔ ¬Even (escapesAtEnd (front ++ [a])) := by
  by_cases escape : mark a = .escape
  · simp [escapesAtEnd_concat, escape, parity, Nat.even_add_one]
  · simp [escapesAtEnd_concat, escape]

variable [DecidableEq α]

theorem isLeast_of_closerFrom (parity : escaped = true ↔ ¬Even (escapesAtEnd front))
    (found : closerFrom quote escaped rest = some k) :
    IsLeast (closersBehind front quote rest) k := by
  induction rest generalizing front escaped k with
  | nil => cases found
  | cons a rest ih =>
    rw [closerFrom] at found
    split at found
    · rename_i closes
      cases found
      refine ⟨?_, fun j _ => Nat.zero_le j⟩
      simpa [parity] using closes
    · rename_i goesOn
      obtain ⟨j, later, rfl⟩ := Option.map_eq_some_iff.mp found
      obtain ⟨mem, least⟩ := ih (escaped_concat parity a) later
      refine ⟨succ_mem_closersBehind.mpr mem, ?_⟩
      rintro (_ | i) other
      · simp only [zero_mem_closersBehind] at other
        simp [other, parity] at goesOn
      · exact Nat.succ_le_succ (least (succ_mem_closersBehind.mp other))

theorem eq_empty_of_closerFrom (parity : escaped = true ↔ ¬Even (escapesAtEnd front))
    (found : closerFrom quote escaped rest = none) : closersBehind front quote rest = ∅ := by
  induction rest generalizing front escaped with
  | nil => simp [closersBehind]
  | cons a rest ih =>
    rw [closerFrom] at found
    split at found
    · cases found
    · rename_i goesOn
      have none := ih (escaped_concat parity a) (Option.map_eq_none_iff.mp found)
      ext (_ | i)
      · simpa [parity] using goesOn
      · simp [none]

theorem closers_eq_empty (here : letters[q]? = some a)
    (never : findCloser letters (q + 1) a = none) : closers letters q = ∅ := by
  rw [findCloser_eq, Option.map_eq_none_iff, closer] at never
  have none := eq_empty_of_closerFrom escaped_nil never
  ext c
  simp [mem_closers_iff here, none]

theorem isLeast_closers (here : letters[q]? = some a)
    (found : findCloser letters (q + 1) a = some c) : IsLeast (closers letters q) c := by
  rw [findCloser_eq, closer] at found
  obtain ⟨k, closes, rfl⟩ := Option.map_eq_some_iff.mp found
  obtain ⟨mem, first⟩ := isLeast_of_closerFrom escaped_nil closes
  refine ⟨(mem_closers_iff here).mpr ⟨k, mem, rfl⟩, ?_⟩
  intro c other
  obtain ⟨j, mem, rfl⟩ := (mem_closers_iff here).mp other
  exact Nat.add_le_add_left (first mem) _

/-- A quote is closed at its first closer. -/
theorem isLeast_closers_iff (here : letters[q]? = some a) :
    IsLeast (closers letters q) c ↔ findCloser letters (q + 1) a = some c := by
  constructor
  · intro least
    cases found : findCloser letters (q + 1) a with
    | none =>
      have mem := least.1
      simp [closers_eq_empty here found] at mem
    | some d => rw [(isLeast_closers here found).unique least]
  · exact isLeast_closers here

theorem closers_eq_empty_iff (here : letters[q]? = some a) :
    closers letters q = ∅ ↔ findCloser letters (q + 1) a = none := by
  constructor
  · intro empty
    apply Option.eq_none_iff_forall_ne_some.mpr
    intro c found
    have mem := (isLeast_closers here found).1
    simp [empty] at mem
  · exact closers_eq_empty here

/-- Behind a quote that is never closed, no quote of its kind is. -/
theorem findCloser_eq_none_of_lt (isQuote : mark a = .quote) (at_p : letters[p]? = some a)
    (never : findCloser letters (p + 1) a = none) (behind : p < q) (at_q : letters[q]? = some a) :
    findCloser letters (q + 1) a = none := by
  rw [← closers_eq_empty_iff at_p] at never
  rw [← closers_eq_empty_iff at_q, ← Set.subset_empty_iff, ← never]
  exact closers_subset isQuote at_p at_q behind

end FeatureQuery.Body
