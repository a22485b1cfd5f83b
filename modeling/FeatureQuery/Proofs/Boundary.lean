import FeatureQuery.Proofs.Bytes

/-!
# Boundaries

The indices of a text, held in bytes, at which it can be cut without cutting a character apart.
A slice succeeds when it starts and ends at two of them.
-/

namespace FeatureQuery

namespace Text

variable {t rest front back piece : Text} {i j n : Nat}

/-- The index `i` is in front of a character, or behind the last. -/
def OnBoundary (t : Text) (i : Nat) : Prop := ∃ front back, t = front ++ back ∧ i = front.width

/-- The bytes from `i` up to `j`. -/
def slice? (i j : Nat) (t : Text) : Option Text :=
  if i ≤ j then do
    let rest ← dropBytes? i t
    let back ← dropBytes? (j - i) rest
    return rest.take (rest.length - back.length)
  else none

theorem OnBoundary.le_width (h : OnBoundary t i) : i ≤ t.width := by
  obtain ⟨front, back, rfl, rfl⟩ := h
  rw [width_append]
  exact Nat.le_add_right _ _

theorem onBoundary_cons {c : Char} :
    OnBoundary (c :: t) i ↔ i = 0 ∨ ∃ j, i = c.utf8Size + j ∧ OnBoundary t j := by
  constructor
  · rintro ⟨front, back, split, rfl⟩
    cases front with
    | nil => exact .inl rfl
    | cons d front =>
      obtain ⟨rfl, rfl⟩ := List.cons.inj split
      exact .inr ⟨_, rfl, front, back, rfl, rfl⟩
  · rintro (rfl | ⟨j, rfl, front, back, rfl, rfl⟩)
    · exact ⟨[], _, rfl, rfl⟩
    · exact ⟨c :: front, back, rfl, rfl⟩

/-- A boundary can be seen from the byte that stands there. -/
theorem onBoundary_iff : OnBoundary t i ↔ i = t.width ∨ ∃ b ∈ t.utf8[i]?, b.IsUTF8FirstByte := by
  induction t generalizing i with
  | nil => simp [OnBoundary]
  | cons c t ih =>
    have pos := c.utf8Size_pos
    rw [onBoundary_cons, width_cons, utf8_cons]
    rcases Nat.lt_or_ge i c.utf8Size with inside | behind
    · have here : i < (String.utf8EncodeChar c).length := by
        rwa [String.length_utf8EncodeChar]
      rw [List.getElem?_append_left here, List.getElem?_eq_getElem here]
      simp only [Option.mem_some_iff, exists_eq_left', UInt8.isUTF8FirstByte_getElem_utf8EncodeChar]
      constructor
      · rintro (rfl | ⟨j, rfl, -⟩)
        · exact .inr rfl
        · omega
      · rintro (rfl | rfl)
        · omega
        · exact .inl rfl
    · obtain ⟨j, rfl⟩ := Nat.exists_eq_add_of_le behind
      rw [List.getElem?_append_right (by simp), String.length_utf8EncodeChar,
        Nat.add_sub_cancel_left]
      simp only [Nat.add_left_cancel_iff, ← ih]
      constructor
      · rintro (none | ⟨k, rfl, there⟩)
        · omega
        · exact there
      · exact fun there => .inr ⟨j, rfl, there⟩

theorem exists_of_dropBytes? (h : dropBytes? n t = some rest) :
    ∃ front, t = front ++ rest ∧ n = front.width := by
  fun_induction dropBytes? n t with
  | case1 t =>
    cases h
    exact ⟨[], rfl, rfl⟩
  | case2 => cases h
  | case3 n c t fits ih =>
    obtain ⟨front, rfl, width⟩ := ih h
    refine ⟨c :: front, rfl, ?_⟩
    rw [width_cons]
    omega
  | case4 => cases h

theorem slice?_width (front piece back : Text) :
    slice? front.width (front.width + piece.width) (front ++ (piece ++ back)) = some piece := by
  rw [slice?, if_pos (Nat.le_add_right _ _), Nat.add_sub_cancel_left, Cursor.dropBytes?_width]
  simp [Cursor.dropBytes?_width]

/-- Only a slice between two boundaries succeeds. -/
theorem isSome_slice?_iff :
    (slice? i j t).isSome ↔ i ≤ j ∧ OnBoundary t i ∧ OnBoundary t j := by
  constructor
  · intro h
    unfold slice? at h
    split at h
    · rename_i ordered
      obtain ⟨piece, h⟩ := Option.isSome_iff_exists.mp h
      obtain ⟨rest, dropped, h⟩ := Option.bind_eq_some_iff.mp h
      obtain ⟨back, dropped', -⟩ := Option.bind_eq_some_iff.mp h
      obtain ⟨front, rfl, width⟩ := exists_of_dropBytes? dropped
      obtain ⟨middle, rfl, width'⟩ := exists_of_dropBytes? dropped'
      refine ⟨ordered, ⟨front, _, rfl, width⟩, ⟨front ++ middle, back, by simp, ?_⟩⟩
      rw [width_append]
      omega
    · cases h
  · rintro ⟨ordered, ⟨front, back, rfl, rfl⟩, ⟨front', back', split, rfl⟩⟩
    rcases List.append_eq_append_iff.mp split with ⟨piece, rfl, rfl⟩ | ⟨piece, rfl, rfl⟩
    · rw [width_append, slice?_width]
      rfl
    · -- The bounds are in order, so that nothing lies between them.
      have none : piece = [] := by
        cases piece with
        | nil => rfl
        | cons c piece =>
          have pos := c.utf8Size_pos
          simp only [width_append, width_cons] at ordered
          omega
      subst none
      have empty := slice?_width front' [] back
      simp only [width_nil, Nat.add_zero, List.nil_append] at empty
      simp [empty]

end Text

end FeatureQuery
