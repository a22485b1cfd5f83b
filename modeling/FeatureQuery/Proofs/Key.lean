import FeatureQuery.Key

/-!
# Keys are their own keys

A lowercase character has no other lowercase, and no character has a blank for its lowercase. Both
are read off the table: the images of a run of characters lie apart from every run of characters
that have a lowercase and from every run of blanks.
-/

namespace FeatureQuery

namespace CaseRun

variable {r s : CaseRun} {n : Nat}

/-- Where no lowercase lies: the characters that have another lowercase, and the blanks. -/
def restricted : List CaseRun :=
  ⟨0x130, 0x130, 1, 0⟩ :: caseRuns ++ Text.blankRuns.map fun (first, last) => ⟨first, last, 1, 0⟩

/-- The images of `r` end before `s` starts, or start after it ends, or are out of step with it. -/
def misses (r s : CaseRun) : Bool :=
  (r.image r.last).blt s.first || (s.last.blt (r.image r.first) ||
    (((r.step % s.step).beq 0 || r.first.beq r.last) &&
      !((r.image r.first - s.first) % s.step).beq 0))

-- Each of some forty thousand pairs is compared, hence `Nat.blt` and `Nat.beq`.
theorem images_miss_restricted :
    (caseRuns.all fun r => restricted.all r.misses) = true := by decide +kernel

theorem images_positive : ∀ r ∈ caseRuns, 0 ≤ r.first + r.shift := by decide +kernel

theorem zero_not_restricted : ∀ s ∈ restricted, s.covers 0 = false := by decide +kernel

theorem covers_iff :
    s.covers n = true ↔ s.first ≤ n ∧ n ≤ s.last ∧ (n - s.first) % s.step = 0 := by
  simp [covers, and_assoc]

theorem image_eq (positive : 0 ≤ r.first + r.shift) (le : r.first ≤ n) :
    r.image n = r.image r.first + (n - r.first) := by
  unfold image
  omega

theorem not_covers_of_misses (apart : r.misses s = true) (positive : 0 ≤ r.first + r.shift)
    (covered : r.covers n = true) : s.covers (r.image n) = false := by
  obtain ⟨least, most, steps⟩ := covers_iff.mp covered
  have here := image_eq positive least
  have last := image_eq positive (Nat.le_trans least most)
  simp only [misses, Bool.or_eq_true, Bool.and_eq_true, Nat.blt_eq, Nat.beq_eq,
    Bool.not_eq_eq_eq_not, Bool.not_true, ← Bool.not_eq_true] at apart
  apply Bool.eq_false_iff.mpr
  intro both
  obtain ⟨starts, ends, together⟩ := covers_iff.mp both
  rcases apart with before | after | ⟨same, out⟩
  · omega
  · omega
  · have whole : s.step ∣ n - r.first := by
      rcases same with divides | single
      · exact Nat.dvd_trans (Nat.dvd_of_mod_eq_zero divides) (Nat.dvd_of_mod_eq_zero steps)
      · have none : n - r.first = 0 := by omega
        exact none ▸ Nat.dvd_zero s.step
    have starts : s.first ≤ r.image r.first := by
      apply Nat.le_of_not_lt
      intro before
      exact out (by rw [Nat.sub_eq_zero_of_le (Nat.le_of_lt before), Nat.zero_mod])
    have offset : r.image n - s.first = r.image r.first - s.first + (n - r.first) := by omega
    rw [offset] at together
    exact out (Nat.mod_eq_zero_of_dvd
      ((Nat.dvd_add_left whole).mp (Nat.dvd_of_mod_eq_zero together)))

theorem not_covers_image (listed : r ∈ caseRuns) (covered : r.covers n = true)
    (mem : s ∈ restricted) : s.covers (r.image n) = false := by
  have apart := List.all_eq_true.mp (List.all_eq_true.mp images_miss_restricted r listed) s mem
  exact not_covers_of_misses apart (images_positive r listed) covered

end CaseRun

namespace Text

open CaseRun (restricted)

variable {a b : Char} {t : Text}

/-- A character that has no other lowercase, and is no blank. -/
def Settled (a : Char) : Prop := ∀ s ∈ restricted, s.covers a.toNat = false

theorem Settled.lowerChar_eq (h : Settled a) : lowerChar a = [a] := by
  have other : a.toNat ≠ 0x130 := by
    intro is
    have free := h ⟨0x130, 0x130, 1, 0⟩ (by simp [restricted])
    simp [is, CaseRun.covers] at free
  have none : caseRuns.find? (·.covers a.toNat) = none := by
    rw [List.find?_eq_none]
    intro s mem
    simpa using h s (by simp [restricted, mem])
  rw [lowerChar, if_neg other, none]

theorem Settled.isBlank_eq (h : Settled a) : isBlank a = false := by
  apply List.any_eq_false.mpr
  rintro ⟨first, last⟩ mem
  have free := h ⟨first, last, 1, 0⟩ (by
    simp only [restricted, List.cons_append, List.mem_cons, List.mem_append, List.mem_map]
    exact .inr (.inr ⟨_, mem, rfl⟩))
  simpa [CaseRun.covers, Nat.mod_one] using free

/-- The number of a surrogate, or one beyond the last, gives the character 0. -/
theorem toNat_ofNat_cases (n : Nat) : (Char.ofNat n).toNat = n ∨ (Char.ofNat n).toNat = 0 := by
  by_cases valid : n.isValidChar
  · rw [Char.ofNat, dif_pos valid]
    exact .inl (UInt32.toNat_ofNatLT ..)
  · rw [Char.ofNat, dif_neg valid]
    exact .inr rfl

theorem settled_of_image {r : CaseRun} (listed : r ∈ caseRuns) (covered : r.covers a.toNat = true) :
    Settled (Char.ofNat (r.image a.toNat)) := by
  intro s mem
  rcases toNat_ofNat_cases (r.image a.toNat) with same | zero
  · rw [same]
    exact CaseRun.not_covers_image listed covered mem
  · rw [zero]
    exact CaseRun.zero_not_restricted s mem

theorem settled_of_dotted : ∀ b ∈ ['i', Char.ofNat 0x307], Settled b := by
  have free : ∀ s ∈ restricted, s.covers 0x69 = false ∧ s.covers 0x307 = false := by
    decide +kernel
  rintro b mem s listed
  rcases List.mem_cons.mp mem with rfl | mem
  · exact (free s listed).1
  · obtain rfl := List.mem_singleton.mp mem
    exact (free s listed).2

/-- What comes out of a character is the character itself, or settled. -/
theorem mem_lowerChar (mem : b ∈ lowerChar a) : Settled b ∨ b = a ∧ lowerChar a = [a] := by
  unfold lowerChar at mem ⊢
  split at mem
  · exact .inl (settled_of_dotted b mem)
  · rename_i other
    split at mem
    · rename_i r found
      obtain rfl := List.mem_singleton.mp mem
      exact .inl (settled_of_image (List.mem_of_find?_eq_some found)
        (by simpa using List.find?_some found))
    · rename_i none
      obtain rfl := List.mem_singleton.mp mem
      exact .inr ⟨rfl, if_neg other⟩

theorem lowerChar_of_mem (mem : b ∈ lowerChar a) : lowerChar b = [b] := by
  rcases mem_lowerChar mem with settled | ⟨rfl, fixed⟩
  · exact settled.lowerChar_eq
  · exact fixed

theorem isBlank_of_mem_lowerChar (mem : b ∈ lowerChar a) (letter : isBlank a = false) :
    isBlank b = false := by
  rcases mem_lowerChar mem with settled | ⟨rfl, -⟩
  · exact settled.isBlank_eq
  · exact letter

theorem lowerChar_ne_nil (a : Char) : lowerChar a ≠ [] := by
  unfold lowerChar
  split
  · simp
  · split <;> simp

theorem lower_eq_self (fixed : ∀ a ∈ t, lowerChar a = [a]) : lower t = t := by
  induction t with
  | nil => rfl
  | cons a t ih =>
    rw [List.forall_mem_cons] at fixed
    rw [lower, List.flatMap_cons, fixed.1, ← lower, ih fixed.2, List.singleton_append]

end Text

namespace Key

variable {t : Text}

theorem isBlank_of_mem_normalize {a : Char} (mem : a ∈ normalize t) : Text.isBlank a = false := by
  obtain ⟨b, kept, mem⟩ := List.mem_flatMap.mp mem
  have letter : Text.isBlank b = false := by simpa using (List.mem_filter.mp kept).2
  exact Text.isBlank_of_mem_lowerChar mem letter

theorem normalize_normalize (t : Text) : normalize (normalize t) = normalize t := by
  have kept : (normalize t).filter (!Text.isBlank ·) = normalize t := by
    rw [List.filter_eq_self]
    intro a mem
    simpa using isBlank_of_mem_normalize mem
  rw [normalize, kept]
  apply Text.lower_eq_self
  intro a mem
  obtain ⟨b, -, mem⟩ := List.mem_flatMap.mp mem
  exact Text.lowerChar_of_mem mem

theorem normalize_eq_nil_iff : normalize t = [] ↔ ∀ a ∈ t, Text.isBlank a = true := by
  simp [normalize, Text.lower, Text.lowerChar_ne_nil]

end Key

end FeatureQuery
