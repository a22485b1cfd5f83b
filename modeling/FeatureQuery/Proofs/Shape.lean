import FeatureQuery.Proofs.Acceptance
import FeatureQuery.Proofs.Key
import FeatureQuery.Proofs.Paths
import FeatureQuery.Proofs.Restart

/-!
# The shape of what is read

A group has the operands that its connectives join, and a leaf has the key of a token, which starts
with a letter. A phrase only grows in height where it nests, but for the group of its own level.
-/

namespace FeatureQuery

variable {r : Phrase.Role} {c : Condition} {n : Nat}

namespace Condition

mutual

/-- Nodes on the longest path, the leaf included. -/
def height : Condition → Nat
  | .feature .. => 1
  | .not c => c.height + 1
  | .group _ cs => heights cs + 1

def heights : List Condition → Nat
  | [] => 0
  | c :: cs => max c.height (heights cs)

end

theorem heights_le_iff {cs : List Condition} : heights cs ≤ n ↔ ∀ c ∈ cs, c.height ≤ n := by
  induction cs with
  | nil => simp [heights]
  | cons c cs ih => rw [heights, Nat.max_le, ih, List.forall_mem_cons]

/-- This holds of every node. -/
def Everywhere (P : Condition → Prop) (c : Condition) : Prop :=
  ∀ path d, c.descend? path = some d → P d

theorem everywhere_iff {P : Condition → Prop} :
    Everywhere P c ↔ P c ∧ ∀ d ∈ c.children, Everywhere P d := by
  constructor
  · intro h
    refine ⟨h [] c rfl, ?_⟩
    intro d mem path e reached
    obtain ⟨i, child⟩ := List.mem_iff_getElem?.mp mem
    exact h (i :: path) e (by simpa [descend?, child] using reached)
  · rintro ⟨root, below⟩ path d reached
    cases path with
    | nil =>
      cases reached
      exact root
    | cons i path =>
      rw [descend?] at reached
      split at reached
      · cases reached
      · rename_i e child
        exact below e (List.mem_of_getElem? child) path d reached

/-- A leaf has a key that is its own, and a group has enough operands for its junction. -/
def Proper : Condition → Prop
  | .feature _ key => key ≠ [] ∧ (∀ a ∈ key, Text.isBlank a = false) ∧ Key.normalize key = key
  | .not _ => True
  | .group j cs => (if j = .mixed then 3 else 2) ≤ cs.length

end Condition

open Condition (Everywhere Proper)

theorem Junction.two_le_length_of_mixed {connectives : List Connective}
    (h : Junction.ofUse connectives = .mixed) : 2 ≤ connectives.length := by
  unfold ofUse at h
  split at h
  · cases h
  · split at h
    · cases h
    · match connectives with
      | [] => simp_all
      | [k] => cases k <;> simp_all
      | _ :: _ :: _ => simp

namespace Phrase

theorem length_operands (p : Phrase r) : p.operands.length = p.connectives.length + 1 := by
  induction p with
  | feature | not | parens => rfl
  | single o => rfl
  | join o k s p _ ih => simp [operands, connectives, ih]

theorem condition_single_or_group (p : Phrase .level) :
    p.operands = [p.condition] ∨
      p.condition = .group (.ofUse p.connectives) p.operands ∧ p.connectives ≠ [] := by
  cases p with
  | single o => exact .inl rfl
  | join o k s p => exact .inr ⟨rfl, by simp [connectives]⟩

/-- Tokens that are features all have a key. -/
def HasKeys (tokens : List Token) : Prop :=
  ∀ token ∈ tokens, ∀ f, token.kind = .feature f → Key.normalize token.raw ≠ []

theorem proper_group {p : Phrase .level} (joined : p.connectives ≠ []) :
    Proper (.group (.ofUse p.connectives) p.operands) := by
  have length := p.length_operands
  have some := List.length_pos_iff.mpr joined
  show (if Junction.ofUse p.connectives = .mixed then 3 else 2) ≤ p.operands.length
  split
  · have both := Junction.two_le_length_of_mixed ‹_›
    omega
  · omega

theorem proper_level (p : Phrase .level) (operands : ∀ c ∈ p.operands, Everywhere Proper c) :
    Everywhere Proper p.condition := by
  rcases p.condition_single_or_group with single | ⟨group, joined⟩
  · exact operands _ (by simp [single])
  · rw [group]
    exact Condition.everywhere_iff.mpr ⟨proper_group joined, operands⟩

theorem proper_operands (p : Phrase r) (keys : HasKeys p.tokens) :
    ∀ c ∈ p.operands, Everywhere Proper c := by
  induction p with
  | feature f s =>
    intro c mem
    obtain rfl := List.mem_singleton.mp mem
    have key := keys _ (List.mem_singleton_self _) f rfl
    have own : Proper (.feature f.kind (Key.normalize s.raw)) :=
      ⟨key, fun _ => Key.isBlank_of_mem_normalize, Key.normalize_normalize s.raw⟩
    exact Condition.everywhere_iff.mpr ⟨own, by simp [Condition.children]⟩
  | not s o ih =>
    intro c mem
    obtain rfl := List.mem_singleton.mp mem
    have inner := ih (fun token mem => keys token (List.mem_cons_of_mem _ mem))
    rw [operands_operand] at inner
    exact Condition.everywhere_iff.mpr ⟨trivial, inner⟩
  | parens opening p closing ih =>
    intro c mem
    obtain rfl := List.mem_singleton.mp mem
    have inner := ih (fun token mem => keys token (by simp [tokens, mem]))
    exact proper_level p inner
  | single o ih =>
    have inner := ih keys
    rwa [operands_operand] at inner
  | join o k s p iho ihp =>
    have first := iho (fun token mem => keys token (by simp [tokens, mem]))
    have others := ihp (fun token mem => keys token (by simp [tokens, mem]))
    rw [operands_operand] at first
    exact List.forall_mem_cons.mpr ⟨first _ (List.mem_singleton_self _), others⟩

theorem height_level (p : Phrase .level) (operands : ∀ c ∈ p.operands, c.height ≤ n) :
    p.condition.height ≤ n + 1 := by
  rcases p.condition_single_or_group with single | ⟨group, -⟩
  · exact Nat.le_succ_of_le (operands _ (by simp [single]))
  · rw [group, Condition.height]
    exact Nat.succ_le_succ (Condition.heights_le_iff.mpr operands)

/-- A level in parentheses may be one higher than its operands, and so may a `not`. -/
theorem height_operands (p : Phrase r) : ∀ c ∈ p.operands, c.height ≤ p.nesting + 1 := by
  induction p with
  | feature f s =>
    intro c mem
    obtain rfl := List.mem_singleton.mp mem
    exact Nat.le_refl 1
  | not s o ih =>
    intro c mem
    obtain rfl := List.mem_singleton.mp mem
    exact Nat.succ_le_succ (ih _ (by simp))
  | parens opening p closing ih =>
    intro c mem
    obtain rfl := List.mem_singleton.mp mem
    exact height_level p ih
  | single o ih => simpa [operands, nesting] using ih
  | join o k s p iho ihp =>
    have first := iho o.condition (by simp)
    refine List.forall_mem_cons.mpr ⟨?_, ?_⟩
    · exact Nat.le_trans first (Nat.succ_le_succ (Nat.le_max_left _ _))
    · intro c mem
      exact Nat.le_trans (ihp c mem) (Nat.succ_le_succ (Nat.le_max_right _ _))

end Phrase

/-- The text of a token starts with a letter, so a key is never empty. -/
theorem hasKeys_tokenize (t : Text) : Phrase.HasKeys (tokenize t) := by
  intro token mem f _ none
  obtain ⟨_, _, -, -, lexed⟩ := (cuts_tokenize t).exists_lexed_of_mem mem
  obtain ⟨a, head, letter⟩ := lexed.starts
  have blank := Key.normalize_eq_nil_iff.mp none a (List.mem_of_mem_head? head)
  rw [Token.isGap_of_isBlank blank] at letter
  cases letter

namespace Condition

theorem everywhere_proper_of_parse {t : Text} (accepted : parse t = .ok c) :
    Everywhere Proper c := by
  obtain ⟨-, p, written, -, rfl⟩ := parse_eq_ok_iff.mp accepted
  have keys : Phrase.HasKeys p.tokens := written ▸ hasKeys_tokenize t
  exact p.proper_level (p.proper_operands keys)

theorem height_of_parse {t : Text} (accepted : parse t = .ok c) : c.height ≤ maxDepth + 2 := by
  obtain ⟨-, p, -, fits, rfl⟩ := parse_eq_ok_iff.mp accepted
  exact Nat.le_trans (p.height_level p.height_operands) (Nat.add_le_add_right fits 2)

/-- In a condition that was read every conjunction and every disjunction has two operands, and every
mixed group three. Every key is a key of its own, and neither empty nor with blanks in it. However
long the text is, no path has more than 258 nodes. -/
theorem parse_shape {t : Text} {c : Condition} (accepted : parse t = .ok c) :
    (∀ path j cs, c.descend? path = some (.group j cs) →
      (if j = .mixed then 3 else 2) ≤ cs.length) ∧
    (∀ path kind key, c.descend? path = some (.feature kind key) →
      key ≠ [] ∧ (∀ a ∈ key, Text.isBlank a = false) ∧ Key.normalize key = key) ∧
    c.height ≤ 258 := by
  have proper := everywhere_proper_of_parse accepted
  refine ⟨?_, ?_, height_of_parse accepted⟩
  · intro path j cs reached
    exact proper path _ reached
  · intro path kind key reached
    exact proper path _ reached

/-- A mixed group under a `not`, with an uppercase letter and blanks in one of its features. -/
theorem parse_shape_mixed :
    let t := "not ((A: É \t1) and (b: 1) or (c))".toList
    let key := "a:é1".toList
    let cs := [.feature .declaration key, .feature .declaration "b:1".toList,
      .feature .invalid "c".toList]
    let c := Condition.not (.group .mixed cs)
    parse t = .ok c ∧ c.descend? [0] = some (.group .mixed cs) ∧ 3 ≤ cs.length ∧
      c.descend? [0, 0] = some (.feature .declaration key) ∧ Key.normalize key = key ∧
      c.height ≤ 258 := by
  intro t key cs c
  have accepted : parse t = .ok c := by decide +kernel
  obtain ⟨groups, leaves, shallow⟩ := parse_shape accepted
  have group : c.descend? [0] = some (.group .mixed cs) := rfl
  have leaf : c.descend? [0, 0] = some (.feature .declaration key) := rfl
  exact ⟨accepted, group, groups [0] .mixed cs group, leaf, (leaves [0, 0] _ key leaf).2.2, shallow⟩

end Condition

end FeatureQuery
