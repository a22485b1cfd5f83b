import FeatureQuery.Condition.Evaluate

/-!
# Paths into a condition

A condition is a tree, and a path of child indices leads to each of its nodes. A condition asks
something of a feature for each path to one of its leaves that crosses only conjunctions and
negations, and each negation on the way turns around what is asked.
-/

namespace FeatureQuery.Condition

variable {key : Text} {b : Bool} {c d : Condition} {i : Nat} {path : List Nat}

def children : Condition → List Condition
  | .feature .. => []
  | .not c => [c]
  | .group _ cs => cs

def isNot : Condition → Bool
  | .not _ => true
  | .feature .. | .group .. => false

def isConjunction : Condition → Bool
  | .group .all _ => true
  | .feature .. | .not _ | .group .any _ | .group .mixed _ => false

/-- Follow a path of child indices. -/
def descend? (c : Condition) : List Nat → Option Condition
  | [] => some c
  | i :: path =>
    match c.children[i]? with
    | none => none
    | some d => d.descend? path

/-- The nodes that a path leaves, from the root on. -/
def crossed (c : Condition) : List Nat → List Condition
  | [] => []
  | i :: path =>
    match c.children[i]? with
    | none => []
    | some d => c :: d.crossed path

/-- A path to `d`, through conjunctions and negations only. -/
structure Leads (c : Condition) (path : List Nat) (d : Condition) : Prop where
  reached : c.descend? path = some d
  through : ∀ e ∈ c.crossed path, e.isConjunction ∨ e.isNot

/-- A path to a leaf with this key that can be met, through conjunctions and negations only. -/
structure Reaches (key : Text) (c : Condition) (path : List Nat) : Prop where
  leaf : ∃ kind, (kind = .declaration ∨ kind = .function) ∧
    c.descend? path = some (.feature kind key)
  through : ∀ d ∈ c.crossed path, d.isConjunction ∨ d.isNot

def negations (c : Condition) (path : List Nat) : Nat := (c.crossed path).countP isNot

/-- A path with an even number of negations asks that the feature passes, one with an odd number
that it fails. -/
def AsksFor (key : Text) (b : Bool) (c : Condition) (path : List Nat) : Prop :=
  c.Reaches key path ∧ c.negations path % 2 = if b then 0 else 1

theorem leads_nil : c.Leads [] d ↔ c = d := by
  constructor
  · rintro ⟨reached, -⟩
    exact Option.some.inj reached
  · rintro rfl
    exact ⟨rfl, by simp [crossed]⟩

theorem leads_cons {e : Condition} : c.Leads (i :: path) e ↔
    (c.isConjunction ∨ c.isNot) ∧ ∃ d, c.children[i]? = some d ∧ d.Leads path e := by
  cases child : c.children[i]? with
  | none =>
    apply iff_of_false
    · rintro ⟨reached, -⟩
      simp [descend?, child] at reached
    · rintro ⟨-, d, found, -⟩
      cases found
  | some d =>
    have ends : c.descend? (i :: path) = d.descend? path := by simp [descend?, child]
    have nodes : c.crossed (i :: path) = c :: d.crossed path := by simp [crossed, child]
    constructor
    · rintro ⟨reached, through⟩
      rw [nodes, List.forall_mem_cons] at through
      exact ⟨through.1, d, rfl, ends ▸ reached, through.2⟩
    · rintro ⟨here, d, found, reached, through⟩
      cases found
      refine ⟨ends ▸ reached, ?_⟩
      rw [nodes, List.forall_mem_cons]
      exact ⟨here, through⟩

theorem reaches_iff_leads : c.Reaches key path ↔
    ∃ kind, (kind = .declaration ∨ kind = .function) ∧ c.Leads path (.feature kind key) := by
  constructor
  · rintro ⟨⟨kind, valid, reached⟩, through⟩
    exact ⟨kind, valid, reached, through⟩
  · rintro ⟨kind, valid, reached, through⟩
    exact ⟨⟨kind, valid, reached⟩, through⟩

theorem reaches_nil : c.Reaches key [] ↔
    ∃ kind, (kind = .declaration ∨ kind = .function) ∧ c = .feature kind key := by
  simp only [reaches_iff_leads, leads_nil]

theorem reaches_cons : c.Reaches key (i :: path) ↔
    (c.isConjunction ∨ c.isNot) ∧ ∃ d, c.children[i]? = some d ∧ d.Reaches key path := by
  simp only [reaches_iff_leads, leads_cons]
  constructor
  · rintro ⟨kind, valid, here, d, child, leads⟩
    exact ⟨here, d, child, kind, valid, leads⟩
  · rintro ⟨here, d, child, kind, valid, leads⟩
    exact ⟨kind, valid, here, d, child, leads⟩

theorem negations_cons (child : c.children[i]? = some d) :
    c.negations (i :: path) = d.negations path + if c.isNot then 1 else 0 := by
  simp [negations, crossed, child, List.countP_cons]

theorem child_not : (not c).children[i]? = some d ↔ i = 0 ∧ c = d := by
  cases i <;> simp [children]

theorem all_of_crossed {j : Junction} {cs : List Condition}
    (h : (group j cs).isConjunction ∨ (group j cs).isNot) : j = .all := by
  cases j <;> simp_all [isConjunction, isNot]

/-- One more negation turns around what is asked. -/
theorem parity_not : negations (.not c) (0 :: path) % 2 = (if b then 0 else 1) ↔
    c.negations path % 2 = if !b then 0 else 1 := by
  rw [negations_cons (child_not.mpr ⟨rfl, rfl⟩)]
  cases b <;> simp [isNot] <;> omega

theorem exists_asksFor_feature {kind : Feature.Kind} {k : Text} :
    (∃ path, AsksFor key b (.feature kind k) path) ↔
      (kind = .declaration ∨ kind = .function) ∧ k = key ∧ b = true := by
  constructor
  · rintro ⟨path, reached, parity⟩
    cases path with
    | nil =>
      obtain ⟨_, valid, leaf⟩ := reaches_nil.mp reached
      cases leaf
      cases b with
      | false => cases parity
      | true => exact ⟨valid, rfl, rfl⟩
    | cons i path =>
      obtain ⟨-, d, child, -⟩ := reaches_cons.mp reached
      simp [children] at child
  · rintro ⟨valid, rfl, rfl⟩
    exact ⟨[], reaches_nil.mpr ⟨kind, valid, rfl⟩, rfl⟩

theorem exists_asksFor_not :
    (∃ path, AsksFor key b (.not c) path) ↔ ∃ path, AsksFor key (!b) c path := by
  constructor
  · rintro ⟨path, reached, parity⟩
    cases path with
    | nil =>
      obtain ⟨kind, -, leaf⟩ := reaches_nil.mp reached
      cases leaf
    | cons i path =>
      obtain ⟨-, d, child, tail⟩ := reaches_cons.mp reached
      obtain ⟨rfl, rfl⟩ := child_not.mp child
      exact ⟨path, tail, parity_not.mp parity⟩
  · rintro ⟨path, reached, parity⟩
    have longer := reaches_cons.mpr ⟨.inr rfl, c, child_not.mpr ⟨rfl, rfl⟩, reached⟩
    exact ⟨0 :: path, longer, parity_not.mpr parity⟩

theorem exists_asksFor_group {j : Junction} {cs : List Condition} :
    (∃ path, AsksFor key b (.group j cs) path) ↔
      j = .all ∧ ∃ c ∈ cs, ∃ path, AsksFor key b c path := by
  constructor
  · rintro ⟨path, reached, parity⟩
    cases path with
    | nil =>
      obtain ⟨kind, -, leaf⟩ := reaches_nil.mp reached
      cases leaf
    | cons i path =>
      obtain ⟨here, c, child, tail⟩ := reaches_cons.mp reached
      rw [negations_cons child] at parity
      exact ⟨all_of_crossed here, c, List.mem_of_getElem? child, path, tail, parity⟩
  · rintro ⟨rfl, c, mem, path, reached, parity⟩
    obtain ⟨i, child⟩ := List.mem_iff_getElem?.mp mem
    refine ⟨i :: path, reaches_cons.mpr ⟨.inl rfl, c, child, reached⟩, ?_⟩
    rw [negations_cons (c := .group .all cs) child]
    exact parity

theorem contains_evaluate_iff_asksFor (key : Text) (c : Condition) (b : Bool) :
    (evaluate key c).contains b ↔ ∃ path, AsksFor key b c path := by
  induction c generalizing b with
  | feature kind k =>
    rw [exists_asksFor_feature]
    by_cases hit : k = key <;> cases kind <;> simp [evaluate, hit]
  | not c ih => rw [exists_asksFor_not, evaluate, Outcomes.contains_negate, ih]
  | group j cs ih =>
    rw [exists_asksFor_group]
    cases j with
    | all =>
      rw [evaluate, contains_evaluateAll, eq_self, true_and]
      apply exists_congr
      intro c
      apply and_congr_right
      intro mem
      exact ih c mem b
    | any | mixed => simp [evaluate]

/-- What a condition asks of a feature can be read off the paths to it, and so can the one answer:
a path with an odd number of negations wins, and without a path nothing is asked. -/
theorem evaluate_reads_paths (key : Text) (c : Condition) :
    (∀ b, (evaluate key c).contains b ↔ ∃ path, AsksFor key b c path) ∧
    ((evaluate key c).resolve = some false ↔ ∃ path, AsksFor key false c path) ∧
    ((evaluate key c).resolve = some true ↔
      (∃ path, AsksFor key true c path) ∧ ¬∃ path, AsksFor key false c path) ∧
    ((evaluate key c).resolve = none ↔ ¬∃ path, c.Reaches key path) := by
  have asked := contains_evaluate_iff_asksFor key c
  refine ⟨asked, ?_, ?_, ?_⟩
  · rw [Outcomes.resolve_eq_false_iff, asked]
  · rw [Outcomes.resolve_eq_true_iff, asked, asked]
  · rw [Outcomes.resolve_eq_none_iff]
    constructor
    · rintro none ⟨path, reached⟩
      rcases Nat.mod_two_eq_zero_or_one (c.negations path) with even | odd
      · exact none true ((asked true).mpr ⟨path, reached, even⟩)
      · exact none false ((asked false).mpr ⟨path, reached, odd⟩)
    · intro none b contained
      obtain ⟨path, reached, -⟩ := (asked b).mp contained
      exact none ⟨path, reached⟩

end FeatureQuery.Condition
