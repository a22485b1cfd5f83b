import FeatureQuery.Proofs.Descent

/-!
# Descending without a limit

A descent with a limit is compared with the same descent without one. They end alike, with the same
values of the counter, unless the first is refused for the limit; then the counter of the second
goes beyond it.
-/

namespace FeatureQuery

namespace Descent

variable {m : Nat} {d after next : Descent} {token : Token} {enclosed : Bool} {l : Level}
  {a : Except ParseError Condition}

def unlimited (d : Descent) : Descent := { d with limit := none }

abbrev Result := Except ParseError Condition × Descent

def Outcome.result (out : Outcome d) : Result := (out.1, out.2.val)

/-- What is done with a condition; an error is final. -/
def Result.andThen (r : Result) (next : Condition → Descent → Result) : Result :=
  match r with
  | (.ok c, d) => next c d
  | (.error e, d) => (.error e, d)

theorem advance?_unlimited_eq_none (ended : d.advance? = none) : d.unlimited.advance? = none := by
  unfold advance? at ended ⊢
  simp only [unlimited]
  split at ended
  · rfl
  · cases ended

theorem advance?_unlimited (found : d.advance? = some (token, after)) :
    d.unlimited.advance? = some (token, after.unlimited) := by
  unfold advance? at found ⊢
  simp only [unlimited]
  split at found
  · cases found
  · rename_i here
    cases found
    rfl

theorem operand_of_end (ended : d.advance? = none) :
    d.operand.result = (.error (.invalidSyntax d.input), d) := by
  rw [operand]
  split
  · rfl
  · rename_i found
    cases ended.symm.trans found

theorem operand_of_advance (found : d.advance? = some (token, after)) :
    d.operand.result = match token.kind with
      | .lparen =>
        if after.isFull then (.error (.nestingTooDeep token.span), after)
        else ((level true after.enter).1, (level true after.enter).2.val.leave)
      | .not =>
        if after.isFull then (.error (.nestingTooDeep token.span), after)
        else (after.enter.operand.1.map .not, after.enter.operand.2.val.leave)
      | .feature f => (.ok (.feature f.kind (Key.normalize token.raw)), after)
      | .rparen | .and | .or => (.error (.unexpectedToken token.raw token.span), after) := by
  rw [operand]
  split
  · rename_i ended
    cases ended.symm.trans found
  · rename_i found'
    cases found'.symm.trans found
    cases token.kind with
    | lparen | not =>
      cases full : after.isFull <;> simp [Outcome.result]
    | feature | rparen | and | or => rfl

theorem level_result (enclosed : Bool) (d : Descent) :
    (d.level enclosed).result = d.operand.result.andThen fun c next =>
      (next.others enclosed (Level.empty.add c)).result := by
  rw [level]
  rcases found : d.operand with ⟨_ | c, next⟩ <;> rfl

theorem others_of_end (ended : d.advance? = none) :
    (d.others enclosed l).result = (close enclosed l none, d) := by
  rw [others]
  split
  · rfl
  · rename_i found
    cases ended.symm.trans found

theorem others_of_advance (found : d.advance? = some (token, after)) :
    (d.others enclosed l).result = match connective? token.kind with
      | none => (close enclosed l (some token), after)
      | some k => after.operand.result.andThen fun c next =>
        (next.others enclosed ((l.join k).add c)).result := by
  rw [others]
  split
  · rename_i ended
    cases ended.symm.trans found
  · rename_i found'
    cases found'.symm.trans found
    cases connective? token.kind with
    | none => rfl
    | some k => rcases read : after.operand with ⟨_ | c, next⟩ <;> rfl

namespace Result

variable {r : Result} {ds : List Int} {f : Condition → Descent → Result}

theorem subset_andThen (first : ds ⊆ r.2.depths)
    (later : ∀ c next, r = (.ok c, next) → next.depths ⊆ (f c next).2.depths) :
    ds ⊆ (r.andThen f).2.depths := by
  obtain ⟨_ | c, next⟩ := r
  · exact first
  · exact List.Subset.trans first (later c next rfl)

end Result

theorem length_left_operand (read : d.operand.result = (a, next)) :
    next.left.length ≤ d.left.length := by
  cases read
  exact d.operand.2.property

theorem limit_operand (read : d.operand.result = (a, next)) : next.limit = d.limit := by
  cases read
  exact (restores_operand d).limit

mutual

/-- The counter's values are never forgotten. -/
theorem subset_operand (d : Descent) : d.depths ⊆ d.operand.result.2.depths := by
  cases found : d.advance? with
  | none =>
    rw [operand_of_end found]
    exact List.Subset.refl _
  | some step =>
    obtain ⟨token, after⟩ := step
    have shorter := length_left_advance? found
    have here : d.depths = after.depths := by rw [(advance?_eq_some found).1]
    rw [operand_of_advance found, here]
    split
    · split
      · exact List.Subset.refl _
      · have inner := subset_level true after.enter
        intro n mem
        exact .tail _ (inner (.tail _ mem))
    · split
      · exact List.Subset.refl _
      · have inner := subset_operand after.enter
        intro n mem
        exact .tail _ (inner (.tail _ mem))
    all_goals exact List.Subset.refl _
termination_by 2 * d.left.length

theorem subset_level (enclosed : Bool) (d : Descent) :
    d.depths ⊆ (d.level enclosed).result.2.depths := by
  rw [level_result]
  apply Result.subset_andThen (subset_operand d)
  intro c next read
  have fewer := length_left_operand read
  exact subset_others enclosed _ next
termination_by 2 * d.left.length + 1

theorem subset_others (enclosed : Bool) (l : Level) (d : Descent) :
    d.depths ⊆ (d.others enclosed l).result.2.depths := by
  cases found : d.advance? with
  | none =>
    rw [others_of_end found]
    exact List.Subset.refl _
  | some step =>
    obtain ⟨token, after⟩ := step
    have shorter := length_left_advance? found
    have here : d.depths = after.depths := by rw [(advance?_eq_some found).1]
    rw [others_of_advance found, here]
    split
    · exact List.Subset.refl _
    · apply Result.subset_andThen (subset_operand after)
      intro c next read
      have fewer := length_left_operand read
      exact subset_others enclosed _ next
termination_by 2 * d.left.length

end

/-- How a descent with the limit `m` ends, and how it ends without one: alike, or the limit is
reached, and the other counter goes beyond it. -/
inductive Filters (m : Nat) : Result → Result → Prop where
  | alike (a : Except ParseError Condition) (next : Descent) :
      Filters m (a, next) (a, next.unlimited)
  | full (span : Span) (next : Descent) {r : Result} (beyond : ∃ n ∈ r.2.depths, (m : Int) < n) :
      Filters m (.error (.nestingTooDeep span), next) r

theorem Filters.andThen {x y : Result} {f : Condition → Descent → Result} (first : Filters m x y)
    (grows : ∀ c next, y = (.ok c, next) → next.depths ⊆ (f c next).2.depths)
    (later : ∀ c next, x = (.ok c, next) → Filters m (f c next) (f c next.unlimited)) :
    Filters m (x.andThen f) (y.andThen f) := by
  cases first with
  | alike a next =>
    cases a with
    | ok c => exact later c next rfl
    | error e => exact .alike _ next
  | full span next beyond =>
    obtain ⟨n, mem, beyond⟩ := beyond
    exact .full span next ⟨n, Result.subset_andThen (List.Subset.refl _) grows mem, beyond⟩

theorem Filters.map {x y : Result} (h : Filters m x y) (f : Condition → Condition) :
    Filters m (x.1.map f, x.2) (y.1.map f, y.2) := by
  cases h with
  | alike a next => exact .alike (a.map f) next
  | full span next beyond => exact .full span next beyond

theorem Filters.leave {x y : Result} (h : Filters m x y) :
    Filters m (x.1, x.2.leave) (y.1, y.2.leave) := by
  cases h with
  | alike a next => exact .alike a next.leave
  | full span next beyond =>
    obtain ⟨n, mem, beyond⟩ := beyond
    exact .full span next.leave ⟨n, .tail _ mem, beyond⟩

/-- Where the limit refuses a level, the other descent opens it. -/
theorem Filters.refused (span : Span) {r : Result} (limited : d.limit = some m)
    (full : d.isFull = true) (opened : d.unlimited.enter.depths ⊆ r.2.depths) :
    Filters m (.error (.nestingTooDeep span), d) r := by
  refine .full span d ⟨d.depth + 1, opened (.head _), ?_⟩
  rw [isFull, limited, Option.any_some, decide_eq_true_eq] at full
  exact Int.lt_add_one_of_le full

mutual

theorem filters_operand (d : Descent) (limited : d.limit = some m) :
    Filters m d.operand.result d.unlimited.operand.result := by
  cases found : d.advance? with
  | none =>
    rw [operand_of_end found, operand_of_end (advance?_unlimited_eq_none found)]
    exact .alike _ d
  | some step =>
    obtain ⟨token, after⟩ := step
    have shorter := length_left_advance? found
    have here : after.limit = some m := (restores_advance? found).limit.trans limited
    rw [operand_of_advance found, operand_of_advance (advance?_unlimited found)]
    split
    · split
      · rename_i full
        have opened := subset_level true after.unlimited.enter
        exact .refused token.span here full fun _ mem => .tail _ (opened mem)
      · exact (filters_level true after.enter here).leave
    · split
      · rename_i full
        have opened := subset_operand after.unlimited.enter
        exact .refused token.span here full fun _ mem => .tail _ (opened mem)
      · exact ((filters_operand after.enter here).map .not).leave
    all_goals exact .alike _ after
termination_by 2 * d.left.length

theorem filters_level (enclosed : Bool) (d : Descent) (limited : d.limit = some m) :
    Filters m (d.level enclosed).result (d.unlimited.level enclosed).result := by
  rw [level_result, level_result]
  apply (filters_operand d limited).andThen
  · intro c next read
    exact subset_others enclosed _ next
  · intro c next read
    have fewer := length_left_operand read
    exact filters_others enclosed _ next ((limit_operand read).trans limited)
termination_by 2 * d.left.length + 1

theorem filters_others (enclosed : Bool) (l : Level) (d : Descent) (limited : d.limit = some m) :
    Filters m (d.others enclosed l).result (d.unlimited.others enclosed l).result := by
  cases found : d.advance? with
  | none =>
    rw [others_of_end found, others_of_end (advance?_unlimited_eq_none found)]
    exact .alike _ d
  | some step =>
    obtain ⟨token, after⟩ := step
    have shorter := length_left_advance? found
    have here : after.limit = some m := (restores_advance? found).limit.trans limited
    rw [others_of_advance found, others_of_advance (advance?_unlimited found)]
    split
    · exact .alike _ after
    · apply (filters_operand after here).andThen
      · intro c next read
        exact subset_others enclosed _ next
      · intro c next read
        have fewer := length_left_operand read
        exact filters_others enclosed _ next ((limit_operand read).trans here)
termination_by 2 * d.left.length

end

/-- The limit refuses a descent exactly when the counter goes beyond it without a limit. -/
theorem Filters.refused_iff {x y : Result} (h : Filters m x y) (within : ∀ n ∈ x.2.depths, n ≤ m)
    (free : ∀ span, y.1 ≠ .error (.nestingTooDeep span)) :
    (∃ span, x.1 = .error (.nestingTooDeep span)) ↔ ∃ n ∈ y.2.depths, (m : Int) < n := by
  cases h with
  | alike a next =>
    apply iff_of_false
    · rintro ⟨span, refused⟩
      exact free span refused
    · rintro ⟨n, mem, beyond⟩
      exact Int.not_lt.mpr (within n mem) beyond
  | full span next beyond => exact iff_of_true ⟨span, rfl⟩ beyond

theorem filters_parse (limited : d.limit = some m) : Filters m d.parse d.unlimited.parse :=
  filters_level false d limited

end Descent

end FeatureQuery
