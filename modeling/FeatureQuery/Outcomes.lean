/-!
# Outcomes

What a condition asks of a feature: that it passes, that it fails, both or nothing.
-/

namespace FeatureQuery

/-- A set of truth values. -/
structure Outcomes where
  pass : Bool
  fail : Bool
  deriving DecidableEq, Repr

namespace Outcomes

def empty : Outcomes := ⟨false, false⟩

def insert (b : Bool) (s : Outcomes) : Outcomes :=
  if b then { s with pass := true } else { s with fail := true }

def only (b : Bool) : Outcomes := empty.insert b

def contains (s : Outcomes) (b : Bool) : Bool := if b then s.pass else s.fail

def isEmpty (s : Outcomes) : Bool := !s.pass && !s.fail

def negate (s : Outcomes) : Outcomes := ⟨s.fail, s.pass⟩

def union (s t : Outcomes) : Outcomes := ⟨s.pass || t.pass, s.fail || t.fail⟩

/-- The members, `false` first. -/
def toList (s : Outcomes) : List Bool := [false, true].filter s.contains

def ofList (bs : List Bool) : Outcomes := bs.foldl (fun s b => s.insert b) empty

def extend (s : Outcomes) (ts : List Outcomes) : Outcomes := ts.foldl union s

/-- The one answer: a failure that is asked for wins. -/
def resolve (s : Outcomes) : Option Bool :=
  if s.fail then some false else if s.pass then some true else none

theorem resolve_eq_false_iff {s : Outcomes} : s.resolve = some false ↔ s.contains false := by
  simp [resolve, contains]

theorem resolve_eq_true_iff {s : Outcomes} :
    s.resolve = some true ↔ s.contains true ∧ ¬s.contains false := by
  by_cases fail : s.fail <;> simp [resolve, contains, fail]

theorem resolve_eq_none_iff {s : Outcomes} : s.resolve = none ↔ ∀ b, ¬s.contains b := by
  by_cases fail : s.fail <;> simp [resolve, contains, fail]

@[ext] theorem ext_contains {s t : Outcomes} (h : ∀ b, s.contains b = t.contains b) : s = t := by
  cases s; cases t
  simpa [contains, and_comm] using h

@[simp] theorem contains_empty (b : Bool) : empty.contains b = false := by cases b <;> rfl

@[simp] theorem contains_insert (a : Bool) (s : Outcomes) (b : Bool) :
    (s.insert a).contains b = (b == a || s.contains b) := by
  cases a <;> cases b <;> simp [insert, contains]

@[simp] theorem contains_only (a b : Bool) : (only a).contains b = (b == a) := by
  simp [only]

@[simp] theorem contains_negate (s : Outcomes) (b : Bool) :
    s.negate.contains b = s.contains !b := by cases b <;> rfl

@[simp] theorem contains_union (s t : Outcomes) (b : Bool) :
    (s.union t).contains b = (s.contains b || t.contains b) := by cases b <;> rfl

end Outcomes

end FeatureQuery
