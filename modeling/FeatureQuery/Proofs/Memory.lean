import FeatureQuery.Session

/-!
# What a session remembers

Only a condition that could be built changes a session, and it replaces all that was remembered
before. So what a line is answered depends on the line and on the last such condition; every other
line in front of it could as well have been left out.
-/

namespace FeatureQuery.Session

variable {s : Session} {line : Text}

/-- The line ends a session. -/
def ends (line : Text) : Bool := Command.ofLine line = .quit

/-- The lines up to the first that ends a session, which is one of them. -/
def heard (lines : List Text) : List Text := lines.take (lines.findIdx ends + 1)

/-- The query that a line builds; only a condition can build one. -/
def built? (silent : Bool) (line : Text) : Option Query :=
  match Command.ofLine line with
  | .condition t =>
    match Query.build silent t with
    | .ok q => some q
    | .error _ => none
  | .blank | .help | .quit | .check _ | .tokens _ | .unknown _ => none

/-- The query of the last line that builds one. -/
def remembered (silent : Bool) (lines : List Text) : Option Query :=
  (lines.filterMap (built? silent)).getLast?

/-- What is printed for a line when `query` is the query at hand. -/
def printed (silent : Bool) (query : Option Query) (line : Text) : Text :=
  (handle ⟨silent, query⟩ (.ofLine line)).out

theorem heard_cons_of_ends (last : ends line = true) (lines : List Text) :
    heard (line :: lines) = [line] := by
  simp [heard, List.findIdx_cons, last]

theorem heard_cons (goesOn : ends line = false) (lines : List Text) :
    heard (line :: lines) = line :: heard lines := by
  simp [heard, List.findIdx_cons, goesOn]

@[simp] theorem remembered_nil (silent : Bool) : remembered silent [] = none := rfl

theorem remembered_cons (silent : Bool) (line : Text) (lines : List Text) :
    remembered silent (line :: lines) = (remembered silent lines).or (built? silent line) := by
  cases found : built? silent line with
  | none => simp [remembered, found]
  | some q =>
    simp only [remembered, List.filterMap_cons_some found, List.getLast?_cons, Option.or_some]

/-- One step: what a line builds is remembered, and nothing else changes. -/
theorem session_handle (s : Session) (line : Text) :
    (s.handle (.ofLine line)).session =
      { s with query := (built? s.silent line).or s.query } := by
  cases command : Command.ofLine line with
  | condition t =>
    cases built : Query.build s.silent t <;> simp [handle, handleCondition, built?, command, built]
  | blank | help | quit | check | tokens | unknown => simp [handle, built?, command]

theorem goesOn_handle (s : Session) (line : Text) :
    (s.handle (.ofLine line)).goesOn = !ends line := by
  cases command : Command.ofLine line with
  | condition t =>
    cases built : Query.build s.silent t <;> simp [handle, handleCondition, ends, command, built]
  | blank | help | quit | check | tokens | unknown => simp [handle, ends, command]

theorem printed_of_ends (last : ends line = true) (silent : Bool) (query : Option Query) :
    printed silent query line = [] := by
  have command : Command.ofLine line = .quit := of_decide_eq_true last
  rw [printed, command]
  rfl

theorem run_cons_of_ends (last : ends line = true) (s : Session) (lines : List Text) :
    s.run (line :: lines) = [s.handle (.ofLine line)] := by
  simp [run, goesOn_handle, last]

theorem run_cons (goesOn : ends line = false) (s : Session) (lines : List Text) :
    s.run (line :: lines) =
      s.handle (.ofLine line) :: (s.handle (.ofLine line)).session.run lines := by
  simp [run, goesOn_handle, goesOn]

/-- A whole run: each line heard is answered by a session that remembers the last query built in
front of it. -/
theorem run_eq_mapIdx (s : Session) (lines : List Text) :
    s.run lines = (heard lines).mapIdx fun i line =>
      handle { s with query := (remembered s.silent (lines.take i)).or s.query } (.ofLine line) := by
  induction lines generalizing s with
  | nil => rfl
  | cons line lines ih =>
    by_cases last : ends line = true
    · rw [run_cons_of_ends last, heard_cons_of_ends last]
      simp
    · rw [Bool.not_eq_true] at last
      rw [run_cons last, heard_cons last, List.mapIdx_cons, ih, session_handle]
      simp [remembered_cons, Option.or_assoc]

/-- A line that builds nothing is answered, and leaves no trace. -/
theorem run_eraseIdx (idle : built? s.silent line = none) (goesOn : ends line = false)
    (front back : List Text) :
    (s.run (front ++ line :: back)).eraseIdx front.length = s.run (front ++ back) := by
  induction front generalizing s with
  | nil =>
    have same : (s.handle (.ofLine line)).session = s := by rw [session_handle, idle, Option.none_or]
    rw [List.nil_append, List.nil_append, run_cons goesOn, same]
    rfl
  | cons first front ih =>
    rw [List.cons_append, List.cons_append]
    by_cases last : ends first = true
    · rw [run_cons_of_ends last, run_cons_of_ends last]
      rfl
    · rw [Bool.not_eq_true] at last
      have later : built? (s.handle (.ofLine first)).session.silent line = none := by
        rw [session_handle]
        exact idle
      rw [run_cons last, run_cons last, List.length_cons, List.eraseIdx_cons_succ, ih later]

/-- A session answers its lines one by one up to the first that ends it, for which nothing is
printed. What is printed for a line is a function of the line and of the last query built in front
of it. A line that builds none can be left out: the other lines are answered as before. -/
theorem run_remembers_last (silent : Bool) (lines : List Text) :
    ((start silent).run lines).map (fun reply => (reply.out, reply.goesOn)) =
        ((heard lines).mapIdx fun i line =>
          (printed silent (remembered silent (lines.take i)) line, !ends line)) ∧
      (∀ line query, ends line = true → printed silent query line = []) ∧
      ∀ front line back, built? silent line = none → ends line = false →
        ((start silent).run (front ++ line :: back)).eraseIdx front.length =
          (start silent).run (front ++ back) := by
  refine ⟨?_, ?_, ?_⟩
  · apply List.ext_getElem?
    intro i
    rw [run_eq_mapIdx, List.getElem?_map, List.getElem?_mapIdx, List.getElem?_mapIdx,
      Option.map_map]
    simp [start, printed, goesOn_handle, Function.comp_def]
  · intro line query last
    exact printed_of_ends last silent query
  · intro front line back idle goesOn
    exact run_eraseIdx idle goesOn front back

/-- A condition that is refused neither replaces the one before it nor changes a later answer. -/
theorem run_remembers_last_past_refusal :
    let accepted := "cond (a: 1)".toList
    let refused := "cond (b: 2".toList
    let later := ["check A:1".toList, " exit ".toList, "help".toList]
    let replies := (start false).run (accepted :: refused :: later)
    (replies.map (·.goesOn) = [true, true, true, false] ∧
      replies[2]?.map (·.out) = some (Text.println "true".toList)) ∧
      replies.eraseIdx 1 = (start false).run (accepted :: later) := by
  intro accepted refused later replies
  obtain ⟨-, -, idle⟩ := run_remembers_last false (accepted :: refused :: later)
  have none : built? false refused = none := by decide +kernel
  have goesOn : ends refused = false := by decide +kernel
  exact ⟨by decide +kernel, idle [accepted] refused later none goesOn⟩

end FeatureQuery.Session
