import FeatureQuery.Program
import FeatureQuery.Proofs.Memory

/-!
# A whole run

Over a whole input the program prints its greeting and what a session prints for the lines that the
editor returns. Where a line ends the session, the result is settled: neither the text behind that
line nor the way in which it goes on is looked at.
-/

namespace FeatureQuery

namespace Session

variable {lines more : List Text}

theorem isPrefix_heard (lines : List Text) : heard lines <+: lines := List.take_prefix _ _

theorem heard_of_isPrefix (ended : ∃ line ∈ lines, ends line = true)
    (goesOn : heard lines <+: more) :
    heard more = heard lines ∧ ∃ line ∈ more, ends line = true := by
  induction lines generalizing more with
  | nil => simp at ended
  | cons line lines ih =>
    by_cases last : ends line = true
    · rw [heard_cons_of_ends last] at goesOn ⊢
      obtain ⟨rest, rfl⟩ := goesOn
      exact ⟨heard_cons_of_ends last rest, line, List.mem_cons_self, last⟩
    · rw [Bool.not_eq_true] at last
      rw [heard_cons last] at goesOn ⊢
      obtain ⟨rest, rfl⟩ := goesOn
      have later : ∃ line ∈ lines, ends line = true := by simpa [last] using ended
      obtain ⟨same, line', mem, last'⟩ := ih later (List.prefix_append (heard lines) rest)
      rw [List.cons_append, heard_cons last, same]
      exact ⟨rfl, line', List.mem_cons_of_mem _ mem, last'⟩

end Session

namespace Program

variable {host : Host} {line : Text} {returned : List (Option Text)} {stdin : Text}

/-- The lines up to a call of the editor that failed. -/
def returnedLines (returned : List (Option Text)) : List Text :=
  (returned.takeWhile Option.isSome).filterMap id

/-- The lines that a session gets of an input. -/
def received (host : Host) (stdin : Text) : List Text := returnedLines (host.editor stdin)

@[simp] theorem returnedLines_cons_none (returned : List (Option Text)) :
    returnedLines (none :: returned) = [] := rfl

@[simp] theorem returnedLines_cons_some (line : Text) (returned : List (Option Text)) :
    returnedLines (some line :: returned) = line :: returnedLines returned := rfl

theorem received_of_returnsLines (plain : host.ReturnsLines stdin) :
    received host stdin = Text.lines stdin := by
  rw [received, plain]
  induction Text.lines stdin with
  | nil => rfl
  | cons line lines ih => rw [List.map_cons, returnedLines_cons_some, ih]

theorem feedAll_cons_of_ends (last : Session.ends line = true) (p : Program)
    (returned : List (Option Text)) :
    feedAll (some line :: returned) p = ((p.feed line).1.out, some (p.feed line).2) := by
  have stops : (p.feed line).1.goesOn = false := by simp [feed, Session.goesOn_handle, last]
  simp [feedAll, stops]

theorem feedAll_cons (goesOn : Session.ends line = false) (p : Program)
    (returned : List (Option Text)) :
    feedAll (some line :: returned) p =
      ((p.feed line).1.out ++ (feedAll returned (p.feed line).2).1,
        (feedAll returned (p.feed line).2).2) := by
  have continues : (p.feed line).1.goesOn = true := by simp [feed, Session.goesOn_handle, goesOn]
  simp [feedAll, continues]

/-- What is printed is what the session prints. -/
theorem out_feedAll (returned : List (Option Text)) (p : Program) :
    (feedAll returned p).1 = (p.session.run (returnedLines returned)).flatMap (·.out) := by
  induction returned generalizing p with
  | nil => rfl
  | cons line returned ih =>
    cases line with
    | none => rfl
    | some line =>
      rw [returnedLines_cons_some]
      by_cases last : Session.ends line = true
      · rw [feedAll_cons_of_ends last, Session.run_cons_of_ends last]
        simp [feed]
      · rw [Bool.not_eq_true] at last
        rw [feedAll_cons last, Session.run_cons last, ih, List.flatMap_cons]
        rfl

/-- Where a line ends the session, nothing behind it is looked at. -/
theorem feedAll_of_ends (ended : ∃ line ∈ returnedLines returned, Session.ends line = true)
    (p : Program) :
    feedAll returned p = feedAll ((Session.heard (returnedLines returned)).map some) p := by
  induction returned generalizing p with
  | nil => rfl
  | cons line returned ih =>
    cases line with
    | none => simp at ended
    | some line =>
      rw [returnedLines_cons_some] at ended ⊢
      by_cases last : Session.ends line = true
      · rw [Session.heard_cons_of_ends last, feedAll_cons_of_ends last, List.map_singleton,
          feedAll_cons_of_ends last]
      · rw [Bool.not_eq_true] at last
        have later : ∃ line ∈ returnedLines returned, Session.ends line = true := by
          simpa [last] using ended
        rw [Session.heard_cons last, feedAll_cons last, List.map_cons, feedAll_cons last, ih later]

theorem stdout_serve (host : Host) (config : Config) (stdin : Text) :
    (serve host config stdin).stdout =
      greeting ++ ((Session.start config.silent).run (received host stdin)).flatMap (·.out) := by
  have out := out_feedAll (host.editor stdin) (start host config)
  exact congrArg (greeting ++ ·) out

/-- An input for which the editor starts with the lines of an ended session has the same result. -/
theorem serve_of_isPrefix_heard (ended : ∃ line ∈ received host stdin, Session.ends line = true)
    {other : Text} (goesOn : Session.heard (received host stdin) <+: received host other)
    (config : Config) : serve host config other = serve host config stdin := by
  obtain ⟨same, ended'⟩ := Session.heard_of_isPrefix ended goesOn
  have fed := feedAll_of_ends ended (start host config)
  have fed' := feedAll_of_ends ended' (start host config)
  simp only [received] at same
  rw [serve, serve, fed, fed', same]

/-- Where the editor returns the lines of the input as they stand, the program prints its greeting
and what a session prints for them, with the settings that were loaded, whatever history the host
has. In place of settings that are refused there are the default ones, and the result is that of
none at all. Once a line has ended the session, nothing that follows changes the result, be it other
lines or any text behind a finished line. -/
theorem run_is_session (host : Host) (source : Config.Source) (stdin : Text)
    (plain : host.ReturnsLines stdin) :
    let config := Config.loadOrDefault Config.fileName source
    let lines := Text.lines stdin
    (∀ c, Config.load Config.fileName source = .ok c → config = c) ∧
      (∀ e, Config.load Config.fileName source = .error e →
        config = .default ∧ run host source stdin = run host .missing stdin) ∧
      (run host source stdin).stdout =
        Text.println "--- @supports 条件查询 ---".toList ++ Text.println "命令:
  cond <condition>   解析 @supports 条件并显示 AST
  check <feature>    检查特性能否通过当前条件 (true / false / undetermined)
  tokens <condition> 显示条件的 token 序列
  help               显示帮助
  quit | exit        退出".toList ++
          ((Session.start config.silent).run lines).flatMap (·.out) ∧
      ((∃ line ∈ lines, Session.ends line = true) →
        (∀ other, host.ReturnsLines other → Session.heard lines <+: Text.lines other →
          run host source other = run host source stdin) ∧
        (stdin.getLast? = some '\n' → ∀ later, host.ReturnsLines (stdin ++ later) →
          run host source (stdin ++ later) = run host source stdin)) := by
  intro config lines
  have same : received host stdin = lines := received_of_returnsLines plain
  refine ⟨?_, ?_, ?_, ?_⟩
  · intro c accepted
    simp only [config, Config.loadOrDefault, accepted]
  · intro e refused
    have default : config = .default := by simp only [config, Config.loadOrDefault, refused]
    exact ⟨default, congrArg (serve host · stdin) default⟩
  · have printed := stdout_serve host config stdin
    rw [same] at printed
    exact printed
  · intro ended
    rw [← same] at ended
    have settled (other : Text) (plain' : host.ReturnsLines other)
        (goesOn : Session.heard lines <+: Text.lines other) :
        run host source other = run host source stdin := by
      rw [← same, ← received_of_returnsLines plain'] at goesOn
      exact serve_of_isPrefix_heard ended goesOn config
    refine ⟨settled, ?_⟩
    intro whole later plain'
    have whole' : ∀ c ∈ stdin.getLast?, c = '\n' := by simp [whole]
    apply settled _ plain'
    rw [Text.lines_append whole']
    exact (Session.isPrefix_heard lines).trans (List.prefix_append _ _)

/-- Settings that are accepted and settings that are refused, a line that ends with a carriage
return and a line feed, and a line that ends the session. -/
theorem run_is_session_silent :
    let host := Host.piped .empty true
    let accepted := Config.Source.file "\x7b\"silent\": true\x7d".toUTF8
    let refused := Config.Source.file "[true".toUTF8
    let stdin := "cond )\r\ncheck A:1\nquit\n".toList
    (host.ReturnsLines stdin ∧ Config.load Config.fileName accepted = .ok ⟨true, none⟩ ∧
      Config.load Config.fileName refused = .error (.parse .truncated)) ∧
      (run host accepted stdin).stdout =
        greeting ++ ("✓ 解析成功\n\x7b\n  \"type\": \"declaration\",\n  \"node\": \"\"\n\x7d\n".toList ++
          "undetermined\n".toList) ∧
      (∀ later, run host accepted (stdin ++ later) = run host accepted stdin) ∧
      run host refused stdin = run host .missing stdin := by
  intro host accepted refused stdin
  have loaded : Config.load Config.fileName accepted = .ok ⟨true, none⟩ := by decide +kernel
  have failed : Config.load Config.fileName refused = .error (.parse .truncated) := by
    decide +kernel
  have plain (input : Text) : host.ReturnsLines input := Host.returnsLines_piped .empty true input
  obtain ⟨config, -, printed, settled⟩ := run_is_session host accepted stdin (plain stdin)
  have missing := ((run_is_session host refused stdin (plain stdin)).2.1 _ failed).2
  have ended : ∃ line ∈ Text.lines stdin, Session.ends line = true :=
    ⟨"quit".toList, by decide +kernel⟩
  refine ⟨⟨plain stdin, loaded, failed⟩, ?_, fun later => ?_, missing⟩
  · rw [printed, config _ loaded]
    exact congrArg (greeting ++ ·) (by decide +kernel)
  · exact (settled ended).2 rfl later (plain _)

end Program

end FeatureQuery
