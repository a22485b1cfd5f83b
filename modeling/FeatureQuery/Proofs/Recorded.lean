import FeatureQuery.Proofs.Piped
import Mathlib.Data.List.Destutter
import Mathlib.Data.List.DropRight

/-!
# What a run leaves behind

A history decides line by line what it keeps, with nothing but its newest entry at hand. What it has
kept in the end can be said of all the lines at once: each run of equal lines is one, and of these
the newest are there. A file of them is read back as those entries, so it tells two of them apart.
-/

namespace FeatureQuery

section

variable {α : Type}

theorem getLast?_rtake_succ (n : Nat) (entries : List α) :
    (entries.rtake (n + 1)).getLast? = entries.getLast? := by
  rw [List.rtake, List.getLast?_drop]
  split
  · rename_i short
    have empty : entries = [] := List.length_eq_zero_iff.mp (by omega)
    simp [empty]
  · rfl

/-- What was dropped before is dropped again. -/
theorem rtake_rtake_concat (n : Nat) (entries : List α) (a : α) :
    (entries.rtake n ++ [a]).rtake n = (entries ++ [a]).rtake n := by
  cases n with
  | zero => simp
  | succ n =>
    have again : (entries.rtake (n + 1)).rtake n = entries.rtake n := by
      simp only [List.rtake, List.drop_drop, List.length_drop]
      congr 1
      omega
    rw [List.rtake_concat_succ, List.rtake_concat_succ, again]

variable [DecidableEq α]

theorem destutter'_concat (entries : List α) (first a : α) :
    (entries ++ [a]).destutter' (· ≠ ·) first =
      if (entries.destutter' (· ≠ ·) first).getLast? = some a then
        entries.destutter' (· ≠ ·) first
      else entries.destutter' (· ≠ ·) first ++ [a] := by
  induction entries generalizing first with
  | nil => by_cases same : first = a <;> simp [same]
  | cons b entries ih =>
    by_cases repeated : first = b
    · simp [repeated, ih]
    · have last : (first :: entries.destutter' (· ≠ ·) b).getLast? =
          (entries.destutter' (· ≠ ·) b).getLast? :=
        List.getLast?_cons_of_ne_nil (List.destutter'_ne_nil entries (· ≠ ·))
      rw [List.cons_append, List.destutter'_cons_pos _ repeated,
        List.destutter'_cons_pos _ repeated, last, ih]
      split <;> simp

/-- One more entry repeats the last run, or is a run of its own. -/
theorem destutter_concat (entries : List α) (a : α) : (entries ++ [a]).destutter (· ≠ ·) =
    if (entries.destutter (· ≠ ·)).getLast? = some a then entries.destutter (· ≠ ·)
    else entries.destutter (· ≠ ·) ++ [a] := by
  cases entries with
  | nil => simp
  | cons first entries => exact destutter'_concat entries first a

end

namespace History

variable {line entry rest : Text} {h : History}

/-- One line after the other, or all at once. -/
theorem ofList_eq (lines : List Text) : ofList lines =
    ⟨(lines.destutter (· ≠ ·)).rtake capacity, !(lines.destutter (· ≠ ·)).isEmpty⟩ := by
  induction lines using List.reverseRecOn with
  | nil => rfl
  | append_singleton lines line ih =>
    have step : ofList (lines ++ [line]) = (ofList lines).add line := by
      simp [ofList, List.foldl_append]
    have last : ((lines.destutter (· ≠ ·)).rtake capacity).getLast? =
        (lines.destutter (· ≠ ·)).getLast? := getLast?_rtake_succ 99 _
    rw [step, ih, add, destutter_concat]
    simp only [last]
    by_cases repeated : (lines.destutter (· ≠ ·)).getLast? = some line
    · rw [if_pos repeated, if_pos repeated]
    · rw [if_neg repeated, if_neg repeated, ← rtake_rtake_concat]
      simp [newest, List.rtake]

theorem lineFeed_not_mem_escape (entry : Text) : '\n' ∉ entry.flatMap escape := by
  intro mem
  obtain ⟨c, -, mem⟩ := List.mem_flatMap.mp mem
  unfold escape at mem
  split at mem
  · simp at mem
  · simp at mem
  · rename_i other
    exact other (List.mem_singleton.mp mem).symm

theorem parts_append_line (letters : '\n' ∉ line) (rest : Text) :
    Text.parts (line ++ '\n' :: rest) = (line ++ ['\n']) :: Text.parts rest := by
  induction line with
  | nil => rfl
  | cons c line ih =>
    have letter : c ≠ '\n' := fun same => letters (by simp [same])
    have later : '\n' ∉ line := fun mem => letters (List.mem_cons_of_mem c mem)
    rw [List.cons_append, Text.parts, if_neg letter, ih later]
    rfl

theorem dropLineFeed_line (line : Text) : Text.dropLineFeed (line ++ ['\n']) = line := by
  simp [Text.dropLineFeed]

theorem parts_encode_entries (entries : List Text) :
    (Text.parts (entries.flatMap fun entry => entry.flatMap escape ++ ['\n'])).map
      Text.dropLineFeed = entries.map (·.flatMap escape) := by
  induction entries with
  | nil => rfl
  | cons entry entries ih =>
    rw [List.flatMap_cons, List.append_assoc, List.singleton_append,
      parts_append_line (lineFeed_not_mem_escape entry), List.map_cons, ih, dropLineFeed_line]
    rfl

theorem escape_ne_nil (c : Char) : escape c ≠ [] := by
  unfold escape
  split <;> exact List.cons_ne_nil _ _

/-- The entries are read back from their file. -/
theorem decode_encode (solid : ∀ entry ∈ h.entries, entry ≠ []) : decode h.encode = h.entries := by
  have headed : (Text.parts h.encode).map Text.dropLineFeed =
      header :: h.entries.map (·.flatMap escape) := by
    rw [encode, parts_append_line (by decide), List.map_cons, dropLineFeed_line,
      parts_encode_entries]
  have kept : (h.entries.map (·.flatMap escape)).filter (!·.isEmpty) =
      h.entries.map (·.flatMap escape) := by
    apply List.filter_eq_self.mpr
    intro line mem
    obtain ⟨entry, listed, rfl⟩ := List.mem_map.mp mem
    obtain ⟨c, letters, rfl⟩ := List.exists_cons_of_ne_nil (solid entry listed)
    simp [escape_ne_nil]
  simp only [decode, headed, kept, if_true, List.map_map]
  simp [Function.comp_def, unescape_escape]

end History

namespace Program

variable {host : Host} {config : Config} {path : Text} {returned : List (Option Text)}
  {stdin : Text}

/-- No call of the editor fails, or a line in front of it ends the session. -/
def Completed (returned : List (Option Text)) : Prop :=
  none ∉ returned ∨ ∃ line ∈ returnedLines returned, Session.ends line = true

instance (returned : List (Option Text)) : Decidable (Completed returned) :=
  inferInstanceAs
    (Decidable (none ∉ returned ∨ ∃ line ∈ returnedLines returned, Session.ends line = true))

/-- The editor hands over every line that the session comes to. -/
def HandedOver (host : Host) (stdin : Text) : Prop := Completed (host.editor stdin)

instance (host : Host) (stdin : Text) : Decidable (HandedOver host stdin) :=
  inferInstanceAs (Decidable (Completed (host.editor stdin)))

theorem handedOver_of_returnsLines (plain : host.ReturnsLines stdin) : HandedOver host stdin := by
  left
  rw [plain]
  simp

/-- What is entered of some lines: those of the session that are not blank, each run of equal ones
once. -/
def entered (lines : List Text) : List Text :=
  ((Session.heard lines).filter (!Text.allBlank ·)).destutter (· ≠ ·)

theorem history_feed (line : Text) (p : Program) : (p.feed line).2.history =
    ([line].filter (!Text.allBlank ·)).foldl (fun h line => h.add line) p.history := by
  cases blank : Text.allBlank line <;> simp [feed, blank]

/-- A history with the lines of the session added to it, but for blank ones. -/
def recorded (lines : List Text) (h : History) : History :=
  ((Session.heard lines).filter (!Text.allBlank ·)).foldl (fun h line => h.add line) h

theorem recorded_empty (lines : List Text) : recorded lines .empty =
    ⟨(entered lines).rtake History.capacity, !(entered lines).isEmpty⟩ :=
  History.ofList_eq _

/-- What remains of a run has all of its lines in the history. -/
theorem exists_feedAll (completed : Completed returned) (p : Program) :
    ∃ p', (feedAll returned p).2 = some p' ∧
      p'.history = recorded (returnedLines returned) p.history := by
  induction returned generalizing p with
  | nil => exact ⟨p, rfl, rfl⟩
  | cons line returned ih =>
    cases line with
    | none => simp [Completed] at completed
    | some line =>
      rw [returnedLines_cons_some]
      by_cases last : Session.ends line = true
      · rw [feedAll_cons_of_ends last, recorded, Session.heard_cons_of_ends last]
        exact ⟨_, rfl, history_feed line p⟩
      · rw [Bool.not_eq_true] at last
        have later : Completed returned := by simpa [Completed, last] using completed
        obtain ⟨p', remains, history⟩ := ih later (p.feed line).2
        rw [feedAll_cons last, recorded, Session.heard_cons last]
        refine ⟨p', remains, ?_⟩
        rw [history, history_feed, recorded, ← List.foldl_append, ← List.filter_append]
        rfl

theorem feedAll_eq_none (broken : ¬Completed returned) (p : Program) :
    (feedAll returned p).2 = none := by
  induction returned generalizing p with
  | nil => exact absurd (.inl List.not_mem_nil) broken
  | cons line returned ih =>
    cases line with
    | none => rfl
    | some line =>
      have last : Session.ends line = false := by
        by_contra ended
        exact broken (.inr ⟨line, List.mem_cons_self, by simpa using ended⟩)
      rw [feedAll_cons last]
      apply ih
      simpa [Completed, last] using broken

theorem entered_solid {lines : List Text} {line : Text} (mem : line ∈ entered lines) :
    line ≠ [] := by
  have kept := (List.destutter_sublist _ _).subset mem
  rintro rfl
  simp [Text.allBlank] at kept

/-- The exit code and the files of a run, whatever history was loaded. -/
theorem serve_of_handedOver (kept : config.historyFile = some path)
    (handed : HandedOver host stdin) :
    let h := recorded (received host stdin) (host.loaded path)
    ((serve host config stdin).code, (serve host config stdin).files) =
      if h.changed then
        if host.writable path then (0, [(path, h.encode)]) else (failure, [])
      else (0, []) := by
  obtain ⟨p, remains, history⟩ := exists_feedAll handed (start host config)
  have loaded : (start host config).history = host.loaded path := by simp [start, kept]
  rw [loaded] at history
  simp only [serve, remains, save, kept, history, received]
  rfl

/-- The files of a run with a history that can be written and has nothing in it. -/
theorem files_serve (kept : config.historyFile = some path) (writable : host.writable path = true)
    (unloaded : host.loaded path = .empty) (handed : HandedOver host stdin) :
    (serve host config stdin).files =
      if entered (received host stdin) = [] then []
      else [(path,
        (⟨(entered (received host stdin)).rtake History.capacity, true⟩ : History).encode)] := by
  have outcome := congrArg Prod.snd (serve_of_handedOver kept handed)
  simp only [unloaded, recorded_empty, writable, if_true] at outcome
  rw [outcome]
  by_cases none : entered (received host stdin) = []
  · simp [none]
  · simp [none, History.encode]

/-- The file of what was entered is read back. -/
theorem decode_entered (lines : List Text) : History.decode
    (⟨(entered lines).rtake History.capacity, true⟩ : History).encode =
      (entered lines).rtake 100 := by
  apply History.decode_encode
  intro line mem
  exact entered_solid (List.mem_of_mem_drop mem)

theorem serve_of_broken (broken : ¬HandedOver host stdin) (config : Config) :
    (serve host config stdin).files = [] ∧ (serve host config stdin).code = failure := by
  have none := feedAll_eq_none broken (start host config)
  simp [serve, none]

/-- A history that can be written, with nothing entered before, ends up in a file just when
something was entered, and the file is read back as the newest hundred of what was entered; so runs
that differ in these leave different files. The lines are those that the editor hands over; where it
returns them as they stand, just the lines of the input. A run in which it fails first leaves no
file. -/
theorem run_leaves_entered (kept : config.historyFile = some path)
    (writable : host.writable path = true) (unloaded : host.loaded path = .empty) (stdin : Text) :
    (host.ReturnsLines stdin →
        HandedOver host stdin ∧ received host stdin = Text.lines stdin) ∧
      (HandedOver host stdin →
        ((serve host config stdin).files = [] ↔ entered (received host stdin) = []) ∧
        (entered (received host stdin) ≠ [] →
          ∃ file, (serve host config stdin).files = [(path, file)] ∧
            History.decode file = (entered (received host stdin)).rtake 100) ∧
        ∀ other, HandedOver host other →
          (entered (received host other)).rtake 100 ≠
            (entered (received host stdin)).rtake 100 →
          (serve host config other).files ≠ (serve host config stdin).files) ∧
      (¬HandedOver host stdin →
        (serve host config stdin).files = [] ∧ (serve host config stdin).code = 1) := by
  refine ⟨?_, ?_, fun broken => serve_of_broken broken config⟩
  · intro plain
    exact ⟨handedOver_of_returnsLines plain, received_of_returnsLines plain⟩
  · intro handed
    have files := files_serve kept writable unloaded handed
    refine ⟨?_, ?_, ?_⟩
    · rw [files]
      split <;> simp_all
    · intro nonempty
      rw [files, if_neg nonempty]
      exact ⟨_, rfl, decode_entered _⟩
    · intro other handed' differ same
      rw [files, files_serve kept writable unloaded handed'] at same
      by_cases none : entered (received host stdin) = [] <;>
        by_cases none' : entered (received host other) = []
      · exact differ (by rw [none, none'])
      · simp [none, none'] at same
      · simp [none, none'] at same
      · rw [if_neg none, if_neg none'] at same
        have file := (Prod.mk.inj (List.cons.inj same).1).2
        exact differ (by rw [← decode_entered, ← decode_entered, file])

/-- A path that leaves the directory, a backslash that is doubled in the file, a blank line, a
repeated line, a line that comes again later, and lines behind the one that ends the session. -/
theorem run_leaves_entered_escaped :
    let host := Host.piped .empty true
    let config : Config := ⟨true, some "../log".toList⟩
    let stdin := "tokens \\\n\nhelp\nhelp\ntokens \\\n quit \nhelp\n".toList
    let other := "help\ncheck a\n".toList
    (config.historyFile = some "../log".toList ∧ host.writable "../log".toList = true ∧
      host.loaded "../log".toList = .empty ∧ host.ReturnsLines stdin ∧ HandedOver host stdin ∧
      entered (received host stdin) ≠ [] ∧ HandedOver host other ∧
      (entered (received host other)).rtake 100 ≠ (entered (received host stdin)).rtake 100) ∧
      entered (received host stdin) =
        ["tokens \\".toList, "help".toList, "tokens \\".toList, " quit ".toList] ∧
      (∃ file, (serve host config stdin).files = [("../log".toList, file)] ∧
        History.decode file = (entered (received host stdin)).rtake 100) ∧
      (serve host config other).files ≠ (serve host config stdin).files := by
  intro host config stdin other
  have plain (input : Text) : host.ReturnsLines input := Host.returnsLines_piped .empty true input
  obtain ⟨handedOver, left, -⟩ := @run_leaves_entered host config _ rfl rfl rfl stdin
  have handed : HandedOver host stdin := (handedOver (plain stdin)).1
  have handed' : HandedOver host other := handedOver_of_returnsLines (plain other)
  have lines : entered (received host stdin) =
      ["tokens \\".toList, "help".toList, "tokens \\".toList, " quit ".toList] := by decide +kernel
  have nonempty : entered (received host stdin) ≠ [] := by simp [lines]
  have differ : (entered (received host other)).rtake 100 ≠
      (entered (received host stdin)).rtake 100 := by
    decide +kernel
  obtain ⟨-, file, apart⟩ := left handed
  exact ⟨⟨rfl, rfl, rfl, plain stdin, handed, nonempty, handed', differ⟩, lines, file nonempty,
    apart other handed' differ⟩

/-- The lines of the input need not be what is entered: here the editor takes a character back for
a backspace. -/
theorem files_of_backspace :
    let edited (line : Text) : Text :=
      line.foldl (fun t c => if c = '\x08' then t.dropLast else t ++ [c]) []
    let host : Host :=
      ⟨fun stdin => (Text.lines stdin).map (some ∘ edited), fun _ => .empty, fun _ => true⟩
    let stdin := "helpx\x08\n".toList
    host.writable "h".toList = true ∧ host.loaded "h".toList = .empty ∧
      (serve host ⟨false, some "h".toList⟩ stdin).files =
        [("h".toList, "#V2\nhelp\n".toList)] ∧
      History.decode "#V2\nhelp\n".toList ≠ (entered (Text.lines stdin)).rtake 100 := by
  decide +kernel

end Program

end FeatureQuery
