import FeatureQuery.Config.Source
import FeatureQuery.History
import FeatureQuery.Session

/-!
# The program

A session over the lines of an input, with a history of what was entered. The history is written
at the end, unless nothing was added to it. The line editor and the files are the host's, and the
program is run on any host.
-/

namespace FeatureQuery

/-- What the program runs on. -/
structure Host where
  /-- What the line editor returns for an input, call by call, until it is at the end or is
  interrupted; `none` is a call that fails. -/
  editor : Text → List (Option Text)
  /-- The history found at a path; an empty one where none can be loaded. -/
  loaded : Text → History
  /-- A history can be written to a path. -/
  writable : Text → Bool

namespace Host

/-- The editor returns the lines of an input as they stand. -/
def ReturnsLines (host : Host) (stdin : Text) : Prop :=
  host.editor stdin = (Text.lines stdin).map some

instance (host : Host) (stdin : Text) : Decidable (host.ReturnsLines stdin) :=
  inferInstanceAs (Decidable (host.editor stdin = (Text.lines stdin).map some))

/-- The lines come from a pipe. Every path leads to the same history, and all of them can be written
or none. -/
def piped (history : History) (writable : Bool) : Host :=
  ⟨fun stdin => (Text.lines stdin).map some, fun _ => history, fun _ => writable⟩

theorem returnsLines_piped (history : History) (writable : Bool) (stdin : Text) :
    (piped history writable).ReturnsLines stdin := rfl

end Host

structure Program where
  session : Session
  history : History
  deriving DecidableEq, Repr

namespace Program

/-- The program before its first line, with the history that was kept. -/
def start (host : Host) (config : Config) : Program :=
  ⟨.start config.silent, (config.historyFile.map host.loaded).getD .empty⟩

def greeting : Text := Text.println "--- @supports 条件查询 ---".toList ++ Text.println Session.help

/-- Enters a line that is not blank into the history, and answers it. -/
def feed (line : Text) (p : Program) : Reply × Program :=
  let reply := p.session.handle (.ofLine line)
  (reply, ⟨reply.session, if Text.allBlank line then p.history else p.history.add line⟩)

/-- What is printed for lines, up to the one that ends the session, and what remains. Nothing
remains after a call of the editor that failed. -/
def feedAll : List (Option Text) → Program → Text × Option Program
  | [], p => ([], some p)
  | none :: _, _ => ([], none)
  | some line :: lines, p =>
    let (reply, p) := p.feed line
    if reply.goesOn then
      let (out, p) := feedAll lines p
      (reply.out ++ out, p)
    else (reply.out, some p)

structure Result where
  stdout : Text
  code : Nat
  /-- The files written, by their paths. -/
  files : List (Text × Text)
  deriving DecidableEq, Repr

/-- The exit code of a run that ends in an error. -/
def failure : Nat := 1

/-- The exit code, and the files written at the end. -/
def save (host : Host) (config : Config) (p : Program) : Nat × List (Text × Text) :=
  match config.historyFile with
  | none => (0, [])
  | some path =>
    if p.history.changed then
      if host.writable path then (0, [(path, p.history.encode)]) else (failure, [])
    else (0, [])

/-- A run over a whole input, with settings that have been loaded. -/
def serve (host : Host) (config : Config) (stdin : Text) : Result :=
  let (out, remaining) := feedAll (host.editor stdin) (start host config)
  let (code, files) := match remaining with
    | some p => p.save host config
    | none => (failure, [])
  ⟨greeting ++ out, code, files⟩

/-- A run with what is found under the name of the settings file. -/
def run (host : Host) (source : Config.Source) (stdin : Text) : Result :=
  serve host (Config.loadOrDefault Config.fileName source) stdin

end Program

end FeatureQuery
