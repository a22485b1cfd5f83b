import FeatureQuery.Program

/-!
# Command line

Reads the settings, the history and the input, and writes what a run over them prints and leaves.
-/

namespace FeatureQuery.Console

def readSource (name : Text) : IO Config.Source := do
  try return .file (← IO.FS.readBinFile (String.ofList name))
  catch _ => return .missing

def readHistory (config : Config) : IO History := do
  match config.historyFile with
  | none => return .empty
  | some path =>
    try return .load (← IO.FS.readFile (String.ofList path)).toList
    catch _ => return .empty

/-- Whether the file could be written. -/
def writeFile (path file : Text) : IO Bool := do
  try
    IO.FS.writeFile (String.ofList path) (String.ofList file)
    return true
  catch e =>
    IO.eprintln s!"failed to save history to {String.ofList path}: {e}"
    return false

def run : IO UInt32 := do
  let source ← readSource Config.fileName
  let history ← readHistory (Config.loadOrDefault Config.fileName source)
  let stdin := (← (← IO.getStdin).readToEnd).toList
  let result := Program.run (.piped history true) source stdin
  IO.print (String.ofList result.stdout)
  -- Only an attempt shows what can be written, and the exit code depends on it.
  let written ← result.files.allM fun (path, file) => writeFile path file
  return UInt32.ofNat (Program.run (.piped history written) source stdin).code

end FeatureQuery.Console

def main : IO UInt32 := FeatureQuery.Console.run
