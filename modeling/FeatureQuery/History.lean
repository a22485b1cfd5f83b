import FeatureQuery.Text.Lines

/-!
# History

The lines entered, oldest first. A line that repeats the one just before it is not entered again,
and only the newest are kept. In a file each entry is one line, with its backslashes and line
feeds escaped.
-/

namespace FeatureQuery

structure History where
  entries : List Text
  /-- An entry was added since the history was loaded. -/
  changed : Bool
  deriving DecidableEq, Repr

namespace History

def empty : History := ⟨[], false⟩

def capacity : Nat := 100

def newest (n : Nat) (entries : List Text) : List Text := entries.drop (entries.length - n)

def add (line : Text) (h : History) : History :=
  if h.entries.getLast? = some line then h
  else ⟨newest capacity (h.entries ++ [line]), true⟩

def ofList (lines : List Text) : History := lines.foldl (fun h line => h.add line) empty

/-- First line of a file of escaped entries. -/
def header : Text := "#V2".toList

def escape (c : Char) : Text :=
  match c with
  | '\\' => ['\\', '\\']
  | '\n' => ['\\', 'n']
  | c => [c]

/-- An entry that was escaped; `none` if it holds anything else after a backslash. -/
def unescape : Text → Option Text
  | [] => some []
  | '\\' :: '\\' :: t => (unescape t).map ('\\' :: ·)
  | '\\' :: 'n' :: t => (unescape t).map ('\n' :: ·)
  | c :: t => if c = '\\' then none else (unescape t).map (c :: ·)

theorem unescape_escape (t : Text) : unescape (t.flatMap escape) = some t := by
  induction t with
  | nil => rfl
  | cons c t ih =>
    rw [List.flatMap_cons]
    by_cases backslash : c = '\\'
    · subst backslash; simp [escape, unescape, ih]
    · by_cases lineFeed : c = '\n'
      · subst lineFeed; simp [escape, unescape, ih]
      · simp [escape, unescape, ih, backslash]

def encode (h : History) : Text :=
  header ++ '\n' :: h.entries.flatMap fun entry => entry.flatMap escape ++ ['\n']

/-- The entries of a file. Without the header they are taken as they stand. -/
def decode (file : Text) : List Text :=
  match (Text.parts file).map Text.dropLineFeed with
  | [] => []
  | first :: others =>
    let entries := others.filter (!·.isEmpty)
    if first = header then entries.map fun t => (unescape t).getD t
    else first :: entries

def load (file : Text) : History := { ofList (decode file) with changed := false }

end History

end FeatureQuery
