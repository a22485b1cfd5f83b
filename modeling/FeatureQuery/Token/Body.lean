/-!
# Feature bodies

A feature runs to the first `)` that nothing inside it opened. Parentheses in a closed quoted string
do not count; a quote that is never closed is an ordinary character, but spoils the feature.

Only six ASCII marks matter, so the scan is the same over characters and over UTF-8 bytes; it is
written once, for any alphabet that has the marks.
-/

namespace FeatureQuery

inductive Mark where
  | quote
  | escape
  | opening
  | closing
  | plain
  deriving DecidableEq, Repr

def Mark.ofCode : Nat → Mark
  | 0x22 | 0x27 | 0x60 => .quote
  | 0x5C => .escape
  | 0x28 => .opening
  | 0x29 => .closing
  | _ => .plain

class Marked (α : Type) where
  mark : α → Mark

export Marked (mark)

instance : Marked Char := ⟨fun c => .ofCode c.toNat⟩

instance : Marked UInt8 := ⟨fun b => .ofCode b.toNat⟩

namespace Body

variable {α : Type} [DecidableEq α] [Marked α]

/-- Searches `quote`; `escaped` tells whether an odd run of escapes stands just before. -/
def closerFrom (quote : α) (escaped : Bool) : List α → Option Nat
  | [] => none
  | a :: rest =>
    if a = quote ∧ ¬escaped then some 0
    else (closerFrom quote (mark a = .escape ∧ ¬escaped) rest).map (· + 1)

/-- Index of the first `quote` that an even run of escapes stands before. -/
def closer (quote : α) (rest : List α) : Option Nat := closerFrom quote false rest

structure Extent where
  length : Nat
  /-- Every quote met outside a quoted string was closed. -/
  terminated : Bool
  /-- Parentheses opened and not closed where the scan stopped. -/
  unclosed : Nat
  deriving DecidableEq, Repr

/-- The extent of `n` more letters in front. -/
def Extent.after (n : Nat) (e : Extent) : Extent := { e with length := n + e.length }

/-- The same extent with a quote in front that is never closed. -/
def Extent.spoiled (e : Extent) : Extent := { e with terminated := false }

/-- Scans with `depth` parentheses open and the next `quoted` letters known to end a quoted
string. -/
def scan (depth quoted : Nat) : List α → Extent
  | [] => ⟨0, true, depth⟩
  | a :: rest =>
    match quoted, mark a with
    | quoted + 1, _ => (scan depth quoted rest).after 1
    | 0, .quote =>
      match closer a rest with
      | some k => (scan depth (k + 1) rest).after 1
      | none => ((scan depth 0 rest).after 1).spoiled
    | 0, .opening => (scan (depth + 1) 0 rest).after 1
    | 0, .closing =>
      match depth with
      | 0 => ⟨0, true, 0⟩
      | depth + 1 => (scan depth 0 rest).after 1
    | 0, .escape | 0, .plain => (scan depth 0 rest).after 1

theorem length_scan_le (depth quoted : Nat) (letters : List α) :
    (scan depth quoted letters).length ≤ letters.length := by
  fun_induction scan depth quoted letters <;> simp_all [Extent.after, Extent.spoiled] <;> omega

end Body

end FeatureQuery
