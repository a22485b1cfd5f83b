/-!
# Text

A text is a list of characters, so that every cut, search and comparison is a function on lists.
Positions are reported in bytes, hence `width`.
-/

namespace FeatureQuery

abbrev Text := List Char

namespace Text

/-- Bytes that a text takes in UTF-8. -/
def width : Text → Nat
  | [] => 0
  | c :: t => c.utf8Size + width t

@[simp] theorem width_nil : width [] = 0 := rfl

@[simp] theorem width_cons (c : Char) (t : Text) : width (c :: t) = c.utf8Size + width t := rfl

@[simp] theorem width_append (s t : Text) : width (s ++ t) = width s + width t := by
  induction s with
  | nil => simp
  | cons c s ih => simp [ih, Nat.add_assoc]

def utf8 (t : Text) : List UInt8 := t.flatMap String.utf8EncodeChar

@[simp] theorem length_utf8 (t : Text) : t.utf8.length = t.width := by
  induction t with
  | nil => rfl
  | cons c t ih => simpa [utf8] using ih

def ofNat (n : Nat) : Text := Nat.toDigits 10 n

/-- Puts spaces before `t`, up to `n` characters in all. -/
def padStart (n : Nat) (t : Text) : Text := List.replicate (n - t.length) ' ' ++ t

/-- Puts spaces after `t`, up to `n` characters in all. -/
def padEnd (n : Nat) (t : Text) : Text := t ++ List.replicate (n - t.length) ' '

/-- The text after `start`, when it begins with it. -/
def dropStart? (start t : Text) : Option Text :=
  if start.isPrefixOf t then some (t.drop start.length) else none

/-- What is left of `t` without its first `n` bytes. -/
def dropBytes? : Nat → Text → Option Text
  | 0, t => some t
  | _ + 1, [] => none
  | n + 1, c :: t => if c.utf8Size ≤ n + 1 then dropBytes? (n + 1 - c.utf8Size) t else none

end Text

end FeatureQuery
