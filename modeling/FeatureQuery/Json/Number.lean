import FeatureQuery.Json.Fault
import FeatureQuery.Text.Basic

/-!
# JSON numbers

A number is read for its shape. Whether it is finite as a double is asked only of a number that is
used; a number that is passed over may be of any size.
-/

namespace FeatureQuery.Json

/-- The parts of a number, without its sign. -/
structure Number where
  whole : Text
  fraction : Text
  exponent : Int
  deriving DecidableEq, Repr

namespace Number

/-- One digit or more, and what follows them. -/
def digits (t : Text) : Except Fault (Text × Text) :=
  let found := t.takeWhile Char.isDigit
  let rest := t.dropWhile Char.isDigit
  if found.isEmpty then .error (.ofRest rest) else .ok (found, rest)

theorem length_digits {t found rest : Text} (h : digits t = .ok (found, rest)) :
    rest.length < t.length := by
  simp only [digits] at h
  split at h
  · cases h
  · rename_i notEmpty
    cases h
    have whole := congrArg List.length (@List.takeWhile_append_dropWhile _ Char.isDigit t)
    rw [List.length_append] at whole
    have := List.length_pos_iff.2 (mt List.isEmpty_iff.2 notEmpty)
    omega

def value (digits : Text) : Nat := digits.foldl (fun n c => 10 * n + (c.toNat - '0'.toNat)) 0

/-- Digits before the point: a zero stands alone. -/
def scanWhole (t : Text) : Except Fault (Text × Text) :=
  match digits t with
  | .error e => .error e
  | .ok (found, rest) =>
    if found.head? = some '0' ∧ 1 < found.length then .error .malformed else .ok (found, rest)

def scanFraction (t : Text) : Except Fault (Text × Text) :=
  match t with
  | '.' :: rest => digits rest
  | t => .ok ([], t)

def scanSigned (t : Text) : Except Fault (Int × Text) :=
  match digits (if t.head? = some '-' ∨ t.head? = some '+' then t.drop 1 else t) with
  | .error e => .error e
  | .ok (found, rest) =>
    .ok (if t.head? = some '-' then -(value found : Int) else value found, rest)

def scanExponent (t : Text) : Except Fault (Int × Text) :=
  match t with
  | 'e' :: t | 'E' :: t => scanSigned t
  | t => .ok (0, t)

theorem length_scanWhole {t found rest : Text} (h : scanWhole t = .ok (found, rest)) :
    rest.length < t.length := by
  unfold scanWhole at h
  split at h
  · cases h
  · rename_i scanned
    split at h <;> cases h
    exact length_digits scanned

theorem length_scanFraction {t found rest : Text} (h : scanFraction t = .ok (found, rest)) :
    rest.length ≤ t.length := by
  unfold scanFraction at h
  split at h
  · have := length_digits h
    simp only [List.length_cons]
    omega
  · cases h
    exact Nat.le_refl _

theorem length_scanSigned {t rest : Text} {n : Int} (h : scanSigned t = .ok (n, rest)) :
    rest.length < t.length := by
  have unsigned :
      (if t.head? = some '-' ∨ t.head? = some '+' then t.drop 1 else t).length ≤ t.length := by
    split <;> simp
  unfold scanSigned at h
  split at h
  · cases h
  · rename_i scanned
    cases h
    exact Nat.lt_of_lt_of_le (length_digits scanned) unsigned

theorem length_scanExponent {t rest : Text} {n : Int} (h : scanExponent t = .ok (n, rest)) :
    rest.length ≤ t.length := by
  unfold scanExponent at h
  split at h
  · exact Nat.le_succ_of_le (Nat.le_of_lt (length_scanSigned h))
  · exact Nat.le_succ_of_le (Nat.le_of_lt (length_scanSigned h))
  · cases h
    exact Nat.le_refl _

/-- Reads a number, which may have a sign, and what follows it. -/
def scan (t : Text) : Except Fault (Number × Text) := do
  let (whole, t) ← scanWhole (if t.head? = some '-' then t.drop 1 else t)
  let (fraction, t) ← scanFraction t
  let (exponent, t) ← scanExponent t
  return (⟨whole, fraction, exponent⟩, t)

theorem length_scan {t rest : Text} {n : Number} (h : scan t = .ok (n, rest)) :
    rest.length < t.length := by
  have unsigned : (if t.head? = some '-' then t.drop 1 else t).length ≤ t.length := by
    split <;> simp
  unfold scan at h
  generalize (if t.head? = some '-' then t.drop 1 else t) = u at h unsigned
  cases whole : scanWhole u with
  | error e => simp [whole, bind, Except.bind] at h
  | ok first =>
    obtain ⟨whole', afterWhole⟩ := first
    cases fraction : scanFraction afterWhole with
    | error e => simp [whole, fraction, bind, Except.bind] at h
    | ok second =>
      obtain ⟨fraction', afterFraction⟩ := second
      cases exponent : scanExponent afterFraction with
      | error e => simp [whole, fraction, exponent, bind, Except.bind] at h
      | ok third =>
        obtain ⟨exponent', afterExponent⟩ := third
        simp only [whole, fraction, exponent, bind, Except.bind, pure, Except.pure,
          Except.ok.injEq, Prod.mk.injEq] at h
        have one := length_scanWhole whole
        have two := length_scanFraction fraction
        have three := length_scanExponent exponent
        rw [← h.2]
        omega

/-- The digits that a significand of 64 bits takes up, and their number. -/
def absorb : Nat → Text → Nat × Nat
  | n, [] => (n, 0)
  | n, c :: t =>
    let more := 10 * n + (c.toNat - '0'.toNat)
    if more < Nat.pow 2 64 then
      let (total, count) := absorb more t
      (total, count + 1)
    else (n, 0)

/-- The nearest number of at most 53 significant bits; a tie goes to the even one. -/
def nearest53 (n : Nat) : Nat :=
  let unit := Nat.pow 2 (n.log2 - 52)
  let down := n / unit
  let above := 2 * (n % unit)
  if unit < above ∨ unit = above ∧ down % 2 = 1 then (down + 1) * unit else down * unit

/-- The first number that rounds to infinity as a double. -/
def overflow : Nat := Nat.pow 2 1024 - Nat.pow 2 970

/-- The number is finite as a double: a significand of 64 bits, its other digits counted or cut,
times a power of ten, each of the two rounded first. -/
def finite (n : Number) : Bool :=
  let (high, taken) := absorb 0 n.whole
  let (significand, fine) := absorb high n.fraction
  let exponent : Int := (n.whole.length - taken : Nat) - fine + n.exponent
  significand = 0 || exponent < 0 ||
    exponent ≤ 308 && nearest53 significand * nearest53 (Nat.pow 10 exponent.toNat) < overflow

end Number

end FeatureQuery.Json
