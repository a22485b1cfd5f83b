import FeatureQuery.Session

/-!
# Squeezed texts

A written text is squeezed by dropping its blanks, but those in a string. What is in a string can be
told by reading from the left: a backslash takes the next character with it, so that an escaped
quote does not end the string. The indented form of a condition is squeezed to the compact one.
-/

namespace FeatureQuery.Json

/-- Where a character of a written text stands. -/
inductive Place where
  | outside
  | inString
  /-- Behind a backslash in a string. -/
  | escaped
  deriving DecidableEq, Repr

def Place.after : Place → Char → Place
  | .outside, c => if c = '"' then .inString else .outside
  | .inString, c => if c = '"' then .outside else if c = '\\' then .escaped else .inString
  | .escaped, _ => .inString

/-- Drops the blanks outside strings of a text that starts at `p`. -/
def squeeze (p : Place) : Text → Text
  | [] => []
  | c :: t =>
    if p = .outside ∧ Text.isBlank c then squeeze p t else c :: squeeze (p.after c) t

variable {p : Place} {c : Char} {t : Text}

theorem squeeze_blank (blank : Text.isBlank c = true) (rest : Text) :
    squeeze .outside (c :: rest) = squeeze .outside rest := by
  rw [squeeze, if_pos ⟨rfl, blank⟩]

/-- Punctuation stays, and what follows it is outside strings too. -/
theorem squeeze_punctuation (solid : Text.isBlank c = false) (quote : c ≠ '"') (rest : Text) :
    squeeze .outside (c :: rest) = c :: squeeze .outside rest := by
  rw [squeeze, if_neg (by simp [solid]), Place.after, if_neg quote]

theorem squeeze_letter (letter : Place.inString.after c = .inString) (rest : Text) :
    squeeze .inString (c :: rest) = c :: squeeze .inString rest := by
  rw [squeeze, if_neg (by simp), letter]

theorem squeeze_squeeze (p : Place) (t : Text) : squeeze p (squeeze p t) = squeeze p t := by
  induction t generalizing p with
  | nil => rfl
  | cons c t ih =>
    by_cases dropped : p = .outside ∧ Text.isBlank c
    · rw [squeeze, if_pos dropped, ih]
    · rw [squeeze, if_neg dropped, squeeze, if_neg dropped, ih]

theorem after_digitChar {n : Nat} (digit : n < 16) :
    Place.inString.after (Nat.digitChar n) = .inString := by
  have all : ∀ n < 16, Place.inString.after (Nat.digitChar n) = .inString := by decide
  exact all n digit

/-- No character of a string is dropped, nor does one end the string. -/
theorem squeeze_escape (c : Char) (rest : Text) :
    squeeze .inString (escape c ++ rest) = escape c ++ squeeze .inString rest := by
  unfold escape
  split
  -- The characters with a letter of their own are closed cases; this is for all others.
  case h_8 =>
    rename_i quote backslash _ _ _ _ _
    split
    · have unit (more : Text) : squeeze .inString ("\\u00".toList ++ more) =
          "\\u00".toList ++ squeeze .inString more := rfl
      rw [List.append_assoc, unit, List.cons_append,
        squeeze_letter (after_digitChar (by omega)), List.cons_append,
        squeeze_letter (after_digitChar (by omega)), List.append_assoc]
      rfl
    · apply squeeze_letter
      rw [Place.after, if_neg quote, if_neg backslash]
  all_goals rfl

theorem squeeze_quoted (t rest : Text) :
    squeeze .outside (quoted t ++ rest) = quoted t ++ squeeze .outside rest := by
  have body : squeeze .inString (t.flatMap escape ++ '"' :: rest) =
      t.flatMap escape ++ '"' :: squeeze .outside rest := by
    induction t with
    | nil => rfl
    | cons c t ih =>
      rw [List.flatMap_cons, List.append_assoc, squeeze_escape, ih, List.append_assoc]
  have split (more : Text) : quoted t ++ more = '"' :: (t.flatMap escape ++ '"' :: more) := by
    simp [quoted]
  rw [split, split, ← body]
  rfl

theorem squeeze_member (name : String) (rest : Text) :
    squeeze .outside (member name ++ rest) = member name ++ squeeze .outside rest := by
  rw [member, List.append_assoc, List.append_assoc, squeeze_quoted]
  rfl

namespace Value

theorem squeeze_newline (level : Nat) (rest : Text) :
    squeeze .outside (newline level ++ rest) = squeeze .outside rest := by
  rw [newline, List.cons_append, squeeze_blank (by decide)]
  induction 2 * level with
  | zero => rfl
  | succ n ih => rw [List.replicate_succ, List.cons_append, squeeze_blank (by decide), ih]

mutual

theorem squeeze_indented (level : Nat) (rest : Text) :
    (v : Value) → squeeze .outside (v.indented level ++ rest) = v.compact ++ squeeze .outside rest
  | .string t => squeeze_quoted t rest
  | .array [] => rfl
  | .array (v :: vs) => by
    simp only [indented, compact, List.cons_append, List.append_assoc]
    rw [squeeze_punctuation (by decide) (by decide), squeeze_newline,
      squeeze_indented (level + 1) _ v, squeeze_indentedRest level rest vs]
  | .record type node => by
    simp only [indented, compact, List.cons_append, List.append_assoc, List.nil_append]
    rw [squeeze_punctuation (by decide) (by decide), squeeze_newline, squeeze_member,
      squeeze_blank (by decide), squeeze_quoted, squeeze_punctuation (by decide) (by decide),
      squeeze_newline, squeeze_member, squeeze_blank (by decide),
      squeeze_indented (level + 1) _ node, squeeze_newline,
      squeeze_punctuation (by decide) (by decide)]

theorem squeeze_indentedRest (level : Nat) (rest : Text) :
    (vs : List Value) → squeeze .outside (indentedRest level vs ++ rest) =
      compactRest vs ++ squeeze .outside rest
  | [] => by
    rw [indentedRest, List.append_assoc, squeeze_newline]
    rfl
  | v :: vs => by
    simp only [indentedRest, compactRest, List.cons_append, List.append_assoc]
    rw [squeeze_punctuation (by decide) (by decide), squeeze_newline,
      squeeze_indented (level + 1) _ v, squeeze_indentedRest level rest vs]

end

end Value

end FeatureQuery.Json

namespace FeatureQuery.Condition

open Json (squeeze)

/-- The indented form of a condition is squeezed to its compact form, which has nothing left to be
dropped. What a session prints for a condition that it accepts is the indented form, behind a line
of its own. -/
theorem indented_squeezes_to_compact (c : Condition) :
    squeeze .outside c.indented = c.compact ∧ squeeze .outside c.compact = c.compact ∧
      ∀ (s : Session) (t : Text), Query.build s.silent t = .ok ⟨c, s.silent⟩ →
        (s.handle (.condition t)).out =
          Text.println "✓ 解析成功".toList ++ Text.println c.indented := by
  have squeezed : squeeze .outside c.indented = c.compact := by
    have whole := Json.Value.squeeze_indented 0 [] c.document
    rwa [List.append_nil, squeeze, List.append_nil] at whole
  refine ⟨squeezed, ?_, ?_⟩
  · rw [← squeezed, Json.squeeze_squeeze]
  · intro s t built
    rw [Session.handle, Session.handleCondition, built]

/-- A quote, a backslash and a control in a key are escaped, and a level within another one is
indented further. -/
theorem indented_squeezes_to_compact_escapes :
    let t := "(a:\"\\\"\x01\") or not (b)".toList
    let c : Condition := .group .any
      [.feature .declaration "a:\"\\\"\x01\"".toList, .not (.feature .invalid "b".toList)]
    Query.build false t = .ok ⟨c, false⟩ ∧
      ((Session.start false).handle (.condition t)).out =
        Text.println "✓ 解析成功".toList ++ Text.println c.indented ∧
      squeeze .outside c.indented = c.compact ∧
      c.compact = "\x7b\"type\":\"or\",\"node\":[".toList ++
        "\x7b\"type\":\"declaration\",\"node\":\"a:\\\"\\\\\\\"\\u0001\\\"\"\x7d,".toList ++
        "\x7b\"type\":\"not\",\"node\":\x7b\"type\":\"invalid\",\"node\":\"b\"\x7d\x7d]\x7d".toList ∧
      c.indented = ['\n'].intercalate [
        "\x7b".toList,
        "  \"type\": \"or\",".toList,
        "  \"node\": [".toList,
        "    \x7b".toList,
        "      \"type\": \"declaration\",".toList,
        "      \"node\": \"a:\\\"\\\\\\\"\\u0001\\\"\"".toList,
        "    \x7d,".toList,
        "    \x7b".toList,
        "      \"type\": \"not\",".toList,
        "      \"node\": \x7b".toList,
        "        \"type\": \"invalid\",".toList,
        "        \"node\": \"b\"".toList,
        "      \x7d".toList,
        "    \x7d".toList,
        "  ]".toList,
        "\x7d".toList] := by
  intro t c
  obtain ⟨squeezed, -, printed⟩ := indented_squeezes_to_compact c
  have built : Query.build false t = .ok ⟨c, false⟩ := by decide +kernel
  exact ⟨built, printed (.start false) t built, squeezed, by decide +kernel, by decide +kernel⟩

end FeatureQuery.Condition
