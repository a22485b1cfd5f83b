import FeatureQuery.Proofs.Scanner
import FeatureQuery.Proofs.Unbalanced

/-!
# Quotes that are never closed

The run of escapes in front of a letter does not reach back over a quote. So what closes a quote
would close every earlier one of its kind, and behind one that is never closed there is none that
is. A feature with such a quote in its body is invalid, and it spoils the features behind it: each
that has a quote of this kind outside of the strings of the other kinds is invalid too.
-/

namespace FeatureQuery

namespace Body

variable {α : Type} [Marked α] {letters : List α} {a : α} {start stop p q : Nat}

/-- Reading a body from `start`, before it ends at `stop`, comes to the quote `a` at `p`, which is
never closed. -/
structure Unclosed [DecidableEq α] (letters : List α) (start stop : Nat) (a : α) (p : Nat) :
    Prop where
  reached : Reached letters start p
  inside : p < stop
  holds : letters[p]? = some a
  isQuote : mark a = .quote
  never : findCloser letters (p + 1) a = none

/-- Between `start` and `stop` the letter `a` stands at `q`, and in no string of another quote. -/
structure Meets (letters : List α) (start stop : Nat) (a : α) (q : Nat) : Prop where
  from_start : start ≤ q
  inside : q < stop
  holds : letters[q]? = some a
  outside : ∀ s c, Reached letters start s → IsString letters s c → s ≤ q → q ≤ c →
    letters[s]? = some a

variable [DecidableEq α]

theorem bare_quote_iff :
    p < stop ∧ Bare letters start .quote p ↔ ∃ a, Unclosed letters start stop a p := by
  constructor
  · rintro ⟨inside, reached, ⟨a, here, isQuote⟩, plain⟩
    exact ⟨a, reached, inside, here, isQuote, (forall_not_isString_iff here isQuote).mp plain⟩
  · rintro ⟨a, reached, inside, here, isQuote, never⟩
    exact ⟨inside, reached, ⟨a, here, isQuote⟩, (forall_not_isString_iff here isQuote).mpr never⟩

/-- In front of the body a quote is never closed: then in the body it is in no string of its own
kind, and where it is in none of another kind, it spoils the body. -/
theorem Meets.unclosed (met : Meets letters start stop a q) (read : Reached letters start stop)
    (isQuote : mark a = .quote) (at_p : letters[p]? = some a)
    (never : findCloser letters (p + 1) a = none) (before : p < start) :
    Unclosed letters start stop a q := by
  have later {s : Nat} (from_start : start ≤ s) (at_s : letters[s]? = some a) :
      findCloser letters (s + 1) a = none :=
    findCloser_eq_none_of_lt isQuote at_p never (Nat.lt_of_lt_of_le before from_start) at_s
  refine ⟨?_, met.inside, met.holds, isQuote, later met.from_start met.holds⟩
  rcases read.of_lt met.from_start met.inside with there | ⟨s, c, there, closed, first, last⟩
  · exact there
  · have at_s := met.outside s c there closed (Nat.le_of_lt first) last
    have plain := (forall_not_isString_iff at_s isQuote).mpr (later there.start_le at_s)
    exact absurd closed (plain c)

/-- Where the loop stops it has read the body, and it tells of the unclosed quotes on the way. -/
theorem reached_of_stop {terminated : Bool} (inside : start ≤ letters.length)
    (stops : Body.stop letters start 0 true = (stop, terminated)) : Reached letters start stop ∧
      (terminated = false ↔ ∃ a p, Unclosed letters start stop a p) := by
  obtain ⟨s, run, -, same⟩ := Progress.exists_visits_stop letters start 0 true
  have sound := (Progress.sound_start inside).visits run
  rw [stops] at same
  obtain ⟨rfl, rfl⟩ := Prod.mk.inj same
  refine ⟨sound.reached, ?_⟩
  rw [sound.terminated_iff, exists_comm]
  exact exists_congr fun p => bare_quote_iff

end Body

namespace Token

variable {t : Text} {token : Token} {f : Feature}

/-- The token is the feature `f`, a declaration or a call by its form: behind the name there is a
separator. -/
structure HasBody (token : Token) (f : Feature) : Prop where
  kind : token.kind = .feature f
  separated : f.left ++ [Feature.separator f.callForm] <+: token.raw

/-- The index of the separator, from which the body is scanned. -/
def separatorAt (token : Token) (f : Feature) : Nat := token.span.start + f.left.width

theorem Lexed.exists_body {raw rest : Text} (lexed : Lexed (.feature f) raw rest)
    (separated : f.left ++ [Feature.separator f.callForm] <+: raw) : ∃ body terminated,
      raw = f.left ++ Feature.separator f.callForm :: body ∧
      Body.Reads (bodyDepth f.callForm) body rest terminated ∧
      (f.kind = .invalid ↔ terminated = false) := by
  cases lexed with
  | keyword listed _ => simp [keywords] at listed
  | name =>
    have longer := separated.length_le
    simp [Feature.bare] at longer
  | @body call name body _ terminated _ reads =>
    refine ⟨body, terminated, rfl, reads, ?_⟩
    cases terminated <;> cases call <;> simp [Feature.ofBody]

/-- Among the bytes of its text, a body starts at the separator and ends with the token. -/
theorem HasBody.exists_reads (body : token.HasBody f) (mem : token ∈ tokenize t) :
    ∃ front letters rest terminated, t.utf8 = front ++ (letters ++ rest) ∧
      front.length = token.separatorAt f ∧ (front ++ letters).length = token.span.stop ∧
      Body.Reads 0 letters rest terminated ∧ (f.kind = .invalid ↔ terminated = false) := by
  obtain ⟨passed, rest, rfl, span, lexed⟩ := (cuts_tokenize t).exists_lexed_of_mem mem
  rw [body.kind] at lexed
  obtain ⟨letters, terminated, raw, reads, kind⟩ := lexed.exists_body body.separated
  refine ⟨Text.utf8 (passed ++ f.left), _, _, terminated, ?_, ?_, ?_,
    (reads_separator reads).utf8, kind⟩
  · rw [raw]
    simp only [← Text.utf8_append, List.append_assoc, List.cons_append]
  · simp [separatorAt, span]
  · rw [← Text.utf8_append, List.append_assoc, ← raw, Text.length_utf8, Text.width_append, span,
      Nat.zero_add]

/-- The loop over the bytes of the text stops where the token does. -/
theorem HasBody.exists_stop (body : token.HasBody f) (mem : token ∈ tokenize t) :
    token.separatorAt f ≤ t.utf8.length ∧ ∃ terminated,
      Body.stop t.utf8 (token.separatorAt f) 0 true = (token.span.stop, terminated) ∧
      (f.kind = .invalid ↔ terminated = false) := by
  obtain ⟨front, letters, rest, terminated, whole, start, ends, reads, kind⟩ :=
    body.exists_reads mem
  have stops := Body.stop_of_reads front reads true
  rw [← whole, start, ends, Bool.true_and] at stops
  refine ⟨?_, terminated, stops, kind⟩
  rw [← start, whole, List.length_append]
  exact Nat.le_add_right _ _

/-- A feature with a body is invalid when a quote in the body is never closed, and only then. -/
theorem HasBody.invalid_iff (body : token.HasBody f) (mem : token ∈ tokenize t) :
    f.kind = .invalid ↔
      ∃ a p, Body.Unclosed t.utf8 (token.separatorAt f) token.span.stop a p := by
  obtain ⟨inside, terminated, stops, kind⟩ := body.exists_stop mem
  rw [kind]
  exact (Body.reached_of_stop inside stops).2

theorem HasBody.reached (body : token.HasBody f) (mem : token ∈ tokenize t) :
    Body.Reached t.utf8 (token.separatorAt f) token.span.stop := by
  obtain ⟨inside, terminated, stops, -⟩ := body.exists_stop mem
  exact (Body.reached_of_stop inside stops).1

/-- Behind a quote that is never closed no quote of its kind is. A feature with a body is invalid
when a quote in the body is never closed, and only then; and then every later feature with a body
that has the same quote outside of the strings of the others has it unclosed, and is invalid. -/
theorem invalid_behind_unclosed (t : Text) :
    (∀ (bytes : List UInt8) (quote : UInt8) (p q : Nat), mark quote = .quote →
      bytes[p]? = some quote → Body.findCloser bytes (p + 1) quote = none → p < q →
      bytes[q]? = some quote → Body.findCloser bytes (q + 1) quote = none) ∧
    (∀ token ∈ tokenize t, ∀ f, token.HasBody f → (f.kind = .invalid ↔
      ∃ quote p, Body.Unclosed t.utf8 (token.separatorAt f) token.span.stop quote p)) ∧
    ∀ (i j : Nat) (a b : Token) (f g : Feature) (quote : UInt8) (p q : Nat),
      (tokenize t)[i]? = some a → (tokenize t)[j]? = some b → i < j → a.HasBody f → b.HasBody g →
      Body.Unclosed t.utf8 (a.separatorAt f) a.span.stop quote p →
      Body.Meets t.utf8 (b.separatorAt g) b.span.stop quote q →
      Body.Unclosed t.utf8 (b.separatorAt g) b.span.stop quote q ∧ g.kind = .invalid := by
  refine ⟨?_, fun token mem f body => body.invalid_iff mem, ?_⟩
  · intro bytes quote p q isQuote at_p never behind at_q
    exact Body.findCloser_eq_none_of_lt isQuote at_p never behind at_q
  · intro i j a b f g quote p q at_i at_j behind _ body unclosed met
    have mem : b ∈ tokenize t := List.mem_of_getElem? at_j
    have before : p < b.separatorAt g :=
      calc p < a.span.stop := unclosed.inside
        _ ≤ b.span.start := (cuts_tokenize t).stop_le_start at_i at_j behind
        _ ≤ b.separatorAt g := Nat.le_add_right _ _
    have later := met.unclosed (body.reached mem) unclosed.isQuote unclosed.holds unclosed.never
      before
    exact ⟨later, (body.invalid_iff mem).mpr ⟨quote, q, later⟩⟩

/-- A wide character, a quote in a string of another kind, and an escaped quote: the first feature's
quote would be closed there, were it not for the escapes. -/
theorem invalid_behind_unclosed_escaped :
    let t : Text := "(a: \"é) and (b: '\\\"' \\\"y)".toList
    let quote := Text.byte '"'
    let f : Feature := ⟨.invalid, false, ['a'], "\"é".toList⟩
    let g : Feature := ⟨.invalid, false, ['b'], "'\\\"' \\\"y".toList⟩
    let a : Token := ⟨.feature f, "a: \"é".toList, ⟨1, 7⟩⟩
    let b : Token := ⟨.feature g, "b: '\\\"' \\\"y".toList, ⟨14, 25⟩⟩
    (mark quote = .quote ∧ t.utf8[4]? = some quote ∧ Body.findCloser t.utf8 5 quote = none ∧
      t.utf8[19]? = some quote ∧ Body.findCloser t.utf8 20 quote = none) ∧
    (a ∈ tokenize t ∧ a.HasBody f ∧ ∃ quote p, Body.Unclosed t.utf8 2 7 quote p) ∧
    (tokenize t)[1]? = some a ∧ (tokenize t)[5]? = some b ∧ b.HasBody g ∧
      Body.Unclosed t.utf8 2 7 quote 4 ∧ Body.Meets t.utf8 15 25 quote 23 ∧
      Body.Unclosed t.utf8 15 25 quote 23 ∧ g.kind = .invalid := by
  intro t quote f g a b
  obtain ⟨later, invalid, spoiled⟩ := invalid_behind_unclosed t
  have isQuote : mark quote = .quote := rfl
  have at_p : t.utf8[4]? = some quote := by decide +kernel
  have at_q : t.utf8[19]? = some quote := by decide +kernel
  have never : Body.findCloser t.utf8 5 quote = none := by decide +kernel
  have at_i : (tokenize t)[1]? = some a := by decide +kernel
  have at_j : (tokenize t)[5]? = some b := by decide +kernel
  have mem : a ∈ tokenize t := List.mem_of_getElem? at_i
  have body : a.HasBody f := ⟨rfl, by decide⟩
  have body' : b.HasBody g := ⟨rfl, by decide⟩
  have unclosed : Body.Unclosed t.utf8 2 7 quote 4 := by
    have colon : t.utf8[2]? = some (Text.byte ':') := by decide +kernel
    have blank : t.utf8[3]? = some (Text.byte ' ') := by decide +kernel
    have inside : 3 < t.utf8.length := by decide +kernel
    refine ⟨.plain (.plain .start (by omega) ?_) inside ?_, by decide, at_p, isQuote, never⟩
    · exact Body.Progress.not_isString colon (by decide)
    · exact Body.Progress.not_isString blank (by decide)
  have met : Body.Meets t.utf8 15 25 quote 23 := by
    have ended : ∀ s < 24, 15 ≤ s → t.utf8[s]? = some quote ∨
        t.utf8[s]?.all (mark · ≠ .quote) ∨
          (t.utf8[s]?.bind (Body.findCloser t.utf8 (s + 1) ·)).all (· < 23) := by decide +kernel
    refine ⟨by decide, by decide, by decide +kernel, ?_⟩
    intro s c there closed first last
    obtain ⟨x, at_s, isQuote'⟩ := closed.1
    have found := ((Body.isString_iff at_s).mp closed).2
    rcases ended s (by omega) there.start_le with same | other | early
    · exact same
    · rw [Option.mem_def.mp at_s, Option.all_some, decide_eq_true_eq] at other
      exact absurd isQuote' other
    · rw [Option.mem_def.mp at_s, Option.bind_some, found, Option.all_some, decide_eq_true_eq]
        at early
      omega
  have unclosed' := spoiled 1 5 a b f g quote 4 23 at_i at_j (by decide) body body' unclosed met
  exact ⟨⟨isQuote, at_p, never, at_q, later _ _ 4 19 isQuote at_p never (by decide) at_q⟩,
    ⟨mem, body, (invalid a mem f body).mp rfl⟩, at_i, at_j, body', unclosed, met, unclosed'⟩

end Token

end FeatureQuery
