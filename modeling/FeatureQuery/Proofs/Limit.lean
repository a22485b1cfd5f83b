import FeatureQuery.Proofs.Unlimited
import FeatureQuery.Proofs.Calls

/-!
# The limit is only a filter

A parser without a limit opens every level that it is asked to. As long as it never opens one with
256 others around, the limit makes no difference to the answer, nor to where the parser stops.
Otherwise the first token that would open one too many is refused, whatever comes after it.
-/

namespace FeatureQuery

namespace Reading

variable {input : Text} {s t : Reading} {token : Token} {tokens rest : List Token} {i j m n : Nat}

/-- At the `i`-th token a level is opened while `n` levels are open, if there is no limit. -/
def Opens (tokens : List Token) (i n : Nat) (s : Reading) : Prop :=
  ∃ token t, tokens[i]? = some token ∧ feedAll none (tokens.take i) s = .ok t ∧
    t.operandDue = true ∧ (token.kind = .lparen ∨ token.kind = .not) ∧ t.depth = n

theorem opens_zero : Opens (token :: tokens) 0 n s ↔
    s.operandDue = true ∧ (token.kind = .lparen ∨ token.kind = .not) ∧ s.depth = n := by
  constructor
  · rintro ⟨_, _, here, fed, opens⟩
    cases here
    cases fed
    exact opens
  · intro opens
    exact ⟨token, s, rfl, rfl, opens⟩

theorem opens_succ : Opens (token :: tokens) (i + 1) n s ↔
    ∃ t, s.feed none token = .ok t ∧ Opens tokens i n t := by
  constructor
  · rintro ⟨later, u, here, fed, opens⟩
    rw [List.take_succ_cons] at fed
    obtain ⟨t, step, fed⟩ := feedAll_cons_eq_ok fed
    exact ⟨t, feed_of_step step, later, u, here, fed, opens⟩
  · rintro ⟨t, first, later, u, here, fed, opens⟩
    refine ⟨later, u, here, ?_, opens⟩
    rw [List.take_succ_cons, feedAll_cons first, fed]

theorem opens_of_take (h : Opens (tokens.take i) j n s) : j < i ∧ Opens tokens j n s := by
  obtain ⟨token, t, here, fed, opens⟩ := h
  obtain ⟨inside, -⟩ := List.getElem?_eq_some_iff.mp here
  have before : j < i := by
    rw [List.length_take] at inside
    omega
  rw [List.getElem?_take_of_lt before] at here
  rw [List.take_take, Nat.min_eq_left (Nat.le_of_lt before)] at fed
  exact ⟨before, token, t, here, fed, opens⟩

/-- A limit is asked for only where a level is opened. -/
theorem feed_of_room (room : ∀ n, Opens (token :: tokens) 0 n s → n < m) :
    s.feed (some m) token = s.feed none token := by
  cases due : s.operandDue with
  | false => simp [feed, due]
  | true =>
    have free (deepens : token.kind = .lparen ∨ token.kind = .not) : s.depth < m :=
      room s.depth (opens_zero.mpr ⟨due, deepens, rfl⟩)
    cases kind : token.kind with
    | lparen => simp [feed, due, kind, free (.inl kind)]
    | not => simp [feed, due, kind, free (.inr kind)]
    | feature | rparen | and | or => simp [feed, due, kind]

theorem feedAll_of_room (room : ∀ i n, Opens tokens i n s → n < m) :
    feedAll (some m) tokens s = feedAll none tokens s := by
  induction tokens generalizing s with
  | nil => rfl
  | cons token tokens ih =>
    rw [feedAll, feedAll, feed_of_room (room 0)]
    cases fed : s.feed none token with
    | error e => rfl
    | ok t =>
      apply ih
      intro i n opens
      exact room (i + 1) n (opens_succ.mpr ⟨t, fed, opens⟩)

theorem run_of_room (input : Text) (room : ∀ i n, Opens tokens i n s → n < m) :
    run (some m) input tokens s = run none input tokens s := by
  induction tokens generalizing s with
  | nil => rfl
  | cons token tokens ih =>
    rw [run, run, feed_of_room (room 0)]
    cases fed : s.feed none token with
    | error e => rfl
    | ok t =>
      have later : run (some m) input tokens t = run none input tokens t := by
        apply ih
        intro i n opens
        exact room (i + 1) n (opens_succ.mpr ⟨t, fed, opens⟩)
      simp only [later]

/-- The first level too many is refused, whatever comes after the token that would open it. -/
theorem run_of_full (here : tokens[i]? = some token) (opens : Opens tokens i n s) (full : m ≤ n)
    (first : ∀ j < i, ∀ k, Opens tokens j k s → k < m) (rest : List Token) :
    run (some m) input (tokens.take (i + 1) ++ rest) s =
      (.error (.nestingTooDeep token.span), i + 1) := by
  obtain ⟨_, t, found, fed, due, deepens, rfl⟩ := opens
  cases here.symm.trans found
  obtain ⟨inside, -⟩ := List.getElem?_eq_some_iff.mp here
  have room : feedAll (some m) (tokens.take i) s = .ok t := by
    rw [← fed]
    apply feedAll_of_room
    intro j k opens
    obtain ⟨before, opens⟩ := opens_of_take opens
    exact first j before k opens
  have fault : t.feed (some m) token = .error (.nestingTooDeep token.span) :=
    Descent.feed_full due deepens (by simpa using full)
  have split : tokens.take (i + 1) ++ rest = tokens.take i ++ token :: rest := by
    rw [List.take_add_one, here, List.append_assoc]
    rfl
  rw [split, run_of_fault room fault, List.length_take, Nat.min_eq_left (Nat.le_of_lt inside)]

theorem exists_first (full : Opens tokens i n s ∧ m ≤ n) :
    ∃ i, (∃ n, Opens tokens i n s ∧ m ≤ n) ∧ ∀ j < i, ∀ k, Opens tokens j k s → k < m := by
  induction i using Nat.strongRecOn generalizing n with
  | ind i ih =>
    by_cases earlier : ∃ j < i, ∃ k, Opens tokens j k s ∧ m ≤ k
    · obtain ⟨j, before, k, full⟩ := earlier
      exact ih j before full
    · refine ⟨i, ⟨n, full⟩, ?_⟩
      intro j before k opens
      apply Nat.lt_of_not_le
      intro most
      exact earlier ⟨j, before, k, opens, most⟩

theorem feed_none_ne_tooDeep (token : Token) (s : Reading) (span : Span) :
    s.feed none token ≠ .error (.nestingTooDeep span) := by
  unfold feed
  repeat' split
  all_goals simp_all

theorem run_none_ne_tooDeep (input : Text) (tokens : List Token) (s : Reading) (span : Span) :
    (run none input tokens s).1 ≠ .error (.nestingTooDeep span) := by
  rcases feedAll_cases none tokens s with ⟨t, h⟩ | ⟨before, token, after, t, e, rfl, h, fault⟩
  · rw [run_of_feedAll h]
    intro refused
    rcases finish_eq_error refused with e | e <;> cases e
  · rw [run_of_fault h fault]
    intro refused
    cases refused
    exact feed_none_ne_tooDeep token t span fault

/-- A reading is refused for its limit exactly when it is asked for a level too many. -/
theorem refused_iff_full (input : Text) :
    (∃ span, (run (some m) input tokens s).1 = .error (.nestingTooDeep span)) ↔
      ∃ i n, Opens tokens i n s ∧ m ≤ n := by
  constructor
  · rintro ⟨span, refused⟩
    apply Classical.byContradiction
    intro none
    have room : ∀ i n, Opens tokens i n s → n < m := by
      intro i n opens
      exact Nat.lt_of_not_le fun full => none ⟨i, n, opens, full⟩
    rw [run_of_room input room] at refused
    exact run_none_ne_tooDeep input tokens s span refused
  · rintro ⟨i, n, full⟩
    obtain ⟨i, ⟨n, opens, full⟩, first⟩ := exists_first full
    obtain ⟨token, -, here, -⟩ := id opens
    refine ⟨token.span, ?_⟩
    rw [← List.take_append_drop (i + 1) tokens, run_of_full here opens full first]

end Reading

namespace Parser

/-- As long as no level is asked for while 256 are open, a parser without the limit answers alike
and stops at the same place. Otherwise the first token that asks for such a level is refused,
whatever comes after it. -/
theorem limit_filters (input : Text) (tokens : List Token) :
    let limited := ofTokens input tokens
    let free := { limited with limit := none }
    let counted := (Descent.ofTokens input tokens).unlimited.parse.2.depths
    ((∃ i n, Reading.Opens tokens i n .start ∧ 256 ≤ n) ↔ ∃ n ∈ counted, 256 < n) ∧
    ((∀ i n, Reading.Opens tokens i n .start → n < 256) →
      limited.parse.1 = free.parse.1 ∧ limited.parse.2.position = free.parse.2.position) ∧
    ((∃ i n, Reading.Opens tokens i n .start ∧ 256 ≤ n) →
      ∃ i token, tokens[i]? = some token ∧ (∃ n, Reading.Opens tokens i n .start ∧ 256 ≤ n) ∧
        (∀ j < i, ∀ n, Reading.Opens tokens j n .start → n < 256) ∧
        ∀ rest, (ofTokens input (tokens.take (i + 1) ++ rest)).parse.1 =
          .error (.nestingTooDeep token.span)) := by
  intro limited free counted
  refine ⟨?_, ?_, ?_⟩
  · have filters := Descent.filters_parse (d := .ofTokens input tokens) (m := maxDepth) rfl
    have within := (Descent.idle_ofTokens input tokens).parse.depths
    rw [← Reading.refused_iff_full input]
    refine Iff.trans ?_ (filters.refused_iff (fun n mem => (within n mem).2) ?_)
    · rw [Descent.answer_parse rfl]
      rfl
    · intro span
      rw [Descent.answer_parse rfl]
      exact Reading.run_none_ne_tooDeep input tokens .start span
  · intro room
    have same := Reading.run_of_room input room
    have answer := congrArg Prod.fst same
    have used := congrArg Prod.snd same
    exact ⟨answer, congrArg (0 + ·) used⟩
  · rintro ⟨i, n, full⟩
    obtain ⟨i, ⟨n, opens, full⟩, first⟩ := Reading.exists_first full
    obtain ⟨token, -, here, -⟩ := id opens
    refine ⟨i, token, here, ⟨n, opens, full⟩, first, ?_⟩
    intro rest
    exact congrArg Prod.fst (Reading.run_of_full here opens full first rest)

/-- Parentheses and `not`s count alike. -/
theorem limit_filters_mixed :
    let opening : Token := ⟨.lparen, ['('], ⟨0, 1⟩⟩
    let negation : Token := ⟨.not, "not".toList, ⟨1, 4⟩⟩
    let tokens := (List.replicate 128 [opening, negation]).flatten ++ [opening]
    ∃ i token, tokens[i]? = some token ∧ ∀ rest,
      (ofTokens [] (tokens.take (i + 1) ++ rest)).parse.1 =
        .error (.nestingTooDeep token.span) := by
  intro opening negation tokens
  obtain ⟨counts, -, refuses⟩ := limit_filters [] tokens
  obtain ⟨i, token, here, -, -, refused⟩ := refuses (counts.mpr (by decide +kernel))
  exact ⟨i, token, here, refused⟩

end Parser

end FeatureQuery
