import FeatureQuery.Proofs.Acceptance
import FeatureQuery.Proofs.Coverage

/-!
# Balanced parentheses

Parentheses are counted twice: the parser closes the levels that it opens, and the lexer takes what
a body opens and closes into one token. Only the end of the text may come while a body still has
parentheses open. So in a condition that is read nothing is closed that was not opened, and what
is left open belongs to the last feature.
-/

namespace FeatureQuery

open Token (Lexed isSeparator)

namespace Body

variable {α : Type} [DecidableEq α] [Marked α]

/-- A body without its closed quoted strings, where the next `quoted` letters end such a string. -/
def unquoted (quoted : Nat) : List α → List α
  | [] => []
  | a :: rest =>
    match quoted, mark a with
    | quoted + 1, _ => unquoted quoted rest
    | 0, .quote =>
      match closer a rest with
      | some k => unquoted (k + 1) rest
      | none => a :: unquoted 0 rest
    | 0, .opening | 0, .closing | 0, .escape | 0, .plain => a :: unquoted 0 rest

theorem unquoted_length (content letters : List α) :
    unquoted content.length (content ++ letters) = unquoted 0 letters := by
  induction content with
  | nil => rfl
  | cons a content ih => exact ih

end Body

namespace Text

/-- The characters that start in the first `n` bytes, and the others. -/
def splitBytes : Nat → Text → Text × Text
  | 0, t => ([], t)
  | _ + 1, [] => ([], [])
  | n + 1, c :: t =>
    let (front, back) := splitBytes (n + 1 - c.utf8Size) t
    (c :: front, back)

theorem splitBytes_width (front back : Text) :
    splitBytes front.width (front ++ back) = (front, back) := by
  induction front with
  | nil => simp [splitBytes]
  | cons c front ih =>
    have pos := c.utf8Size_pos
    obtain ⟨n, size⟩ : ∃ n, c.utf8Size + Text.width front = n + 1 :=
      ⟨c.utf8Size + Text.width front - 1, by omega⟩
    rw [width_cons, size, List.cons_append, splitBytes, ← size, Nat.add_sub_cancel_left, ih]

/-- Parentheses that are open after `c`, when `n` are open before it; none where one is closed that
was not opened. -/
def paren (n : Nat) (c : Char) : Option Nat :=
  if c = '(' then some (n + 1)
  else if c = ')' then if n = 0 then none else some (n - 1)
  else some n

def climb (n : Nat) (t : Text) : Option Nat := t.foldlM paren n

variable {n k : Nat} {s t : Text} {c : Char}

theorem climb_append (n : Nat) (s t : Text) :
    climb n (s ++ t) = (climb n s).bind fun k => climb k t :=
  List.foldlM_append

theorem climb_cons (n : Nat) (c : Char) (t : Text) :
    climb n (c :: t) = (paren n c).bind fun k => climb k t :=
  List.foldlM_cons

theorem paren_of_ne (opening : c ≠ '(') (closing : c ≠ ')') (n : Nat) : paren n c = some n := by
  rw [paren, if_neg opening, if_neg closing]

theorem climb_of_free (free : ∀ c ∈ t, c ≠ '(' ∧ c ≠ ')') (n : Nat) : climb n t = some n := by
  induction t with
  | nil => rfl
  | cons c t ih =>
    rw [List.forall_mem_cons] at free
    rw [climb_cons, paren_of_ne free.1.1 free.1.2]
    exact ih free.2

theorem count_of_paren (h : paren n c = some k) : n + [c].count '(' = k + [c].count ')' := by
  unfold paren at h
  split at h
  · cases h
    simp_all
  · split at h
    · split at h
      · cases h
      · cases h
        simp_all
        omega
    · cases h
      simp_all

/-- No prefix closes more than was open, and the whole makes up the difference. -/
theorem count_of_climb (h : climb n t = some k) :
    (∀ front, front <+: t → front.count ')' ≤ n + front.count '(') ∧
      n + t.count '(' = k + t.count ')' := by
  induction t generalizing n with
  | nil =>
    cases h
    simp
  | cons c t ih =>
    rw [climb_cons] at h
    obtain ⟨m, first, later⟩ := Option.bind_eq_some_iff.mp h
    obtain ⟨sane, total⟩ := ih later
    have here := count_of_paren first
    refine ⟨?_, ?_⟩
    · intro front isPrefix
      rcases List.prefix_cons_iff.mp isPrefix with rfl | ⟨more, rfl, shorter⟩
      · exact Nat.zero_le _
      · have inner := sane more shorter
        rw [← List.singleton_append, List.count_append, List.count_append]
        omega
    · rw [← List.singleton_append, List.count_append, List.count_append]
      omega

end Text

namespace Body

variable {body rest : Text} {depth : Nat} {terminated : Bool} {a : Char}

theorem paren_of_mark (opening : mark a ≠ .opening) (closing : mark a ≠ .closing) (n : Nat) :
    Text.paren n a = some n := by
  apply Text.paren_of_ne
  · rintro rfl
    exact opening rfl
  · rintro rfl
    exact closing rfl

/-- Without its quoted strings a body closes what it opens and what is open in front of it, unless
the text ends. -/
theorem climb_of_reads (reads : Reads depth body rest terminated) (n : Nat) :
    Text.climb (n + depth) (unquoted 0 body) = some (n + (scan depth 0 body).unclosed) ∧
      ((scan depth 0 body).unclosed ≠ 0 → rest = []) := by
  induction reads with
  | ended => exact ⟨rfl, fun _ => rfl⟩
  | stopped => exact ⟨rfl, fun left => absurd rfl left⟩
  | @quoted depth a content body rest terminated isQuote closed reads ih =>
    have found : closer a (content ++ a :: body) = some content.length := closed.closer_append body
    have skipped := unquoted_length (content ++ [a]) body
    have scanned := scan_quoted depth (content ++ [a]) body
    simp only [List.length_append, List.length_singleton, List.append_assoc,
      List.singleton_append] at skipped scanned
    simp only [unquoted, scan, isQuote, found, skipped, scanned]
    exact ih
  | @unclosed depth a body rest terminated isQuote found reads ih =>
    have alone := closer_eq_none_of_append found
    simp only [unquoted, scan, isQuote, alone]
    rw [Text.climb_cons, paren_of_mark (by simp [isQuote]) (by simp [isQuote])]
    exact ih
  | @opening depth a body rest terminated opens reads ih =>
    obtain rfl : a = '(' := eq_of_mark opens (.inr (.inl rfl))
    simp only [unquoted, scan, opens]
    exact ih
  | @closing depth a body rest terminated closes reads ih =>
    obtain rfl : a = ')' := eq_of_mark closes (.inr (.inr rfl))
    simp only [unquoted, scan, closes]
    exact ih
  | @letter depth a body rest terminated other reads ih =>
    have plain : unquoted 0 (a :: body) = a :: unquoted 0 body := by
      rcases other with other | other <;> simp [unquoted, other]
    have scanned : scan depth 0 (a :: body) = (scan depth 0 body).after 1 := by
      rcases other with other | other <;> simp [scan, other]
    have opening : mark a ≠ .opening := by rcases other with other | other <;> simp [other]
    have closing : mark a ≠ .closing := by rcases other with other | other <;> simp [other]
    rw [plain, scanned, Text.climb_cons, paren_of_mark opening closing]
    exact ih

end Body

namespace Token

variable {kind : Kind} {raw rest name body : Text} {call : Bool} {span : Span}

/-- The token without the closed quoted strings in the body of a feature. -/
def unquoted (token : Token) : Text :=
  match token.kind with
  | .feature _ =>
    match token.raw.dropWhile (!isSeparator ·) with
    | [] => token.raw
    | separator :: body =>
      token.raw.takeWhile (!isSeparator ·) ++ separator :: Body.unquoted 0 body
  | .lparen | .rparen | .not | .and | .or => token.raw

/-- Parentheses that the body of a feature leaves open. -/
def leftOpen (token : Token) : Nat :=
  match token.kind with
  | .feature _ => (bodyExtent token.raw).unclosed
  | .lparen | .rparen | .not | .and | .or => 0

/-- Parentheses that are open after the token, when `n` are open before it. -/
def climbs (n : Nat) (token : Token) : Option Nat :=
  match token.kind with
  | .lparen => some (n + 1)
  | .rparen => if n = 0 then none else some (n - 1)
  | .feature _ => some (n + token.leftOpen)
  | .not | .and | .or => some n

theorem climb_of_isSeparator (free : ∀ c ∈ name, isSeparator c = false) (n : Nat) :
    Text.climb n name = some n := by
  apply Text.climb_of_free
  intro c mem
  have letter := free c mem
  constructor
  · rintro rfl
    cases letter
  · rintro rfl
    cases letter

theorem dropWhile_of_free (free : ∀ c ∈ name, isSeparator c = false) :
    name.dropWhile (!isSeparator ·) = [] := by
  obtain ⟨-, after⟩ := split_name free (show ([] : Text).head?.all isSeparator = true from rfl)
  rwa [List.append_nil] at after

theorem split_body (free : ∀ c ∈ name, isSeparator c = false) (call : Bool) (body : Text) :
    (name ++ Feature.separator call :: body).takeWhile (!isSeparator ·) = name ∧
      (name ++ Feature.separator call :: body).dropWhile (!isSeparator ·) =
        Feature.separator call :: body :=
  split_name free (isSeparator_separator call)

theorem bodyExtent_of_body (free : ∀ c ∈ name, isSeparator c = false) :
    bodyExtent (name ++ Feature.separator call :: body) = Body.scan (bodyDepth call) 0 body := by
  rw [bodyExtent, (split_body free call body).2]
  cases call <;> rfl

theorem Lexed.climb_unquoted (lexed : Lexed kind raw rest) (span : Span) (n : Nat) :
    Text.climb n (unquoted ⟨kind, raw, span⟩) = climbs n ⟨kind, raw, span⟩ := by
  cases lexed with
  | opening => rfl
  | closing => cases n <;> rfl
  | keyword listed stops =>
    simp only [keywords, List.mem_cons, List.not_mem_nil, or_false, Prod.mk.injEq] at listed
    rcases listed with ⟨rfl, rfl⟩ | ⟨rfl, rfl⟩ | ⟨rfl, rfl⟩ <;> rfl
  | name is ends =>
    have none := dropWhile_of_free is.free
    simp only [unquoted, climbs, leftOpen, bodyExtent, none]
    exact climb_of_isSeparator is.free n
  | @body call name body rest terminated is reads =>
    obtain ⟨before, after⟩ := split_body is.free call body
    have opened : Text.paren n (Feature.separator call) = some (n + bodyDepth call) := by
      cases call <;> rfl
    simp only [unquoted, climbs, leftOpen, before, after, bodyExtent_of_body is.free]
    rw [Text.climb_append, climb_of_isSeparator is.free, Option.bind_some, Text.climb_cons, opened]
    exact (Body.climb_of_reads reads n).1

/-- Only the end of the text can come before a body has closed what it opened. -/
theorem Lexed.eq_nil_of_leftOpen (lexed : Lexed kind raw rest)
    (left : leftOpen ⟨kind, raw, span⟩ ≠ 0) : rest = [] := by
  cases lexed with
  | opening | closing => exact absurd rfl left
  | keyword listed stops =>
    simp only [keywords, List.mem_cons, List.not_mem_nil, or_false, Prod.mk.injEq] at listed
    rcases listed with ⟨rfl, rfl⟩ | ⟨rfl, rfl⟩ | ⟨rfl, rfl⟩ <;> exact absurd rfl left
  | name is ends =>
    simp [leftOpen, bodyExtent, dropWhile_of_free is.free] at left
  | body is reads =>
    simp only [leftOpen, bodyExtent_of_body is.free] at left
    exact (Body.climb_of_reads reads 0).2 left

end Token

namespace Text

/-- A text that starts at byte `n`, with its tokens unquoted. -/
def unquotedFrom (n : Nat) : List Token → Text → Text
  | [], t => t
  | token :: tokens, t =>
    let (gap, rest) := t.splitBytes (token.span.start - n)
    let (_, rest) := rest.splitBytes (token.span.stop - token.span.start)
    gap ++ token.unquoted ++ unquotedFrom token.span.stop tokens rest

/-- The text without the closed quoted strings in the bodies of its features. -/
def unquoted (t : Text) : Text := t.unquotedFrom 0 (tokenize t)

theorem climb_of_gap {gap : Text} (gaps : gap.all Token.isGap = true) (n : Nat) :
    climb n gap = some n := by
  apply climb_of_free
  intro c mem
  have isGap := List.all_eq_true.mp gaps c mem
  constructor
  · rintro rfl
    revert isGap
    decide
  · rintro rfl
    revert isGap
    decide

end Text

variable {n k : Nat} {t : Text} {tokens before after : List Token} {token : Token}

namespace Token

def climbAll (n : Nat) (tokens : List Token) : Option Nat := tokens.foldlM climbs n

theorem climbAll_cons (h : climbs n token = some k) :
    climbAll n (token :: tokens) = climbAll k tokens := by
  rw [climbAll, List.foldlM_cons, h]
  rfl

theorem climbAll_append (h : climbAll n before = some k) :
    climbAll n (before ++ after) = climbAll k after := by
  rw [climbAll] at h
  rw [climbAll, List.foldlM_append, h]
  rfl

/-- Parentheses that the bodies in these tokens leave open. -/
def leftOpenIn : List Token → Nat
  | [] => 0
  | token :: tokens => token.leftOpen + leftOpenIn tokens

theorem leftOpenIn_append (before after : List Token) :
    leftOpenIn (before ++ after) = leftOpenIn before + leftOpenIn after := by
  induction before with
  | nil => exact (Nat.zero_add _).symm
  | cons token before ih => simp only [List.cons_append, leftOpenIn, ih, Nat.add_assoc]

theorem leftOpenIn_eq_zero (closed : ∀ token ∈ tokens, token.leftOpen = 0) :
    leftOpenIn tokens = 0 := by
  induction tokens with
  | nil => rfl
  | cons token tokens ih =>
    rw [List.forall_mem_cons] at closed
    rw [leftOpenIn, closed.1, ih closed.2]

end Token

/-- The parser closes every level that it opens. -/
theorem Phrase.climbAll_tokens {r : Role} (p : Phrase r) (n : Nat) :
    Token.climbAll n p.tokens = some (n + Token.leftOpenIn p.tokens) := by
  induction p generalizing n with
  | feature f s => rfl
  | not s o ih =>
    have opens : Token.climbs n (s.token .not) = some n := rfl
    have same : Token.leftOpenIn (s.token .not :: o.tokens) = Token.leftOpenIn o.tokens :=
      Nat.zero_add _
    rw [tokens, same, Token.climbAll_cons opens, ih]
  | parens opening p closing ih =>
    have opens : Token.climbs n (opening.token .lparen) = some (n + 1) := rfl
    have closes : Token.climbAll (n + 1 + Token.leftOpenIn p.tokens) [closing.token .rparen] =
        some (n + Token.leftOpenIn p.tokens) := by
      rw [Nat.add_right_comm]
      rfl
    have same : Token.leftOpenIn (opening.token .lparen :: (p.tokens ++ [closing.token .rparen])) =
        Token.leftOpenIn p.tokens := by
      rw [Token.leftOpenIn, Token.leftOpenIn_append]
      exact Nat.zero_add _
    rw [tokens, same, Token.climbAll_cons opens, Token.climbAll_append (ih (n + 1)), closes]
  | single o ih => exact ih n
  | join o k s p iho ihp =>
    have connects (m : Nat) : Token.climbs m (s.token k.tokenKind) = some m := by
      cases k <;> rfl
    have closed : (s.token k.tokenKind).leftOpen = 0 := by
      cases k <;> rfl
    rw [tokens, Token.climbAll_append (iho n), Token.climbAll_cons (connects _), ihp,
      Token.leftOpenIn_append, Token.leftOpenIn, closed, Nat.zero_add, Nat.add_assoc]

theorem Cuts.climb_unquoted (cuts : Cuts n t tokens) (k : Nat) :
    Text.climb k (t.unquotedFrom n tokens) = Token.climbAll k tokens := by
  induction cuts generalizing k with
  | ended gaps => exact Text.climb_of_gap gaps k
  | @token n gap kind raw rest tokens gaps lexed _ ih =>
    have front := Text.splitBytes_width gap (raw ++ rest)
    have back := Text.splitBytes_width raw rest
    simp only [Text.unquotedFrom, Nat.add_sub_cancel_left, front, back]
    rw [Text.climb_append, Text.climb_append, Text.climb_of_gap gaps, Option.bind_some,
      lexed.climb_unquoted, Token.climbAll, List.foldlM_cons]
    exact Option.bind_congr fun j _ => ih j

theorem Cuts.ends_of_leftOpen (cuts : Cuts n t (before ++ token :: after))
    (left : token.leftOpen ≠ 0) : after = [] ∧ token.span.stop = n + t.width := by
  obtain ⟨passed, rest, whole, span, lexed, tail⟩ := cuts.exists_lexed
  obtain rfl := lexed.eq_nil_of_leftOpen left
  have ends : token.span.stop = n + t.width := by
    rw [span, whole, List.append_nil, Text.width_append, Nat.add_assoc]
  refine ⟨?_, ends⟩
  apply List.eq_nil_iff_forall_not_mem.mpr
  intro later mem
  have order := List.rel_of_pairwise_cons tail.pairwise_disjoint mem
  have inside := cuts.span_of_mem (List.mem_append_right _ (List.mem_cons_of_mem _ mem))
  omega

theorem Token.isFeature_of_leftOpen (left : token.leftOpen ≠ 0) : ∃ f, token.kind = .feature f := by
  unfold leftOpen at left
  split at left
  · exact ⟨_, ‹_›⟩
  all_goals exact absurd rfl left

namespace Condition

variable {c : Condition}

/-- In a condition that is read, with the closed quoted strings in the bodies of its features
deleted, no prefix closes more parentheses than it opens. As many are closed as are opened, but for
those that the body of the last feature leaves open at the end of the text. -/
theorem parse_balanced (accepted : parse t = .ok c) :
    let u := t.unquoted
    (∀ front, front <+: u → front.count ')' ≤ front.count '(') ∧
      ∃ before last, tokenize t = before ++ [last] ∧
        (∀ token ∈ before, token.leftOpen = 0) ∧
        u.count '(' = u.count ')' + last.leftOpen ∧
        (last.leftOpen ≠ 0 → (∃ f, last.kind = .feature f) ∧ last.span.stop = t.width) := by
  intro u
  obtain ⟨-, p, written, -, -⟩ := parse_eq_ok_iff.mp accepted
  have cuts := cuts_tokenize t
  have climbed : Text.climb 0 u = some (0 + Token.leftOpenIn (tokenize t)) := by
    have whole := p.climbAll_tokens 0
    rw [written] at whole
    exact (cuts.climb_unquoted 0).trans whole
  obtain ⟨sane, total⟩ := Text.count_of_climb climbed
  simp only [Nat.zero_add] at sane total
  obtain ⟨before, last, split⟩ : ∃ before last, tokenize t = before ++ [last] := by
    have nonempty : tokenize t ≠ [] := written ▸ p.tokens_ne_nil
    exact ⟨_, _, (List.dropLast_concat_getLast nonempty).symm⟩
  have closed : ∀ token ∈ before, token.leftOpen = 0 := by
    intro token mem
    obtain ⟨front, back, rfl⟩ := List.append_of_mem mem
    rw [split, List.append_assoc, List.cons_append] at cuts
    apply Classical.byContradiction
    intro left
    have ended := (cuts.ends_of_leftOpen left).1
    simp at ended
  refine ⟨sane, before, last, split, closed, ?_, ?_⟩
  · rw [split, Token.leftOpenIn_append, Token.leftOpenIn_eq_zero closed, Nat.zero_add] at total
    exact total.trans (Nat.add_comm _ _)
  · intro left
    rw [split] at cuts
    obtain ⟨-, ends⟩ := cuts.ends_of_leftOpen left
    rw [Nat.zero_add] at ends
    exact ⟨Token.isFeature_of_leftOpen left, ends⟩

/-- The quoted `)` is deleted, and the last call leaves two parentheses open. -/
theorem parse_balanced_open_calls :
    let t := "(b: \")\") and f(g(h".toList
    let u := Text.unquoted t
    u = "(b: ) and f(g(h".toList ∧
      (∃ c, parse t = .ok c) ∧
      (∀ front, front <+: u → front.count ')' ≤ front.count '(') ∧
      ∃ before last, tokenize t = before ++ [last] ∧ last.leftOpen = 2 ∧ last.span.stop = 18 := by
  intro t u
  let c : Condition := .group .all
    [.feature .declaration "b:\")\"".toList, .feature .function "f(g(h".toList]
  have accepted : parse t = .ok c := by decide +kernel
  have deleted : u = "(b: ) and f(g(h".toList := by decide +kernel
  obtain ⟨sane, before, last, split, -, total, ends⟩ := parse_balanced accepted
  have two : last.leftOpen = 2 := by
    have opened : (Text.unquoted t).count '(' = 3 := by decide +kernel
    have closed : (Text.unquoted t).count ')' = 1 := by decide +kernel
    omega
  have stop := (ends (by simp [two])).2
  exact ⟨deleted, ⟨c, accepted⟩, sane, before, last, split, two, stop⟩

/-- A call that is never closed is read. -/
theorem parse_of_open_call :
    let t := "selector(h2 > p".toList
    parse t = .ok (.feature .function "selector(h2>p".toList) ∧
      (Text.unquoted t).count '(' ≠ (Text.unquoted t).count ')' := by
  decide +kernel

end Condition

end FeatureQuery
