import FeatureQuery.Config.Source
import FeatureQuery.Proofs.Grammar

/-!
# Settings by their members

An object of settings is read from left to right, yet what it says does not hang on the order of its
members: each of them sets a field, or is passed over. A field that is set twice is refused wherever
the two stand.
-/

namespace FeatureQuery

open Json Json.Grammar

namespace Json.Skip

/-- From `s` the lexemes are passed over; what is due then is `next`. -/
inductive Steps : Skip → List Lexeme → Option Skip → Prop
  | last {s l next} : step s l = .ok next → Steps s [l] next
  | cons {s l s' ls next} : step s l = .ok (some s') → Steps s' ls next → Steps s (l :: ls) next

variable {s s' : Skip} {next : Option Skip} {b : Bracket} {around : List Bracket} {l : Lexeme}
  {front ls : List Lexeme} {parts : List (List Text)}

/-- What is due in place of an item or a member. -/
def entry : Bracket → List Bracket → Skip
  | .array, around => .value (.array :: around)
  | .object, around => .key around

theorem step_first (other : l ≠ .closing b) (around : List Bracket) :
    step (.first b around) l = step (entry b around) l := by
  cases b <;> simp [step, entry]

theorem step_comma (b : Bracket) (around : List Bracket) :
    step (.more b around) .comma = .ok (some (entry b around)) := by
  cases b <;> rfl

theorem step_first_closing (b : Bracket) (around : List Bracket) :
    step (.first b around) (.closing b) = .ok (complete around) := by
  cases b <;> rfl

theorem step_more_closing (b : Bracket) (around : List Bracket) :
    step (.more b around) (.closing b) = .ok (complete around) := by
  cases b <;> rfl

theorem Steps.append (first : Steps s front (some s')) (later : Steps s' ls next) :
    Steps s (front ++ ls) next := by
  generalize reached : some s' = mid at first
  induction first with
  | last stepped =>
    subst reached
    exact .cons stepped later
  | cons stepped _ ih => exact .cons stepped (ih reached)

/-- An item or a member does not start with a closing bracket. -/
theorem Steps.first (steps : Steps (entry b around) ls next) : Steps (.first b around) ls next := by
  have other {l : Lexeme} {due : Option Skip} (stepped : step (entry b around) l = .ok due) :
      step (.first b around) l = .ok due := by
    rwa [step_first]
    rintro rfl
    cases b <;> cases stepped
  cases steps with
  | last stepped => exact .last (other stepped)
  | cons stepped later => exact .cons (other stepped) later

theorem steps_rest
    (each : ∀ part ∈ parts, Steps (entry b around) (part.map lexeme) (some (.more b around))) :
    Steps (.more b around) ((parts.flatMap ([','] :: ·)).map lexeme ++ [.closing b])
      (complete around) := by
  have comma : lexeme [','] = .comma := (reads_mark rfl rfl).lexeme_eq
  induction parts with
  | nil => exact .last (step_more_closing b around)
  | cons part parts ih =>
    have later := ih fun other mem => each other (List.mem_cons_of_mem part mem)
    have whole := Steps.cons (step_comma b around) ((each part List.mem_cons_self).append later)
    simpa [comma] using whole

theorem steps_bracketed {opening closing : Text} (opened : lexeme opening = .opening b)
    (closed : lexeme closing = .closing b)
    (each : ∀ part ∈ parts, Steps (entry b around) (part.map lexeme) (some (.more b around))) :
    Steps (.value around) ((opening :: (separated parts ++ [closing])).map lexeme)
      (complete around) := by
  have start : step (.value around) (.opening b) = .ok (some (.first b around)) := rfl
  rw [List.map_cons, List.map_append, List.map_cons, List.map_nil, opened, closed]
  cases parts with
  | nil => exact .cons start (.last (step_first_closing b around))
  | cons part parts =>
    have first := (each part List.mem_cons_self).first
    have later := steps_rest fun other mem => each other (List.mem_cons_of_mem part mem)
    rw [separated, List.map_append, List.append_assoc]
    exact .cons start (first.append later)

theorem steps_member {m : Member} (key : IsString m.key) (value : Steps (.value (.object :: around))
    (m.value.map lexeme) (some (.more .object around))) :
    Steps (.key around) (m.tokens.map lexeme) (some (.more .object around)) := by
  obtain ⟨pieces, reads⟩ := reads_string key
  have colon : lexeme [':'] = .colon := (reads_mark rfl rfl).lexeme_eq
  rw [Member.tokens, List.map_cons, List.map_cons, reads.lexeme_eq, colon]
  exact .cons rfl (.cons rfl value)

/-- A value is passed over, whatever is open around it. -/
theorem steps_value {tokens : List Text} (value : IsValue tokens) (around : List Bracket) :
    Steps (.value around) (tokens.map lexeme) (complete around) := by
  induction value generalizing around with
  | word word =>
    obtain ⟨found, reads⟩ := reads_word word
    rw [List.map_singleton, reads.lexeme_eq]
    exact .last rfl
  | number number =>
    obtain ⟨n, reads⟩ := reads_number number
    rw [List.map_singleton, reads.lexeme_eq]
    exact .last rfl
  | string string =>
    obtain ⟨pieces, reads⟩ := reads_string string
    rw [List.map_singleton, reads.lexeme_eq]
    exact .last rfl
  | array _ ih =>
    apply steps_bracketed (reads_mark rfl rfl).lexeme_eq (reads_mark rfl rfl).lexeme_eq
    intro part mem
    exact ih part mem _
  | object keys _ ih =>
    apply steps_bracketed (reads_mark rfl rfl).lexeme_eq (reads_mark rfl rfl).lexeme_eq
    intro part mem
    obtain ⟨m, listed, rfl⟩ := List.mem_map.mp mem
    exact steps_member (keys m listed) (ih m listed _)

end Json.Skip


namespace Config

/-- The text of the key of a member, when it has one. -/
def name? (m : Member) : Option Text :=
  match lexeme m.key with
  | .string s => s.text.toOption
  | _ => none

/-- What a member changes: a field, with the lexeme that it is set to, or nothing. -/
def change? (m : Member) : Option (Option (Field × Lexeme)) := do
  match Field.ofName? (← name? m) with
  | none => some none
  | some f => return some (f, lexeme (← m.value.head?))

/-- The stage that passing over a value leads to. -/
def Stage.ofSkip : Option Skip → Stage
  | some s => .unknown s
  | none => .member

/-- What a field is set to. -/
inductive Setting where
  | silent (flag : Bool)
  | historyFile (file : Option Text)

def Setting.field : Setting → Field
  | .silent _ => .silent
  | .historyFile _ => .historyFile

namespace Draft

variable {d d' : Draft} {l : Lexeme} {ls : List Lexeme} {m n : Member} {members : List Member}

theorem run_cons (stepped : d.step l = .ok d') (ls : List Lexeme) :
    d.run (l :: ls) = d'.run ls := by
  rw [run, stepped]

theorem run_skip {s : Skip} {next : Option Skip} (stepped : s.step l = .ok next) (d : Draft)
    (ls : List Lexeme) :
    (d.await (.unknown s)).run (l :: ls) = (d.await (.ofSkip next)).run ls := by
  apply run_cons
  show (s.step l).map _ = _
  rw [stepped]
  cases next <;> rfl

theorem run_steps {s : Skip} {next : Option Skip} (steps : s.Steps ls next) (d : Draft)
    (rest : List Lexeme) :
    (d.await (.unknown s)).run (ls ++ rest) = (d.await (.ofSkip next)).run rest := by
  induction steps with
  | last stepped => exact run_skip stepped d rest
  | cons stepped _ ih =>
    rw [List.cons_append, run_skip stepped]
    exact ih

theorem set_await (f : Field) (l : Lexeme) (d : Draft) (stage : Stage) :
    (d.await stage).set f l = (d.set f l).map (·.await stage) := by
  unfold set
  split
  · rfl
  · rfl
  · rename_i s
    cases s.text <;> rfl
  · rfl

def assign (d : Draft) : Setting → Draft
  | .silent flag => { d with silent := some flag }
  | .historyFile file => { d with historyFile := some file }

/-- Sets a field, unless it is known already. -/
def enter (f : Field) (l : Lexeme) (d : Draft) : Option Draft :=
  if d.known f then none else (d.set f l).toOption

/-- What a member makes of a draft: it sets a field, or it is passed over. -/
def put (d : Draft) (m : Member) : Option Draft := do
  match ← change? m with
  | none => some d
  | some (f, l) => d.enter f l

/-- A lexeme sets the field in every draft alike, or in none. -/
theorem set_cases (f : Field) (l : Lexeme) :
    (∃ v : Setting, v.field = f ∧ ∀ d : Draft, d.set f l = .ok (d.assign v)) ∨
      ∀ d : Draft, (d.set f l).toOption = none := by
  cases f with
  | silent =>
    rcases l with b | b | _ | _ | (fault | null | flag) | found | s | _
    case literal.ok.bool => exact .inl ⟨.silent flag, rfl, fun _ => rfl⟩
    all_goals exact .inr fun _ => rfl
  | historyFile =>
    rcases l with b | b | _ | _ | (fault | null | flag) | found | s | _
    case literal.ok.null => exact .inl ⟨.historyFile none, rfl, fun _ => rfl⟩
    case string =>
      cases read : s.text with
      | ok t => exact .inl ⟨.historyFile (some t), rfl, fun d => by rw [set, read]; rfl⟩
      | error fault => exact .inr fun d => by rw [set, read]; rfl
    all_goals exact .inr fun _ => rfl

theorem known_assign (d : Draft) (v : Setting) (f : Field) :
    (d.assign v).known f = (decide (v.field = f) || d.known f) := by
  cases v <;> cases f <;> rfl

theorem assign_comm {v w : Setting} (differ : v.field ≠ w.field) (d : Draft) :
    (d.assign v).assign w = (d.assign w).assign v := by
  cases v <;> cases w <;> first | rfl | exact absurd rfl differ

theorem enter_of_refused {f : Field} (refused : ∀ d : Draft, (d.set f l).toOption = none) :
    enter f l = fun _ => none := by
  funext d
  rw [enter, refused]
  split <;> rfl

/-- Which field is set first does not matter, and one that is set twice is refused. -/
theorem enter_comm (f g : Field) (l k : Lexeme) (d : Draft) :
    (d.enter f l).bind (enter g k) = (d.enter g k).bind (enter f l) := by
  rcases set_cases f l with ⟨v, rfl, first⟩ | refused
  · rcases set_cases g k with ⟨w, rfl, second⟩ | refused
    · by_cases same : v.field = w.field
      · rw [same] at first ⊢
        by_cases known : d.known w.field <;>
          simp [enter, first, second, same, known, known_assign, Except.toOption]
      · by_cases known : d.known v.field <;> by_cases known' : d.known w.field <;>
          simp [enter, first, second, known, known', known_assign, same, Ne.symm same,
            assign_comm same, Except.toOption]
    · simp [enter_of_refused refused]
  · simp [enter_of_refused refused]

theorem put_comm (d : Draft) (m n : Member) :
    (d.put m).bind (·.put n) = (d.put n).bind (·.put m) := by
  unfold put
  rcases change? m with _ | _ | ⟨f, l⟩ <;> rcases change? n with _ | _ | ⟨g, k⟩
  case some.some.some.some => exact enter_comm f g l k d
  all_goals simp

/-- The order of the members does not matter. -/
theorem foldlM_put_perm {members others : List Member} (same : members.Perm others) (d : Draft) :
    members.foldlM put d = others.foldlM put d := by
  induction same generalizing d with
  | nil => rfl
  | cons m _ ih => simp only [List.foldlM_cons, ih]
  | swap m n members =>
    have swapped := put_comm d n m
    simp only [List.foldlM_cons, Option.bind_eq_bind, ← Option.bind_assoc, swapped]
  | trans _ _ first later => rw [first, later]

theorem foldlM_put_of_unchanged (unchanged : ∀ m ∈ members, change? m = some none) (d : Draft) :
    members.foldlM put d = some d := by
  induction members with
  | nil => rfl
  | cons m members ih =>
    have first : d.put m = some d := by
      rw [put, unchanged m List.mem_cons_self]
      rfl
    have later := ih fun n mem => unchanged n (List.mem_cons_of_mem m mem)
    rw [List.foldlM_cons, first]
    exact later

/-- Only a value of one token sets a field. -/
theorem exists_head_of_isValue {tokens : List Text} (value : IsValue tokens) :
    ∃ token more, tokens = token :: more ∧ (more = [] ∨ ∃ b, lexeme token = .opening b) := by
  cases value with
  | @word token _ => exact ⟨token, [], rfl, .inl rfl⟩
  | @number token _ => exact ⟨token, [], rfl, .inl rfl⟩
  | @string token _ => exact ⟨token, [], rfl, .inl rfl⟩
  | array _ => exact ⟨_, _, rfl, .inr ⟨.array, (reads_mark rfl rfl).lexeme_eq⟩⟩
  | object _ _ => exact ⟨_, _, rfl, .inr ⟨.object, (reads_mark rfl rfl).lexeme_eq⟩⟩

/-- Behind an unknown key a value is passed over. -/
theorem run_passed {tokens : List Text} (value : IsValue tokens) (d : Draft) (ls : List Lexeme) :
    (d.await (.colon none)).run (.colon :: (tokens.map lexeme ++ ls)) =
      (d.await .member).run ls := by
  have after : (d.await (.colon none)).step .colon = .ok (d.await (.unknown (.value []))) := rfl
  rw [run_cons after, run_steps (Skip.steps_value value [])]
  rfl

/-- Behind a known key a value sets the field, if it can. -/
theorem run_set {f : Field} {token : Text} {more : List Text} (value : IsValue (token :: more))
    (d : Draft) (ls : List Lexeme) :
    ((d.await (.colon (some f))).run (.colon :: ((token :: more).map lexeme ++ ls))).toOption =
      (d.set f (lexeme token)).toOption.bind fun d' => ((d'.await .member).run ls).toOption := by
  have after : (d.await (.colon (some f))).step .colon = .ok (d.await (.value f .object)) := rfl
  have stepped : (d.await (.value f .object)).step (lexeme token) =
      (d.set f (lexeme token)).map (·.await .member) := by
    show ((d.await _).set f _).map _ = _
    rw [set_await]
    cases d.set f (lexeme token) <;> rfl
  rw [run_cons after, List.map_cons, List.cons_append, run, stepped]
  cases settled : d.set f (lexeme token) with
  | error fault => rfl
  | ok d' =>
    obtain ⟨_, _, split, single | ⟨b, opened⟩⟩ := exists_head_of_isValue value
    · obtain ⟨rfl, rfl⟩ := List.cons.inj split
      rw [single]
      rfl
    · obtain ⟨rfl, rfl⟩ := List.cons.inj split
      rw [opened] at settled
      cases f <;> cases settled

theorem step_key {s : Escaped} {name : Text} (read : s.text = .ok name) (d : Draft) :
    (d.await .key).step (.string s) = if (Field.ofName? name).any d.known then .error .unfit
      else .ok (d.await (.colon (Field.ofName? name))) := by
  show (d.await .key).readKey (.string s) = _
  rw [readKey, read]
  rfl

theorem step_key_of_error {s : Escaped} {fault : Fault} (read : s.text = .error fault)
    (d : Draft) : (d.await .key).step (.string s) = .error fault := by
  show (d.await .key).readKey (.string s) = _
  rw [readKey, read]

/-- Where a member is due, it does what it does to the draft, and is over. -/
theorem run_member (key : IsString m.key) (value : IsValue m.value) (d : Draft)
    (ls : List Lexeme) : ((d.await .key).run (m.tokens.map lexeme ++ ls)).toOption =
      (d.put m).bind fun d' => ((d'.await .member).run ls).toOption := by
  obtain ⟨pieces, reads⟩ := reads_string key
  have first := reads.lexeme_eq
  have colon : lexeme [':'] = .colon := (reads_mark rfl rfl).lexeme_eq
  rw [Member.tokens, List.map_cons, List.map_cons, first, colon, List.cons_append,
    List.cons_append, run, put, change?, name?, first]
  cases read : Escaped.text ⟨pieces, none⟩ with
  | error fault =>
    rw [step_key_of_error read]
    simp [read, Except.toOption]
  | ok name =>
    rw [step_key read]
    cases known : Field.ofName? name with
    | none => simp [read, known, run_passed value, Except.toOption]
    | some f =>
      obtain ⟨token, more, split, -⟩ := exists_head_of_isValue value
      rw [split] at value ⊢
      by_cases twice : d.known f = true
      · simp [read, known, enter, twice, Except.toOption]
      · have later := run_set (f := f) value d ls
        rw [Bool.not_eq_true] at twice
        simpa [read, known, enter, twice, Except.toOption] using later

theorem run_rest (each : ∀ m ∈ members, m.IsMember) (d : Draft) :
    ((d.await .member).run (((members.map Member.tokens).flatMap ([','] :: ·)).map lexeme ++
      [.closing .object])).toOption = (members.foldlM put d).map config := by
  have comma : lexeme [','] = .comma := (reads_mark rfl rfl).lexeme_eq
  induction members generalizing d with
  | nil => rfl
  | cons m members ih =>
    obtain ⟨key, value⟩ := each m List.mem_cons_self
    have later := ih fun n mem => each n (List.mem_cons_of_mem m mem)
    have due : (d.await .member).step .comma = .ok (d.await .key) := rfl
    rw [List.map_cons, List.flatMap_cons, List.cons_append, List.map_cons, List.map_append, comma,
      List.cons_append, List.append_assoc, run_cons due, run_member key value, List.foldlM_cons]
    simp only [later]
    cases d.put m <;> rfl

/-- In front of a key it does not matter whether it is the first. -/
theorem run_firstKey (key : IsString m.key) (d : Draft) (ls : List Lexeme) :
    (d.await .firstKey).run (m.tokens.map lexeme ++ ls) =
      (d.await .key).run (m.tokens.map lexeme ++ ls) := by
  obtain ⟨pieces, reads⟩ := reads_string key
  rw [Member.tokens, List.map_cons, reads.lexeme_eq]
  rfl

/-- An object is read member by member. -/
theorem run_object (each : ∀ m ∈ members, m.IsMember) :
    (start.run ((objectTokens members).map lexeme)).toOption =
      (members.foldlM put start).map config := by
  have opened : lexeme ['\x7b'] = .opening .object := (reads_mark rfl rfl).lexeme_eq
  have closed : lexeme ['\x7d'] = .closing .object := (reads_mark rfl rfl).lexeme_eq
  have started : start.step (.opening .object) = .ok (start.await .firstKey) := rfl
  rw [objectTokens, List.map_cons, List.map_append, opened, run_cons started, List.map_singleton,
    closed]
  cases members with
  | nil => rfl
  | cons m members =>
    obtain ⟨key, value⟩ := each m List.mem_cons_self
    have later := run_rest (fun n mem => each n (List.mem_cons_of_mem m mem))
    rw [List.map_cons, separated, List.map_append, List.append_assoc, run_firstKey key,
      run_member key value, List.foldlM_cons]
    simp only [later]
    cases start.put m <;> rfl

end Draft

theorem parse_object {members : List Member} {t : Text} (object : IsObject members t) :
    (parse t).toOption = (members.foldlM Draft.put Draft.start).map Draft.config := by
  obtain ⟨each, spaced⟩ := object
  have value : IsValue (objectTokens members) :=
    .object (fun m mem => (each m mem).1) fun m mem => (each m mem).2
  rw [parse, value.readable.lexemes_spaced spaced]
  exact Draft.run_object each

/-- A file that holds a text. -/
def Source.text (t : Text) : Source := .file (String.ofList t).toUTF8

theorem load_text_eq_ok_iff (name : Text) {t : Text} {config : Config} :
    load name (.text t) = .ok config ↔ (parse t).toOption = some config := by
  have valid : String.fromUTF8? (String.ofList t).toUTF8 = some (String.ofList t) :=
    dif_pos (String.ofList t).isValidUTF8
  have loaded : load name (.text t) = (parse t).mapError .parse := by
    rw [Source.text, load, valid]
    show (parse (String.ofList t).toList).mapError _ = _
    rw [String.toList_ofList]
  rw [loaded]
  cases parse t with
  | ok found => constructor <;> intro same <;> cases same <;> rfl
  | error fault => constructor <;> intro same <;> cases same

/-- A member with the name of no field. -/
def Unknown (m : Member) : Prop :=
  IsValue m.value ∧ ∃ name, Spells m.key name ∧ name ≠ "silent".toList ∧
    name ≠ "history_file".toList

theorem change?_of_unknown {m : Member} (unknown : Unknown m) : change? m = some none := by
  obtain ⟨-, name, ⟨pieces, body, written, denoted, split⟩, silent, historyFile⟩ := unknown
  have named : name? m = some name := by
    rw [name?, split, (reads_quote written).lexeme_eq]
    simp [Escaped.text, Escaped.decode_denotes denoted, Except.toOption]
  have field : Field.ofName? name = none := by
    rw [Field.ofName?, if_neg silent, if_neg historyFile]
  simp [change?, named, field]

/-- Members in another order, unknown ones among them as often as one likes, and other spaces: the
same settings are had, or none. -/
theorem load_rearranged {members extra rearranged : List Member} {t t' : Text}
    (object : IsObject members t) (unknown : ∀ m ∈ extra, Unknown m)
    (same : rearranged.Perm (members ++ extra)) (spaced : Spaced (objectTokens rearranged) t')
    (name name' : Text) (config : Config) :
    load name (.text t) = .ok config ↔ load name' (.text t') = .ok config := by
  have object' : IsObject rearranged t' := by
    refine ⟨?_, spaced⟩
    intro m mem
    rcases List.mem_append.mp (same.mem_iff.mp mem) with mem | mem
    · exact object.1 m mem
    · obtain ⟨value, _, spelled, -⟩ := unknown m mem
      exact ⟨spelled.isString, value⟩
  have passed (d : Draft) : extra.foldlM Draft.put d = some d :=
    Draft.foldlM_put_of_unchanged (fun m mem => change?_of_unknown (unknown m mem)) d
  have read : rearranged.foldlM Draft.put Draft.start = members.foldlM Draft.put Draft.start := by
    rw [Draft.foldlM_put_perm same, List.foldlM_append]
    cases members.foldlM Draft.put Draft.start with
    | none => rfl
    | some d => exact passed d
  rw [load_text_eq_ok_iff, load_text_eq_ok_iff, parse_object object, parse_object object', read]

/-- A known key and unknown ones with escapes in them, among these the halves of a pair and one half
alone, an unknown name that starts like a known one, a value in which the known name comes again
with a number that no double holds, and members that come twice. -/
theorem load_rearranged_nested :
    let flag : Member := ⟨quote "silent".toList, ["true".toList]⟩
    let file : Member := ⟨quote ("history_fil".toList ++ "\\u0065".toList), [quote ['h']]⟩
    let lone : Member := ⟨quote "silent".toList, [quote "\\ud800".toList]⟩
    let other : Member := ⟨quote ("silent".toList ++ "\\uD83D\\uDE00".toList),
      arrayTokens [["-1.5E+999".toList], objectTokens [lone]]⟩
    let t := "\x7b\"silent\":true,\"history_fil\\u0065\":\"h\"\x7d".toList
    let t' := (" \x7b\"silent\\uD83D\\uDE00\": [-1.5E+999,\x7b \"silent\":\"\\ud800\"\x7d ],\t\n" ++
      "\"history_fil\\u0065\" :\"h\",\"silent\\uD83D\\uDE00\":[-1.5E+999 ,\x7b" ++
      "\"silent\":\"\\ud800\"\x7d],\"silent\":true\r\n\x7d\n").toList
    (IsObject [flag, file] t ∧ (∀ m ∈ [other, other], Unknown m) ∧
      [other, file, other, flag].Perm ([flag, file] ++ [other, other]) ∧
      Spaced (objectTokens [other, file, other, flag]) t') ∧
      load [] (.text t) = .ok ⟨true, some "h".toList⟩ ∧
      load [] (.text t') = .ok ⟨true, some "h".toList⟩ := by
  intro flag file lone other t t'
  have plain {t : Text}
      (solid : t.all (fun c => c ≠ '"' ∧ c ≠ '\\' ∧ 0x20 ≤ c.toNat) = true) :
      IsString (quote t) := ⟨_, t, writes_plain solid, rfl⟩
  have letter : Writes [.unit 0x65] "\\u0065".toList :=
    .unit (i := 0) (j := 0) (k := 6) (l := 5) (by decide) (by decide) (by decide) (by decide) .nil
  have fileKey : IsString file.key := ⟨_, _, (writes_plain (by decide)).append letter, rfl⟩
  have member : ∀ m ∈ [flag, file], m.IsMember := by
    simp only [List.forall_mem_cons]
    refine ⟨⟨plain ?_, .word (.inr (.inl rfl))⟩, ⟨fileKey, .string (plain ?_)⟩, nofun⟩
    · decide
    · decide
  have object : IsObject [flag, file] t := ⟨member, spaced_of_isSpaced (by decide)⟩
  have loneString : IsString (quote "\\ud800".toList) :=
    ⟨_, _, .unit (i := 13) (j := 8) (k := 0) (l := 0) (by decide) (by decide) (by decide)
      (by decide) .nil, rfl⟩
  have number : IsNumber "-1.5E+999".toList := by
    refine ⟨['-'], ['1'], ".5".toList, "E+999".toList, .inr rfl, ?_, ?_, ?_, rfl⟩
    · exact .inr ⟨⟨by simp, by simp⟩, by simp⟩
    · exact .inr ⟨['5'], ⟨by simp, by simp⟩, rfl⟩
    · exact .inr ⟨'E', ['+'], "999".toList, .inr rfl, .inr (.inl rfl), ⟨by simp, by simp⟩, rfl⟩
  have loneValue : IsValue (objectTokens [lone]) := by
    refine .object ?_ ?_ <;> simp only [List.forall_mem_singleton]
    · exact plain (by decide)
    · exact .string loneString
  have halves : Writes [.unit 0xD83D, .unit 0xDE00] "\\uD83D\\uDE00".toList :=
    .unit (i := 13) (j := 8) (k := 3) (l := 13) (by decide) (by decide) (by decide) (by decide)
      (.unit (i := 13) (j := 14) (k := 0) (l := 0) (by decide) (by decide) (by decide) (by decide)
        .nil)
  have pair : Denotes [.unit 0xD83D, .unit 0xDE00] [.ofNat 0x1F600] :=
    .pair (by decide) (by decide) (by decide) (by decide) .nil
  have spelled : Spells other.key ("silent".toList ++ [.ofNat 0x1F600]) :=
    ⟨_, _, (writes_plain (by decide)).append halves, denotes_append _ pair, rfl⟩
  have unknown : Unknown other := by
    refine ⟨.array ?_, _, spelled, by decide, by decide⟩
    simp only [List.forall_mem_cons]
    exact ⟨.number number, loneValue, nofun⟩
  have twice : ∀ m ∈ [other, other], Unknown m := by simp [unknown]
  have same : [other, file, other, flag].Perm ([flag, file] ++ [other, other]) := by decide
  have spaced : Spaced (objectTokens [other, file, other, flag]) t' :=
    spaced_of_isSpaced (by decide +kernel)
  have first : load [] (.text t) = .ok ⟨true, some "h".toList⟩ := by decide +kernel
  have second := (load_rearranged object twice same spaced [] [] _).mp first
  exact ⟨⟨object, twice, same, spaced⟩, first, second⟩

end Config

end FeatureQuery
