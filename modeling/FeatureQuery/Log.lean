import FeatureQuery.Text.Quoted
import FeatureQuery.Query

/-!
# Reports

What is reported while a query is built and asked, in order. Each step's records are a function of
its input alone, so a whole report is a concatenation. Throughout, `shown` are the characters that
quoted text shows as they are.
-/

namespace FeatureQuery

inductive Log.Severity where
  | trace
  | debug
  | warn
  deriving DecidableEq, Repr

structure Log.Record where
  severity : Log.Severity
  message : Text
  deriving DecidableEq, Repr

def Feature.Kind.termName : Feature.Kind → Text
  | .declaration => "Declaration".toList
  | .function => "Function".toList
  | .invalid => "InvalidAtom".toList

def Junction.termName : Junction → Text
  | .all => "And".toList
  | .any => "Or".toList
  | .mixed => "InvalidGroup".toList

variable (shown : Char → Bool)

namespace Condition

mutual

/-- A condition as a term. -/
def term : Condition → Text
  | .feature kind key => kind.termName ++ '(' :: Text.quoted shown key ++ [')']
  | .not c => "Not(".toList ++ c.term ++ [')']
  | .group j cs => j.termName ++ "([".toList ++ terms cs ++ "])".toList

def terms : List Condition → Text
  | [] => []
  | [c] => c.term
  | c :: cs => c.term ++ ", ".toList ++ terms cs

end

end Condition

namespace Log

def ofToken (token : Token) : Record :=
  ⟨.trace, "token ".toList ++ Text.quoted shown token.raw ++ " at ".toList ++
    Text.ofNat token.span.start ++ "..".toList ++ Text.ofNat token.span.stop⟩

def ofTokenize (t : Text) : List Record :=
  let tokens := tokenize t
  tokens.map (ofToken shown) ++
    [⟨.debug, "tokenized ".toList ++ Text.ofNat t.width ++ " bytes into ".toList ++
      Text.ofNat tokens.length ++ " tokens".toList⟩]

def ofParse (t : Text) : List Record :=
  if Text.allBlank t then []
  else ofTokenize shown t ++
    match Condition.parse t with
    | .ok c =>
      [⟨.debug, "parsed ".toList ++ Text.quoted shown t ++ " into ".toList ++ c.term shown⟩]
    | .error _ => []

def ofBuild (silent : Bool) (t : Text) : List Record :=
  (match Query.conditionText t with
    | .ok condition => ofParse shown condition
    | .error _ => []) ++
  match Query.read t with
  | .ok _ => []
  | .error e =>
    if silent then
      [⟨.warn, "ignoring invalid @supports condition ".toList ++ Text.quoted shown t ++
        ": ".toList ++ e.message⟩]
    else []

def ofBool (b : Bool) : Text := if b then "true".toList else "false".toList

def ofCheck (q : Query) (feature : Text) : List Record :=
  match q.outcomes feature with
  | .ok s =>
    [⟨.debug, "feature ".toList ++ Text.quoted shown (Key.normalize feature) ++
      " reached Outcomes \x7b pass: ".toList ++ ofBool s.pass ++ ", fail: ".toList ++
      ofBool s.fail ++ " \x7d".toList⟩]
  | .error e =>
    if q.silent then [⟨.debug, "ignoring feature query error: ".toList ++ e.message⟩] else []

def ofQuery (silent : Bool) (t : Text) (features : List Text) : List Record :=
  ofBuild shown silent t ++
    match Query.build silent t with
    | .ok q => features.flatMap (ofCheck shown q)
    | .error _ => []

end Log

end FeatureQuery
