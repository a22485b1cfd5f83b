import FeatureQuery.Json.Value
import FeatureQuery.Condition

/-!
# Conditions as JSON

A condition is a record of its kind and its content. An unrecognised feature and a mixed level
share the tag `invalid`; the one holds a string and the other an array.
-/

namespace FeatureQuery

def Feature.Kind.tag : Feature.Kind → Text
  | .declaration => "declaration".toList
  | .function => "function".toList
  | .invalid => "invalid".toList

def Junction.tag : Junction → Text
  | .all => "and".toList
  | .any => "or".toList
  | .mixed => "invalid".toList

namespace Condition

mutual

def document : Condition → Json.Value
  | .feature kind key => .record kind.tag (.string key)
  | .not c => .record "not".toList c.document
  | .group j cs => .record j.tag (.array (documents cs))

def documents : List Condition → List Json.Value
  | [] => []
  | c :: cs => c.document :: documents cs

end

theorem documents_eq_map (cs : List Condition) : documents cs = cs.map document := by
  induction cs with
  | nil => rfl
  | cons c cs ih => rw [documents, ih, List.map_cons]

def compact (c : Condition) : Text := c.document.compact

def indented (c : Condition) : Text := c.document.indented 0

end Condition

end FeatureQuery
