import FeatureQuery.Config.Reader

/-!
# Loading settings

What is found under the name of a settings file, and why it may not do.
-/

namespace FeatureQuery.Config

inductive Source where
  | missing
  | directory
  | file (bytes : ByteArray)

inductive ReadFault where
  | directory
  | notUtf8
  deriving DecidableEq, Repr

inductive LoadError where
  | notFound (name : Text)
  | read (fault : ReadFault)
  | parse (fault : Json.Fault)
  deriving DecidableEq, Repr

def LoadError.notFoundMessage (name : Text) : Text := "配置文件不存在: ".toList ++ name

def load (name : Text) : Source → Except LoadError Config
  | .missing => .error (.notFound name)
  | .directory => .error (.read .directory)
  | .file bytes =>
    match String.fromUTF8? bytes with
    | none => .error (.read .notUtf8)
    | some s => (parse s.toList).mapError .parse

/-- The settings of a source, or the defaults when they cannot be had. -/
def loadOrDefault (name : Text) (source : Source) : Config :=
  match load name source with
  | .ok config => config
  | .error _ => default

end FeatureQuery.Config
