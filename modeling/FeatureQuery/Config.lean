import FeatureQuery.Text.Basic

/-!
# Settings
-/

namespace FeatureQuery

structure Config where
  /-- Bad conditions and features are passed over. -/
  silent : Bool
  /-- Where the lines of a session are kept. -/
  historyFile : Option Text
  deriving DecidableEq, Repr

namespace Config

def default : Config := ⟨false, none⟩

/-- The file that settings are loaded from. -/
def fileName : Text := "supports_query.json".toList

end Config

end FeatureQuery
