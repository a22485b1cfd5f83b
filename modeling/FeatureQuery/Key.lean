import FeatureQuery.Text.Blank
import FeatureQuery.Text.Lowercase

/-!
# Keys

Two spellings of a feature ask for the same thing when they have the same key: the text without
its blanks, in lowercase.
-/

namespace FeatureQuery

namespace Key

def normalize (t : Text) : Text := Text.lower (t.filter (!Text.isBlank ·))

@[simp] theorem normalize_nil : normalize [] = [] := rfl

@[simp] theorem normalize_append (s t : Text) :
    normalize (s ++ t) = normalize s ++ normalize t := by
  simp [normalize]

end Key

end FeatureQuery
