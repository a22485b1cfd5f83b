import FeatureQuery.Token

/-!
# Listing tokens

One line for each token: its span, its kind and its text, in columns.
-/

namespace FeatureQuery

def Feature.Kind.name : Feature.Kind → Text
  | .declaration => "Declaration".toList
  | .function => "Function".toList
  | .invalid => "Invalid".toList

namespace Token

def Kind.name : Token.Kind → Text
  | .lparen => "LParen".toList
  | .rparen => "RParen".toList
  | .not => "Not".toList
  | .and => "And".toList
  | .or => "Or".toList
  | .feature f => f.kind.name

def listing (token : Token) : Text :=
  Text.padStart 4 (Text.ofNat token.span.start) ++ "..".toList ++
    Text.padEnd 4 (Text.ofNat token.span.stop) ++ ' ' ::
    Text.padEnd 12 token.kind.name ++ ' ' :: token.raw

end Token

end FeatureQuery
