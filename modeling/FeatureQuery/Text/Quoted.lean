import FeatureQuery.Text.Basic

/-!
# Quoted text in reports

Text in double quotes, with escapes for the characters that would break a line of a report. Which
of the other characters are shown as they are depends on the version of Unicode and is left open.
-/

namespace FeatureQuery.Text

def escape (shown : Char → Bool) (c : Char) : Text :=
  match c with
  | '"' => ['\\', '"']
  | '\\' => ['\\', '\\']
  | '\n' => ['\\', 'n']
  | '\r' => ['\\', 'r']
  | '\t' => ['\\', 't']
  | '\x00' => ['\\', '0']
  | c =>
    if shown c then [c] else "\\u\x7b".toList ++ Nat.toDigits 16 c.toNat ++ "\x7d".toList

def quoted (shown : Char → Bool) (t : Text) : Text := '"' :: t.flatMap (escape shown) ++ ['"']

end FeatureQuery.Text
