import Breakthrough.Text.Hex
import Breakthrough.Text.Unseen

/-!
# Quoted text

Messages show foreign text between double quotes. A quote or a backslash gets a backslash, the four
common controls have a letter, and every other character that cannot be seen by itself is written as
its code point in braces.
-/

namespace Breakthrough.Text

def quotedChar (c : Char) : String :=
  match c with
  | '"' => "\\\""
  | '\\' => "\\\\"
  | '\t' => "\\t"
  | '\r' => "\\r"
  | '\n' => "\\n"
  | _ =>
    if c.toNat = 0 then "\\0"
    else if isUnseen c then "\\u\x7b" ++ hex c.toNat ++ "\x7d"
    else c.toString

/-- A text between double quotes with everything invisible made visible. -/
def quoted (s : String) : String :=
  "\"" ++ String.join (s.toList.map quotedChar) ++ "\""

end Breakthrough.Text
