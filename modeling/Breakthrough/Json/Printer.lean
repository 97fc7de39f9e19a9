import Breakthrough.Json.Value

/-!
# Writing JSON

A document is written on one line, or with every item and field on a line of its own. Doubles have
the fewest digits that read back; those of ordinary size have no exponent, and what is no number is
null.
-/

namespace Breakthrough.Json

def floatLayout : Decimal.Layout where
  plainFrom := -5
  plainBelow := 16
  plusSign := "+"
  nan := "null"
  infinity := "null"
  negativeInfinity := "null"

def escapedChar (c : Char) : String :=
  match c with
  | '"' => "\\\""
  | '\\' => "\\\\"
  | '\n' => "\\n"
  | '\r' => "\\r"
  | '\t' => "\\t"
  | '\x08' => "\\b"
  | '\x0c' => "\\f"
  | _ => if c.toNat < 0x20 then "\\u" ++ Text.hexPadded 4 c.toNat else c.toString

def escaped (s : String) : String := "\"" ++ String.join (s.toList.map escapedChar) ++ "\""

/-- A document to be written: every scalar is already text. -/
inductive Doc where
  | scalar (text : String)
  | list (items : List Doc)
  | object (fields : List (String × Doc))

namespace Doc

def string (s : String) : Doc := scalar (escaped s)

def nat (n : Nat) : Doc := scalar (toString n)

def bool (b : Bool) : Doc := scalar (if b then "true" else "false")

def float (x : Float) : Doc := scalar (floatLayout.render (.ofFloat x))

def float32 (x : Float32) : Doc := scalar (floatLayout.render (.ofFloat32 x))

def optionNat (n : Option Nat) : Doc := n.elim (scalar "null") nat

mutual

/-- A document on one line. -/
def compact : Doc → String
  | scalar text => text
  | list items => "[" ++ String.intercalate "," (compactItems items) ++ "]"
  | object fields => "\x7b" ++ String.intercalate "," (compactFields fields) ++ "\x7d"

/-- The items of a list, each on one line. -/
def compactItems : List Doc → List String
  | [] => []
  | d :: ds => d.compact :: compactItems ds

/-- The fields of an object, each on one line. -/
def compactFields : List (String × Doc) → List String
  | [] => []
  | (k, d) :: fs => (escaped k ++ ":" ++ d.compact) :: compactFields fs

end

/-- The line break before something at a depth. -/
def newline (depth : Nat) : String := "\n" ++ String.ofList (List.replicate (2 * depth) ' ')

/-- Parts between brackets, each on a line of its own. -/
def block (depth : Nat) (opening closing : String) (parts : List String) : String :=
  if parts.isEmpty then opening ++ closing
  else
    opening ++ newline (depth + 1) ++ String.intercalate ("," ++ newline (depth + 1)) parts
      ++ newline depth ++ closing

mutual

def prettyAt (depth : Nat) : Doc → String
  | scalar text => text
  | list items => block depth "[" "]" (prettyItems (depth + 1) items)
  | object fields => block depth "\x7b" "\x7d" (prettyFields (depth + 1) fields)

def prettyItems (depth : Nat) : List Doc → List String
  | [] => []
  | d :: ds => prettyAt depth d :: prettyItems depth ds

def prettyFields (depth : Nat) : List (String × Doc) → List String
  | [] => []
  | (k, d) :: fs => (escaped k ++ ": " ++ prettyAt depth d) :: prettyFields depth fs

end

/-- A document over several lines. -/
def pretty (d : Doc) : String := prettyAt 0 d

end Doc

end Breakthrough.Json
