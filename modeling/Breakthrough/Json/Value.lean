import Breakthrough.Decimal.Reading
import Breakthrough.Decimal.Shortest
import Breakthrough.Text.Hex

/-!
# JSON documents

A document as it is read and written. Numbers stay literals, because only the reader of a field knows
what range it has. A string whose escapes name half a character has no text; such strings are well
formed, but a document that gives one a meaning is refused.
-/

namespace Breakthrough

inductive Json where
  | null
  | bool (value : Bool)
  | number (literal : Decimal.Literal)
  | string (text : String)
  | list (items : List Json)
  | object (fields : List (String × Json))
  /-- A string without a text, or an object with such a string as a key. -/
  | garbled

namespace Json

def bool? : Json → Option Bool
  | bool b => some b
  | _ => none

def text? : Json → Option String
  | string s => some s
  | _ => none

/-- The whole number below a bound that a document stands for. -/
def below? (bound : Nat) : Json → Option Nat
  | number l => l.natural?.filter (· < bound)
  | _ => none

def float? : Json → Option Float
  | number l => l.toFloat?
  | _ => none

def orNull {α : Type} (read : Json → Option α) : Json → Option (Option α)
  | null => some none
  | j => (read j).map some

end Json

end Breakthrough
