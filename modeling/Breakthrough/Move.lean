import Breakthrough.Square
import Breakthrough.Text.Blank

/-!
# Moves

A move names the square a pawn leaves and the square it enters; whether it captures depends on the
position. It is written as its two squares, such as `e2e3`, and read with white space around it
ignored.
-/

namespace Breakthrough

@[ext]
structure Move where
  source : Square
  target : Square
  deriving DecidableEq, Repr, Inhabited

namespace Move

/-- The move from a1 to a1, which no position allows; it marks the absence of a move. -/
def absent : Move := ⟨⟨0⟩, ⟨0⟩⟩

/-- Source and target stand in one column. -/
def isStraight (m : Move) : Bool := m.source.column = m.target.column

/-- The move as a number: source in the low byte, target in the high byte. -/
def code (m : Move) : Nat := m.source.index.val + 256 * m.target.index.val

def chars (m : Move) : List Char := m.source.chars ++ m.target.chars

/-- A move as text, such as `e2e3`. -/
def text (m : Move) : String := String.ofList m.chars

def ofChars? : List Char → Option Move
  | [a, b, c, d] => do return ⟨← Square.ofPair? a b, ← Square.ofPair? c d⟩
  | _ => none

/-- The move that a text names once the white space around it is removed. -/
def ofText? (s : String) : Option Move := ofChars? (Text.trimChars s.toList)

theorem ofChars?_chars (m : Move) : ofChars? m.chars = some m := by
  have hs : Square.ofPair? _ _ = some m.source := Square.ofChars?_chars m.source
  have ht : Square.ofPair? _ _ = some m.target := Square.ofChars?_chars m.target
  simp only [chars, Square.chars, List.cons_append, List.nil_append, ofChars?, hs, ht]
  rfl

end Move

end Breakthrough
