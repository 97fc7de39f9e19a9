/-!
# The two sides

White starts on rows 1 and 2 and walks up the board, Black starts on rows 7 and 8 and walks down.
Rows are numbered from 0 here, so the side that reaches `goalRow` has won. A cell of the board is
empty or holds a pawn of one side.
-/

namespace Breakthrough

inductive Color where
  | white
  | black
  deriving DecidableEq, Repr, Inhabited

namespace Color

def opponent : Color → Color
  | white => black
  | black => white

@[simp] theorem opponent_opponent (c : Color) : c.opponent.opponent = c := by cases c <;> rfl

theorem opponent_ne (c : Color) : c.opponent ≠ c := by cases c <;> decide

theorem eq_opponent_of_ne {c d : Color} (h : c ≠ d) : c = d.opponent := by
  cases c <;> cases d <;> simp_all [opponent]

/-- The place of the side among the two, White first. -/
def index : Color → Nat
  | white => 0
  | black => 1

/-- The row behind which the side stands at the start; the opponent wins on reaching it. -/
def homeRow : Color → Fin 8
  | white => 0
  | black => 7

/-- The row that the side wins by reaching. -/
def goalRow (c : Color) : Fin 8 := c.opponent.homeRow

/-- A row as the side counts it, its own home row being 0. -/
def relativeRow : Color → Fin 8 → Fin 8
  | white, row => row
  | black, row => row.rev

/-- The side in messages. -/
def text : Color → String
  | white => "WHITE"
  | black => "BLACK"

/-- The side in a position's heading. -/
def lowerText : Color → String
  | white => "white"
  | black => "black"

/-- The side in documents. -/
def name : Color → String
  | white => "White"
  | black => "Black"

def ofName? : String → Option Color
  | "White" => some white
  | "Black" => some black
  | _ => none

end Color

/-- What a square holds: a pawn of one side, or nothing. -/
abbrev Cell := Option Color

namespace Cell

/-- The letter of a cell in diagrams. -/
def symbol : Cell → Char
  | some .white => 'W'
  | some .black => 'B'
  | none => '.'

/-- The cell that a letter of a diagram stands for. -/
def ofSymbol? : Char → Option Cell
  | 'W' => some (some .white)
  | 'B' => some (some .black)
  | '.' => some none
  | _ => none

end Cell

end Breakthrough
