import Breakthrough.Move
import Breakthrough.Text.Quoted

/-!
# What can go wrong

Every refusal of the library is one of these causes; `Error.message` is the only place that puts
them into words.
-/

namespace Breakthrough

/-- The most moves that a history holds. -/
def maxPly : Nat := 256

/-- A bound on the legal moves of a position: sixteen pawns with three targets each. -/
def maxMoves : Nat := 48

inductive Error where
  /-- The text names no square. -/
  | invalidSquare (text : String)
  /-- The trimmed text names no move. -/
  | invalidMove (text : String)
  /-- A diagram has the wrong number of rows. -/
  | diagramHeight (rows : Nat)
  /-- A row of a diagram, numbered as on the board, has the wrong number of cells. -/
  | diagramWidth (row cells : Nat)
  /-- The source square does not hold a pawn of the side to move. -/
  | notMoversPawn (move : Move) (mover : Color)
  /-- The target square holds a pawn of the side to move. -/
  | selfCapture (move : Move) (mover : Color)
  /-- A straight move enters an occupied square. -/
  | straightBlocked (move : Move)
  /-- The side to move has already lost. -/
  | gameOver (loser : Color)
  /-- There is no move to take back. -/
  | nothingToUndo
  /-- The move to take back is not the newest one. -/
  | undoMismatch (requested applied : Move)
  /-- The history is full. -/
  | plyLimit (limit : Nat)
  /-- There is no move to choose from. -/
  | noMoves
  /-- A search was asked for in a finished game. -/
  | searchAfterEnd (loser : Color)
  /-- The position with this hash has no statistics. -/
  | notSearched (key : UInt64)
  /-- The searched graph could not be written out. -/
  | graphUnwritable (reason : String)
  /-- A chance that is not a number cannot be drawn; the run cannot go on. -/
  | undefinedChance
  /-- A search path leads through an edge that is gone; the run cannot go on. -/
  | brokenPath
  deriving DecidableEq, Repr

namespace Error

def message : Error → String
  | invalidSquare text => "invalid square: " ++ Text.quoted text
  | invalidMove text => "invalid action: " ++ Text.quoted text
  | diagramHeight rows => s!"invalid board diagram: expected 8 rows, found {rows}"
  | diagramWidth row cells => s!"invalid board diagram: row {row} has {cells} squares"
  | notMoversPawn move mover =>
    s!"{move.text}: source square does not hold a {mover.text} piece"
  | selfCapture move mover => s!"{move.text}: destination holds a {mover.text} piece"
  | straightBlocked move => s!"{move.text}: straight moves cannot capture"
  | gameOver loser => s!"the game is already over ({loser.text} has lost)"
  | nothingToUndo => "undo called with an empty history"
  | undoMismatch requested applied =>
    s!"undo of {requested.text} does not match the last applied action {applied.text}"
  | plyLimit limit => s!"ply limit of {limit} exceeded"
  | noMoves => "cannot pick an action from an empty list"
  | searchAfterEnd loser => s!"no search from a finished game ({loser.text} has lost)"
  | notSearched key => s!"position {Text.word64 key} has not been searched"
  | graphUnwritable reason => s!"failed to write search graph: {reason}"
  | undefinedChance => "a chance must be a number"
  | brokenPath => "the search path leads through a missing edge"

/-- Whether the cause ends the whole run instead of the one request. -/
def isFatal : Error → Bool
  | undefinedChance | brokenPath => true
  | _ => false

end Error

def Square.parse (s : String) : Except Error Square :=
  match Square.ofChars? s.toList with
  | some square => .ok square
  | none => .error (.invalidSquare s)

/-- Reads a move, white space around it being ignored. -/
def Move.parse (s : String) : Except Error Move :=
  match Move.ofText? s with
  | some move => .ok move
  | none => .error (.invalidMove (Text.trim s))

end Breakthrough
