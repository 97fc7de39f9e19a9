import Breakthrough.Position.Basic

/-!
# Legal moves and lost positions

A pawn steps straight ahead onto an empty square, or diagonally ahead onto a square that holds no
pawn of its own side. A side to move has lost when an opposing pawn stands on its home row or when
none of its pawns can move.
-/

namespace Breakthrough.Position

/-- The squares that a set of pawns of the side to move can enter. -/
def targets (p : Position) (pawns : Bitboard) : Bitboard :=
  (pawns.forward p.side &&& p.vacant) ||| (pawns.attacks p.side &&& ~~~(p.pawns p.side))

/-- Whether a pawn of the side to move can move at all. -/
def canMove (p : Position) : Bool :=
  let own := p.pawns p.side
  (own.forward p.side &&& p.vacant).isNonempty || (own.attacks p.side &&& ~~~own).isNonempty

/-- The opposing pawns on the home row of the side to move. -/
def intruders (p : Position) : Bitboard := p.pawns p.side.opponent &&& .row p.side.homeRow

def isLost (p : Position) : Bool := p.intruders.isNonempty || !p.canMove

/-- The moves of the pawn on a square: straight ahead first, then the diagonals from left to right. -/
def movesFrom (p : Position) (s : Square) : List Move :=
  let pawn := Bitboard.single s
  let ahead := pawn.forward p.side &&& p.vacant
  let diagonals := pawn.attacks p.side &&& ~~~(p.pawns p.side)
  (ahead.lowest?.toList ++ diagonals.squares).map (Move.mk s)

/-- A buffer, emptied and filled with the moves of the side to move, its pawns taken in ascending order. -/
def fillMoves (p : Position) (buffer : Array Move) : Array Move :=
  (p.pawns p.side).squares.foldl (fun buffer s => buffer ++ p.movesFrom s) (buffer.shrink 0)

def moves (p : Position) : List Move := (p.fillMoves #[]).toList

/-- Whether a move is legal, which none is in a lost position. -/
def isLegal (p : Position) (m : Move) : Bool :=
  p.cell m.source == some p.side && !p.isLost && (p.targets (.single m.source)).contains m.target

/-- What was in the buffer does not matter. -/
theorem toList_fillMoves (p : Position) (buffer : Array Move) :
    (p.fillMoves buffer).toList = (p.pawns p.side).squares.flatMap p.movesFrom := by
  have happend : ∀ (squares : List Square) (buffer : Array Move),
      (squares.foldl (fun (buffer : Array Move) s => buffer ++ p.movesFrom s) buffer).toList =
        buffer.toList ++ squares.flatMap p.movesFrom := by
    intro squares
    induction squares with
    | nil => simp
    | cons s squares ih => intro buffer; simp [ih]
  rw [fillMoves, happend]
  simp

theorem moves_eq (p : Position) : p.moves = (p.pawns p.side).squares.flatMap p.movesFrom :=
  p.toList_fillMoves #[]

theorem fillMoves_eq (p : Position) (buffer : Array Move) : p.fillMoves buffer = p.moves.toArray := by
  rw [moves_eq, ← toList_fillMoves p buffer, Array.toArray_toList]

end Breakthrough.Position
