import Breakthrough.Bitboard
import Breakthrough.Hashing
import Breakthrough.History

/-!
# Positions

A position holds the board three times over: as a cell per square, as a set of squares per side, and
as a hash that every move updates. It also knows the side to move, the number of moves played, their
history, and the keys of its hash. `hashFromBoard` computes the hash anew from the sets.
-/

namespace Breakthrough

/-- A position of the game together with the moves that led to it. -/
@[ext]
structure Position where
  /-- What each square holds. -/
  board : Vector Cell 64
  /-- The squares of White's pawns. -/
  white : Bitboard
  /-- The squares of Black's pawns. -/
  black : Bitboard
  /-- The side to move. -/
  side : Color
  /-- How many moves have been played. -/
  ply : Nat
  history : History
  keys : KeyTable
  deriving DecidableEq

namespace Position

def cell (p : Position) (s : Square) : Cell := p.board.get s.index

def pawns (p : Position) : Color → Bitboard
  | .white => p.white
  | .black => p.black

def vacant (p : Position) : Bitboard := ~~~(p.white ||| p.black)

/-- The hash of the position, as the history has it. -/
def hash (p : Position) : UInt64 := p.history.newest.key

/-- The number of moves that can be taken back. -/
def depth (p : Position) : Nat := p.history.depth

/-- The exclusive or of the keys of a side's pawns. -/
def pawnsKey (p : Position) (c : Color) : UInt64 :=
  (p.pawns c).squares.foldl (fun key s => key ^^^ p.keys.pawn c s) 0

/-- The hash computed from the pawns and the side to move alone. -/
def hashFromBoard (p : Position) : UInt64 :=
  let key := p.pawnsKey .white ^^^ p.pawnsKey .black
  match p.side with
  | .white => key
  | .black => key ^^^ p.keys.side

/-- The squares of a board that hold a pawn of a side. -/
def pawnsOf (board : Vector Cell 64) (c : Color) : Bitboard :=
  Square.all.foldl (fun b s => if board.get s.index = some c then b.toggle s else b) .empty

/-- The position of a board from which nothing has been played. -/
def ofBoard (board : Vector Cell 64) (side : Color) (keys : KeyTable) : Position :=
  let p : Position :=
    { board, white := pawnsOf board .white, black := pawnsOf board .black, side, ply := 0
      history := .start 0, keys }
  { p with history := .start p.hashFromBoard }

/-- White's pawns on the two lowest rows, Black's on the two highest. -/
def startBoard : Vector Cell 64 :=
  .ofFn fun i => if i.val < 16 then some .white else if 48 ≤ i.val then some .black else none

/-- The start of a game whose hashes use the given keys. -/
def startWith (keys : KeyTable) : Position := ofBoard startBoard .white keys

def start : Position := startWith .shared

/-- The start of a game with the keys of this position. -/
def reset (p : Position) : Position := startWith p.keys

end Position

end Breakthrough
