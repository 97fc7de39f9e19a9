import Breakthrough.Position.Moves

/-!
# Playing and taking back

`refusal?` tells why a move cannot be played; it looks at the pawns on the two squares but not at the
distance between them. `advance` plays a move without asking, `retract` takes the newest move back.
`play` and `takeBack` are the two with their checks in front: a refusal changes nothing, because the
position that was given remains.
-/

namespace Breakthrough.Position

/-- Why a move cannot be played, the first cause that applies. -/
def refusal? (p : Position) (m : Move) : Option Error :=
  if p.isLost then some (.gameOver p.side)
  else if p.cell m.source != some p.side then some (.notMoversPawn m p.side)
  else if p.cell m.target == some p.side then some (.selfCapture m p.side)
  else if p.cell m.target != none && m.isStraight then some (.straightBlocked m)
  else if maxPly ≤ p.depth then some (.plyLimit maxPly)
  else none

/-- The hash after a move of the side to move. -/
def hashAfter (p : Position) (m : Move) (capture : Bool) : UInt64 :=
  let key := if capture then p.hash ^^^ p.keys.pawn p.side.opponent m.target else p.hash
  key ^^^ (p.keys.pawn p.side m.source ^^^ p.keys.pawn p.side m.target) ^^^ p.keys.side

/-- The position after a move: the pawn changes its square, and an opposing pawn there is removed. -/
def advance (p : Position) (m : Move) : Position :=
  let us := p.side
  let them := us.opponent
  let capture := p.cell m.target == some them
  let moved := p.pawns us ^^^ (.single m.source ||| .single m.target)
  let others := if capture then (p.pawns them).toggle m.target else p.pawns them
  let delta : Delta := ⟨p.hashAfter m capture, capture, m⟩
  { p with
    board := (p.board.set m.source.index none).set m.target.index (some us)
    white := if us = .white then moved else others
    black := if us = .white then others else moved
    side := them
    ply := p.ply + 1
    history := p.history.add delta }

/-- The position before its newest move; nothing changes when there is none. -/
def retract (p : Position) : Position :=
  match p.history.deltas.back? with
  | none => p
  | some d =>
    let us := p.side.opponent
    let them := p.side
    let moved := p.pawns us ^^^ (.single d.move.target ||| .single d.move.source)
    let others := if d.capture then (p.pawns them).toggle d.move.target else p.pawns them
    let cleared := (p.board.set d.move.target.index none).set d.move.source.index (some us)
    { p with
      board := if d.capture then cleared.set d.move.target.index (some them) else cleared
      white := if us = .white then moved else others
      black := if us = .white then others else moved
      side := us
      ply := p.ply - 1
      history := p.history.dropNewest }

def play (p : Position) (m : Move) : Except Error Position :=
  match p.refusal? m with
  | some e => .error e
  | none => .ok (p.advance m)

/-- Why a move cannot be taken back. -/
def takeBackRefusal? (p : Position) (m : Move) : Option Error :=
  if p.depth = 0 then some .nothingToUndo
  else if p.history.newest.move ≠ m then some (.undoMismatch m p.history.newest.move)
  else none

/-- Takes a move back, which must be the newest one. -/
def takeBack (p : Position) (m : Move) : Except Error Position :=
  match p.takeBackRefusal? m with
  | some e => .error e
  | none => .ok p.retract

/-- Takes the newest move back and tells which it was. -/
def takeBackNewest (p : Position) : Except Error (Move × Position) :=
  let m := p.history.newest.move
  (p.takeBack m).map (m, ·)

/-- Takes back `n` moves, or as many as there are. -/
def retractTimes : Nat → Position → Position
  | 0, p => p
  | n + 1, p => retractTimes n p.retract

@[simp] theorem depth_advance (p : Position) (m : Move) : (p.advance m).depth = p.depth + 1 := by
  simp [depth, advance]

@[simp] theorem side_advance (p : Position) (m : Move) : (p.advance m).side = p.side.opponent := rfl

theorem depth_lt_of_refusal?_eq_none {p : Position} {m : Move} (h : p.refusal? m = none) :
    p.depth < maxPly := by
  grind [refusal?]

theorem room_advance_lt {p : Position} {m : Move} (h : p.refusal? m = none) :
    maxPly - (p.advance m).depth < maxPly - p.depth := by
  have := depth_lt_of_refusal?_eq_none h
  rw [depth_advance]
  omega

end Breakthrough.Position
