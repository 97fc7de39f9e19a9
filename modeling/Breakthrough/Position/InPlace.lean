import Breakthrough.Position.Play

/-!
# Playing and taking back in place

The moves of a position as steps that change it part by part. A refusal ends them, and what has been
changed by then stays changed. So all checks come first, and the history, which may be full, comes
before the pawns.
-/

namespace Breakthrough.Position

/-- Steps that change a position and may be refused on the way. -/
abbrev InPlace := ExceptT Error (StateM Position)

namespace InPlace

/-- What the steps answer, and the position they leave. -/
def on {β : Type} (steps : InPlace β) (p : Position) : Except Error β × Position := steps.run.run p

/-- Refuses unless the condition holds. -/
def check (condition : Bool) (e : Error) : InPlace Unit := if condition then pure () else throw e

def setCell (s : Square) (c : Cell) : InPlace Unit :=
  modify fun p => { p with board := p.board.set s.index c }

def changePawns (c : Color) (f : Bitboard → Bitboard) : InPlace Unit :=
  modify fun p =>
    match c with
    | .white => { p with white := f p.white }
    | .black => { p with black := f p.black }

def movePawn (c : Color) (source target : Square) : InPlace Unit := do
  setCell source none
  setCell target (some c)
  changePawns c (· ^^^ (.single source ||| .single target))

def removePawn (c : Color) (s : Square) : InPlace Unit := do
  setCell s none
  changePawns c (·.toggle s)

def putPawn (c : Color) (s : Square) : InPlace Unit := do
  setCell s (some c)
  changePawns c (·.toggle s)

/-- Puts a delta on the history, which may be full. -/
def pushDelta (d : Delta) : InPlace Unit := do
  let history ← (← get).history.push d
  modify fun p => { p with history }

def popDelta : InPlace Delta := do
  let (d, history) ← (← get).history.pop
  modify fun p => { p with history }
  return d

def play (m : Move) : InPlace Unit := do
  let p ← get
  let us := p.side
  let them := us.opponent
  check (!p.isLost) (.gameOver us)
  check (p.cell m.source == some us) (.notMoversPawn m us)
  check (p.cell m.target != some us) (.selfCapture m us)
  check (p.cell m.target == none || !m.isStraight) (.straightBlocked m)
  let capture := p.cell m.target == some them
  pushDelta ⟨p.hashAfter m capture, capture, m⟩
  if capture then removePawn them m.target
  movePawn us m.source m.target
  modify fun p => { p with ply := p.ply + 1 }
  modify fun p => { p with side := them }

/-- Takes a move back, which must be the newest one. -/
def takeBack (m : Move) : InPlace Unit := do
  let p ← get
  check (0 < p.depth) .nothingToUndo
  let newest := p.history.newest.move
  check (newest == m) (.undoMismatch m newest)
  let d ← popDelta
  modify fun p => { p with ply := p.ply - 1 }
  modify fun p => { p with side := p.side.opponent }
  let us := (← get).side
  movePawn us m.target m.source
  if d.capture then putPawn us.opponent m.target

/-- Takes the newest move back and tells which it was. -/
def takeBackNewest : InPlace Move := do
  let p ← get
  check (0 < p.depth) .nothingToUndo
  let m := p.history.newest.move
  takeBack m
  return m

end InPlace

end Breakthrough.Position
