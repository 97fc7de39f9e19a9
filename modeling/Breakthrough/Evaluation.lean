import Breakthrough.Position.Moves
import Breakthrough.Score

/-!
# Static evaluation

A runner is a pawn that fewer than two opposing pawns can ever stand in the way of. Races between
runners are settled first; otherwise the score weighs material, shape (pawns side by side and pawns
behind one another) and pawns guarded at least as often as they are attacked. Scores are from
the point of view of the side to move and lie between 0 and 1.
-/

namespace Breakthrough

/-- What a side's pawns amount to. -/
structure SideSummary where
  count : Nat
  /-- Steps to the goal row of the runner closest to it. -/
  fastest? : Option Nat
  /-- Two points for every pawn with a pawn to its left, one for every pawn behind another. -/
  shape : Nat
  /-- Two points for every pawn with as many guards as attackers. -/
  levers : Nat
  deriving DecidableEq, Repr

namespace SideSummary

/-- Shape relative to its maximum, between minus one half and one half. -/
def shapeRatio {α : Type} [Score α] (s : SideSummary) : α :=
  if s.count = 0 then Score.zero
  else
    let most : α := Score.ofNat (3 * s.count)
    (Score.ofNat 2 * Score.ofNat s.shape - most) / (Score.ofNat 2 * most)

end SideSummary

namespace Position

/-- Whether fewer than two opposing pawns stand where the pawn could ever go. -/
def isRunner (p : Position) (c : Color) (s : Square) : Bool :=
  (Bitboard.span c s &&& p.pawns c.opponent).count < 2

/-- Rows between a square and the goal row of a side. -/
def rowsToGoal (c : Color) (s : Square) : Nat := 7 - (c.relativeRow s.row).val

/-- The smaller of a distance and the best one so far. -/
def closer (best : Option Nat) (n : Nat) : Option Nat :=
  match best with
  | none => some n
  | some m => some (min m n)

/-- Steps to the goal row of a side's closest runner. -/
def fastest? (p : Position) (c : Color) : Option Nat :=
  (((p.pawns c).squares.filter (p.isRunner c)).map (rowsToGoal c)).foldl closer none

def shapePoints (p : Position) (c : Color) (s : Square) : Nat :=
  let pawn := Bitboard.single s
  (if (pawn.shift .left &&& p.pawns c).isNonempty then 2 else 0)
    + (if (pawn.forward c &&& p.pawns c).isNonempty then 1 else 0)

/-- Whether a pawn has at least as many guards as attackers. -/
def isGuarded (p : Position) (c : Color) (s : Square) : Bool :=
  (Bitboard.attackers c.opponent s &&& p.pawns c.opponent).count
    ≤ (Bitboard.attackers c s &&& p.pawns c).count

def leverPoints (p : Position) (c : Color) (s : Square) : Nat := if p.isGuarded c s then 2 else 0

def worthOf (points : Square → Nat) (squares : List Square) : Nat :=
  squares.foldr (fun s n => points s + n) 0

def summary (p : Position) (c : Color) : SideSummary where
  count := (p.pawns c).count
  fastest? := p.fastest? c
  shape := worthOf (p.shapePoints c) (p.pawns c).squares
  levers := worthOf (p.leverPoints c) (p.pawns c).squares

end Position

/-- The ground on which a position is scored. -/
inductive Verdict where
  /-- The side to move has a runner one step from its goal. -/
  | win
  /-- The opponent has a runner one step from its goal. -/
  | loss
  /-- The side to move has a runner three steps from its goal. -/
  | nearWin
  /-- There are no pawns. -/
  | bare
  /-- The opponent has a runner three steps from its goal. -/
  | pressed
  /-- No race decides. -/
  | quiet
  deriving DecidableEq, Repr

namespace Evaluation

variable {α : Type} [Score α]

/-- The first ground that applies, for the side to move and its opponent. -/
def verdict (ours theirs : SideSummary) : Verdict :=
  if ours.fastest? = some 1 then .win
  else if theirs.fastest? = some 1 then .loss
  else if ours.fastest? = some 3 then .nearWin
  else if ours.count + theirs.count = 0 then .bare
  else if theirs.fastest? = some 3 then .pressed
  else .quiet

def material (ours theirs : SideSummary) : α :=
  let mine : α := Score.ofNat ours.count
  let other : α := Score.ofNat theirs.count
  Score.ratio 1 2 + (mine - other) / (Score.ofNat 2 * (mine + other))

def shape (ours theirs : SideSummary) : α :=
  Score.ratio 1 2 + ours.shapeRatio / Score.ofNat 2 - theirs.shapeRatio / Score.ofNat 2

/-- The balance of guarded pawns. -/
def levers (ours theirs : SideSummary) : α :=
  Score.ratio 1 2 + (Score.ofNat ours.levers - Score.ofNat theirs.levers) / Score.ofNat 64

/-- The weighted score when the opponent presses. -/
def pressedBlend (ours theirs : SideSummary) : α :=
  Score.ratio 35 100 * Score.ratio 33 100 + Score.ratio 33 100 * material ours theirs
    + Score.ratio 33 100 * shape ours theirs

/-- The weighted score of a quiet position. -/
def quietBlend (ours theirs : SideSummary) : α :=
  Score.ratio 2 10 * levers ours theirs + Score.ratio 3 10 * shape ours theirs
    + Score.ratio 5 10 * material ours theirs

def score (ours theirs : SideSummary) : α :=
  match verdict ours theirs with
  | .win => Score.one
  | .loss => Score.zero
  | .nearWin => Score.ratio 8 10
  | .bare => Score.ratio 1 2
  | .pressed => Score.clamp (pressedBlend ours theirs)
  | .quiet => Score.clamp (quietBlend ours theirs)

end Evaluation

def Position.verdict (p : Position) : Verdict :=
  Evaluation.verdict (p.summary p.side) (p.summary p.side.opponent)

/-- The score of a position for the side to move. -/
def Position.evaluate {α : Type} [Score α] (p : Position) : α :=
  Evaluation.score (p.summary p.side) (p.summary p.side.opponent)

end Breakthrough
