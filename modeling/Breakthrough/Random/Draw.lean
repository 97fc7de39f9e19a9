import Breakthrough.Error
import Breakthrough.Random.Source

/-!
# Random choices

A member of a list and an event of a given chance, drawn from a source.
-/

namespace Breakthrough

variable {σ : Type} [RandomSource σ]

/-- A member of a list, each place equally likely; the empty list is refused. -/
def chooseMove (moves : List Move) (g : σ) : Except Error Move × σ :=
  if h : 0 < moves.length then
    let (i, g) := RandomSource.drawIndex moves.length h g
    (.ok (moves.get i), g)
  else (.error .noMoves, g)

/-- A member of a list by a draw from single words; nothing is drawn for the empty list. -/
def pick? {α : Type} (items : List α) (g : σ) : Option α × σ :=
  if h : 0 < items.length then
    let (i, g) := RandomSource.drawShortIndex items.length h g
    (some (items.get i), g)
  else (none, g)

/-- An event of chance `p`. A certain event takes no word; a chance outside [0, 1] is refused. -/
def chance (p : Float) (g : σ) : Except Error Bool × σ :=
  if p == 1.0 then (.ok true, g)
  else if 0.0 ≤ p && p < 1.0 then
    let (w, g) := RandomSource.drawWord g
    (.ok (w < (p * 18446744073709551616.0).toUInt64), g)
  else (.error .undefinedChance, g)

end Breakthrough
