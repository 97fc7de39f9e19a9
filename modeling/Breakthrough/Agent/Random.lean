import Breakthrough.Position.Play
import Breakthrough.Random.Draw

/-!
# The random agent

It plays any legal move, all being equally likely.
-/

namespace Breakthrough

/-- An agent that only has a stream to draw from. -/
structure RandomAgent (σ : Type) where
  source : σ

namespace RandomAgent

variable {σ : Type} [RandomSource σ]

def choose (a : RandomAgent σ) (p : Position) : Except Error Move × RandomAgent σ :=
  if p.isLost then (.error (.gameOver p.side), a)
  else
    let (m, g) := chooseMove p.moves a.source
    (m, ⟨g⟩)

end RandomAgent

end Breakthrough
