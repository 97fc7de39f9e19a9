import Breakthrough.Playout
import Breakthrough.Score

/-!
# Sampled rewards

A move is given a value by random playouts that begin with it. The sampler owns the stream that the
playouts draw from and counts them.
-/

namespace Breakthrough.Search

/-- A stream for playouts and the number of playouts run. -/
structure Sampler (σ : Type) where
  source : σ
  count : Nat

namespace Sampler

variable {α σ : Type} [Score α] [RandomSource σ]

/-- A sampler that has not run a playout. -/
def new (source : σ) : Sampler σ := ⟨source, 0⟩

/-- The sampler with its counter back at nothing. -/
def resetCount (s : Sampler σ) : Sampler σ := { s with count := 0 }

/-- The mean reward of `n` playouts that begin with a move, zero if there are none. The playouts
are counted when all of them have ended. -/
def sample (s : Sampler σ) (p : Position) (m : Move) (n : Nat) :
    Except Error α × Sampler σ × Position :=
  if n = 0 then (.ok Score.zero, s, p)
  else
    match countWins m n 0 p s.source with
    | (.error e, p, g) => (.error e, { s with source := g }, p)
    | (.ok wins, p, g) => (.ok (Score.ratio wins n), ⟨g, s.count + n⟩, p)

end Sampler

end Breakthrough.Search
