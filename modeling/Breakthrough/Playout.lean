import Breakthrough.Position.Play
import Breakthrough.Random.Draw

/-!
# Random playouts

A playout plays a given move and then random ones until a side has lost, and takes everything back.
Its result is the winner. On every outcome the position that comes back is the one it started from.
-/

namespace Breakthrough

variable {σ : Type} [RandomSource σ]

/-- Plays random moves until the side to move has lost. A game ends because its history has room for
`maxPly` moves only. -/
def playToEnd (p : Position) (g : σ) : Except Error Unit × Position × σ :=
  if p.isLost then (.ok (), p, g)
  else
    match chooseMove p.moves g with
    | (.error e, g) => (.error e, p, g)
    | (.ok m, g) =>
      match _ : p.refusal? m with
      | some e => (.error e, p, g)
      | none => playToEnd (p.advance m) g
termination_by maxPly - p.depth
decreasing_by exact Position.room_advance_lt ‹_›

/-- The winner of a random game that begins with `first`. -/
def playout (p : Position) (first : Move) (g : σ) : Except Error Color × Position × σ :=
  match p.refusal? first with
  | some e => (.error e, p, g)
  | none =>
    let depth := p.depth
    let (outcome, p, g) := playToEnd (p.advance first) g
    let winner := p.side.opponent
    (outcome.map fun _ => winner, p.retractTimes (p.depth - depth), g)

/-- `wins` and the number of `n` playouts beginning with `first` that its player wins. -/
def countWins (first : Move) :
    (n : Nat) → (wins : Nat) → Position → σ → Except Error Nat × Position × σ
  | 0, wins, p, g => (.ok wins, p, g)
  | n + 1, wins, p, g =>
    let mover := p.side
    match playout p first g with
    | (.error e, p, g) => (.error e, p, g)
    | (.ok winner, p, g) => countWins first n (if winner = mover then wins + 1 else wins) p g

end Breakthrough
