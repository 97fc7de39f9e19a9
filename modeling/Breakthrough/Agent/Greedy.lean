import Breakthrough.Decimal.Fixed
import Breakthrough.Evaluation
import Breakthrough.Log
import Breakthrough.Playout

/-!
# The greedy agent

It wins at once if it can, and captures a pawn that stands one step before its home row if it can.
Otherwise each legal move starts from the evaluation of the position behind it and is refined by
random playouts, most of which go to the move that leads at the time. The answer is the leader.
-/

namespace Breakthrough

namespace Greedy

structure Config where
  /-- The chance of sampling a random move instead of the leader. -/
  epsilon : Float
  /-- Playouts after the warm-up. -/
  iterations : Nat
  /-- Playouts of every move before the leader is known. -/
  warmup : Nat

def Config.default : Config := ⟨0.3, 5000, 20⟩

/-- From this ply on the chance of sampling a random move is halved. -/
def lateGamePly : Nat := 32

/-- What is known about a legal move. -/
structure Root (α : Type) where
  move : Move
  /-- The evaluation behind the move, for its player. -/
  prior : α
  /-- Playouts won. -/
  wins : Nat
  /-- Playouts played. -/
  visits : UInt32

/-- The mean of the prior and of the rewards. -/
def Root.score {α : Type} [Score α] (r : Root α) : α :=
  (r.prior + Score.ofNat r.wins) / (Score.ofNat r.visits.toNat + Score.one)

inductive Reason where
  | win
  | capture
  | sampling
  deriving DecidableEq, Repr

end Greedy

/-- The agent: settings, a stream to draw from, and what it knew when it last sampled. -/
structure Greedy (α σ : Type) where
  config : Greedy.Config
  source : σ
  roots : Array (Greedy.Root α)

namespace Greedy

variable {α σ : Type} [Score α] [RandomSource σ]

def new (config : Config) (source : σ) : Greedy α σ := ⟨config, source, #[]⟩

/-- The first move that lands on the goal row. -/
def winningMove? (p : Position) (moves : List Move) : Option Move :=
  moves.find? fun m => m.target.row = p.side.goalRow

/-- Opposing pawns one step before the home row of the side to move. -/
def threats (p : Position) : Bitboard :=
  p.pawns p.side.opponent &&& (Bitboard.row p.side.homeRow).forward p.side

/-- The moves that capture such a pawn. -/
def captures (p : Position) (moves : List Move) : List Move :=
  moves.filter fun m => (threats p).contains m.target

/-- Warms up every move: its prior, and the playouts that it wins. -/
def warmUp (warmup : Nat) :
    List Move → Array (Root α) → Position → σ → Except Error Unit × Array (Root α) × Position × σ
  | [], roots, p, g => (.ok (), roots, p, g)
  | m :: moves, roots, p, g =>
    match p.refusal? m with
    | some e => (.error e, roots, p, g)
    | none =>
      let after := p.advance m
      let prior : α := Score.one - after.evaluate
      match after.takeBackRefusal? m with
      | some e => (.error e, roots, after, g)
      | none =>
        match countWins m warmup 0 after.retract g with
        | (.error e, p, g) => (.error e, roots, p, g)
        | (.ok wins, p, g) => warmUp warmup moves (roots.push ⟨m, prior, wins, warmup.toUInt32⟩) p g

/-- The better of two places, the first one unless the second scores more. -/
def better (roots : Array (Root α)) (best i : Nat) : Nat :=
  match roots[best]?, roots[i]? with
  | some a, some b => if Score.lt a.score b.score then i else best
  | _, _ => best

def leader (roots : Array (Root α)) : Nat := (List.range roots.size).foldl (better roots) 0

/-- A place to sample: by chance any of them, otherwise the best one. -/
def pickRoot (epsilon : Float) (size best : Nat) (g : σ) : Except Error Nat × σ :=
  match chance epsilon g with
  | (.error e, g) => (.error e, g)
  | (.ok false, g) => (.ok best, g)
  | (.ok true, g) =>
    if h : 0 < size then
      let (i, g) := RandomSource.drawIndex size h g
      (.ok i, g)
    else (.error .noMoves, g)

/-- Spends playouts on the moves and keeps track of the leader. -/
def refine (epsilon : Float) :
    (iterations best : Nat) → Array (Root α) → Position → σ →
      Except Error Nat × Array (Root α) × Position × σ
  | 0, best, roots, p, g => (.ok best, roots, p, g)
  | n + 1, best, roots, p, g =>
    match pickRoot epsilon roots.size best g with
    | (.error e, g) => (.error e, roots, p, g)
    | (.ok i, g) =>
      match roots[i]? with
      | none => (.error .noMoves, roots, p, g)
      | some root =>
        match countWins root.move 1 0 p g with
        | (.error e, p, g) => (.error e, roots, p, g)
        | (.ok wins, p, g) =>
          let roots := roots.modify i fun r => { r with wins := r.wins + wins, visits := r.visits + 1 }
          refine epsilon n (better roots best i) roots p g

/-- The chance of sampling a random move at a ply. -/
def Config.chanceAt (c : Config) (ply : Nat) : Float :=
  Score.clamp (if ply < lateGamePly then c.epsilon else c.epsilon / 2.0)

def sample (a : Greedy α σ) (p : Position) (moves : List Move) (g : σ) :
    Except Error (Move × Reason) × Greedy α σ × Position :=
  match warmUp a.config.warmup moves #[] p g with
  | (.error e, roots, p, g) => (.error e, { a with roots, source := g }, p)
  | (.ok (), roots, p, g) =>
    let epsilon := a.config.chanceAt p.ply
    match refine epsilon a.config.iterations (leader roots) roots p g with
    | (.error e, roots, p, g) => (.error e, { a with roots, source := g }, p)
    | (.ok best, roots, p, g) =>
      let answer := (roots[best]?.map Root.move).elim (.error .noMoves) fun m => .ok (m, .sampling)
      (answer, { a with roots, source := g }, p)

/-- A move for the side to move and its ground. The position comes back as it was. -/
def choose (a : Greedy α σ) (p : Position) :
    Except Error (Move × Reason) × Greedy α σ × Position :=
  if p.isLost then (.error (.gameOver p.side), a, p)
  else
    let moves := p.moves
    match winningMove? p moves with
    | some m => (.ok (m, .win), a, p)
    | none =>
      match pick? (captures p moves) a.source with
      | (some m, g) => (.ok (m, .capture), { a with source := g }, p)
      | (none, g) => sample a p moves g

/-- What the log says about a move that was sampled. -/
def Root.line (r : Root Float) : LogLine :=
  .debug s!"greedy: {r.move.text} visits={r.visits} prior={Decimal.fixed 3 (.ofFloat r.prior)} score={Decimal.fixed 3 (.ofFloat r.score)}"

/-- What the log says about an answer. -/
def report (a : Greedy Float σ) : Except Error (Move × Reason) → List LogLine
  | .error _ => []
  | .ok (m, .win) => [.debug s!"greedy: immediate win {m.text}"]
  | .ok (m, .capture) => [.debug s!"greedy: capturing intruder with {m.text}"]
  | .ok (_, .sampling) => a.roots.toList.map Root.line

end Greedy

end Breakthrough
