import Breakthrough.Player

/-!
# The arena

Two agents play a series of games with changing colours; the challenger has White in games of odd
number. Every game makes its agents anew, with seeds that follow from the game's number, or with keys
of its own if there is no seed. The results are counted, and means are taken in single precision.

Think times come from `timed`, which runs a computation and tells how long it took. A caller without
a clock uses `untimed`.
-/

namespace Breakthrough

namespace Arena

/-- Who plays how many games. -/
structure Pairing where
  challenger : PlayerKind
  opponent : PlayerKind
  games : Nat
  parallel : Bool

/-- A game that has been played. Times are in nanoseconds. -/
structure Game where
  number : Nat
  challengerColor : Color
  winner : Color
  plies : Nat
  challengerTime : Nat
  challengerMoves : Nat
  opponentTime : Nat
  opponentMoves : Nat

namespace Game

def challengerWon (g : Game) : Bool := g.winner = g.challengerColor

def toDoc (g : Game) : Json.Doc :=
  .object [("game_number", .nat g.number), ("challenger_color", .string g.challengerColor.name),
    ("winner", .string g.winner.name), ("plies", .nat g.plies),
    ("challenger_moves", .nat g.challengerMoves), ("opponent_moves", .nat g.opponentMoves)]

def line (g : Game) : LogLine :=
  let outcome := if g.challengerWon then "won" else "lost"
  .info s!"Game {g.number}: {g.winner.text} wins in {g.plies} plies (challenger {outcome})"

end Game

/-- A computation that took no time. -/
def untimed {β : Type} (f : Unit → β) : Id (β × Nat) := (f (), 0)

structure Match where
  challenger : Player
  opponent : Player
  position : Position
  challengerTime : Nat := 0
  challengerMoves : Nat := 0
  opponentTime : Nat := 0
  opponentMoves : Nat := 0

section Play

variable {m : Type → Type} [Monad m] (timed : {β : Type} → (Unit → β) → m (β × Nat))

/-- The move of the side to move, and the match after it has been thought of. -/
def think (challengerColor : Color) (g : Match) : m (Except Error Move × List LogLine × Match) := do
  if g.position.side = challengerColor then
    let ((answer, lines, challenger, position), time) ← timed fun _ => g.challenger.choose g.position
    return (answer, lines, { g with
      challenger, position
      challengerTime := g.challengerTime + time
      challengerMoves := g.challengerMoves + 1 })
  else
    let ((answer, lines, opponent, position), time) ← timed fun _ => g.opponent.choose g.position
    return (answer, lines, { g with
      opponent, position
      opponentTime := g.opponentTime + time
      opponentMoves := g.opponentMoves + 1 })

/-- Plays to the end of the game; `room` is the number of moves that the history has space for. -/
def playOn (challengerColor : Color) : (room : Nat) → (log : List LogLine) → Match →
    m (Except Error Unit × List LogLine × Match)
  | room, log, g => do
    if g.position.isLost then return (.ok (), log, g)
    else
      match ← think timed challengerColor g with
      | (.error e, lines, g) => return (.error e, log ++ lines, g)
      | (.ok move, lines, g) =>
        match g.position.refusal? move with
        | some e => return (.error e, log ++ lines, g)
        | none =>
          match room with
          | 0 => return (.error (.plyLimit maxPly), log ++ lines, g)
          | room + 1 =>
            playOn challengerColor room (log ++ lines)
              { g with position := g.position.advance move }

def challengerColor (number : Nat) : Color := if number % 2 = 1 then .white else .black

/-- The two agents of a game at its start. -/
def newMatch (pairing : Pairing) (settings : Settings) (number : Nat) (fresh : FreshKeys) : Match :=
  let seed := settings.seed.map (· + 2 * number.toUInt64)
  { challenger := .new pairing.challenger settings seed fresh.first
    opponent := .new pairing.opponent settings (seed.map (· + 1)) fresh.second
    position := .start }

def playGame (pairing : Pairing) (settings : Settings) (number : Nat) (fresh : FreshKeys) :
    m (Except Error Game × List LogLine) := do
  let color := challengerColor number
  match ← playOn timed color maxPly [] (newMatch pairing settings number fresh) with
  | (.error e, log, _) => return (.error e, log)
  | (.ok (), log, g) =>
    return (.ok { number, challengerColor := color, winner := g.position.side.opponent
                  plies := g.position.ply
                  challengerTime := g.challengerTime, challengerMoves := g.challengerMoves
                  opponentTime := g.opponentTime, opponentMoves := g.opponentMoves }, log)

/-- Plays games in order up to the first failure. -/
def playGames (pairing : Pairing) (settings : Settings) (fresh : Nat → FreshKeys) :
    List Nat → m (Except Error (List Game) × List LogLine)
  | [] => return (.ok [], [])
  | number :: numbers => do
    match ← playGame timed pairing settings number (fresh number) with
    | (.error e, log) => return (.error e, log)
    | (.ok game, log) =>
      let (games, rest) ← playGames pairing settings fresh numbers
      return (games.map (game :: ·), log ++ [game.line] ++ rest)

end Play

/-! ## Results -/

structure Results where
  challenger : PlayerKind
  opponent : PlayerKind
  games : List Game
  challengerWins : Nat
  whiteWins : Nat
  blackWins : Nat
  meanPlies : Float32
  challengerMs : Float
  opponentMs : Float

/-- A quotient of two counts in single precision, zero if there is nothing to divide by. -/
def quotient (a b : Nat) : Float32 :=
  if b = 0 then 0.0 else a.toUInt64.toFloat32 / b.toUInt64.toFloat32

/-- The part of the games that the challenger has won. -/
def Results.winRate (r : Results) : Float32 := quotient r.challengerWins r.games.length

def seconds (nanoseconds : Nat) : Float :=
  (nanoseconds / 1000000000).toUInt64.toFloat + (nanoseconds % 1000000000).toUInt64.toFloat / 1e9

/-- Milliseconds per move, zero if there were no moves. -/
def msPerMove (nanoseconds moves : Nat) : Float :=
  if moves = 0 then 0.0 else seconds nanoseconds * 1000.0 / moves.toUInt64.toFloat

/-- A number taken from every game, added up. -/
def total (f : Game → Nat) (games : List Game) : Nat := games.foldr (fun g n => f g + n) 0

/-- Counts the results of games. Plies and moves are added as 32-bit numbers. -/
def results (pairing : Pairing) (games : List Game) : Results :=
  { challenger := pairing.challenger
    opponent := pairing.opponent
    games
    challengerWins := games.countP Game.challengerWon
    whiteWins := games.countP fun g => g.winner = .white
    blackWins := games.length - games.countP fun g => g.winner = .white
    meanPlies := quotient (total Game.plies games % UInt32.size) games.length
    challengerMs :=
      msPerMove (total Game.challengerTime games) (total Game.challengerMoves games % UInt32.size)
    opponentMs :=
      msPerMove (total Game.opponentTime games) (total Game.opponentMoves games % UInt32.size) }

def play {m : Type → Type} [Monad m] (timed : {β : Type} → (Unit → β) → m (β × Nat))
    (pairing : Pairing) (settings : Settings) (fresh : Nat → FreshKeys) :
    m (Except Error Results × List LogLine) := do
  let (games, log) ← playGames timed pairing settings fresh (List.range' 1 pairing.games)
  return (games.map (results pairing), log)

def startLine (pairing : Pairing) : LogLine :=
  let parallel := if pairing.parallel then ", parallel" else ""
  .info s!"Starting arena: {pairing.challenger.name} vs {pairing.opponent.name} ({pairing.games} games{parallel})"

/-! ## Reports -/

namespace Results

def toDoc (r : Results) : Json.Doc :=
  .object [("challenger", .string r.challenger.name), ("opponent", .string r.opponent.name),
    ("total_games", .nat r.games.length), ("challenger_wins", .nat r.challengerWins),
    ("white_wins", .nat r.whiteWins), ("black_wins", .nat r.blackWins),
    ("win_rate", .float32 r.winRate), ("avg_plies", .float32 r.meanPlies),
    ("challenger_ms_per_move", .float r.challengerMs), ("opponent_ms_per_move", .float r.opponentMs),
    ("games", .list (r.games.map Game.toDoc))]

/-- A count with its part of all games. -/
def share (r : Results) (count : Nat) : String :=
  let percent : Float32 := quotient count r.games.length * 100.0
  s!"{count} ({Decimal.fixed 1 (.ofFloat32 percent)}%)"

/-- Milliseconds with two places. -/
def msText (x : Float) : String := Decimal.fixed 2 (.ofFloat x)

def lines (r : Results) : List String :=
  [ "",
    "=== Arena Results ===",
    s!"{r.challenger.name} vs {r.opponent.name}",
    s!"Total games: {r.games.length}",
    s!"Challenger wins: {r.share r.challengerWins}",
    s!"White wins:      {r.share r.whiteWins}",
    s!"Black wins:      {r.share r.blackWins}",
    s!"Average plies:   {Decimal.fixed 1 (.ofFloat32 r.meanPlies)}",
    s!"Think time:      challenger {msText r.challengerMs} ms/move, opponent {msText r.opponentMs} ms/move" ]

def report (r : Results) (asDocument : Bool) : String :=
  if asDocument then r.toDoc.pretty ++ "\n" else String.join (r.lines.map (· ++ "\n"))

end Results

end Arena

end Breakthrough
