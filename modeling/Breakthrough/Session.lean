import Breakthrough.TreeFile
import Breakthrough.Turn

/-!
# A session with the referee

In every turn the opponent's move is checked and played, and the player's answer is written, one move
a line, before it is played as well. The session ends when the input ends, when a side has lost, or at
the first failure. `think` finds the answer of a turn and `commit` plays it; what lies between them,
writing files and output, is `serve` on values here and can be done on real files and streams by who
runs the session.
-/

namespace Breakthrough

/-- A session: who plays, and how far the game has come. -/
structure Session where
  settings : Settings
  player : Player
  position : Position
  /-- Moves answered. -/
  moves : Nat

namespace Session

/-- Moves in the order of their codes. -/
def byCode (moves : List Move) : List Move := moves.mergeSort fun a b => a.code ≤ b.code

/-- A warning if the referee's list is not a reordering of ours. -/
def checkList (p : Position) (listed : List Move) : List LogLine :=
  if byCode p.moves = byCode listed then []
  else
    [.warn s!"Legal action mismatch at ply {p.ply}: referee sent {listed.length}, generated {p.moves.length}"]

/-- Plays the opponent's move, which must be legal. -/
def receive (p : Position) (reply : Option Move) : Except Failure Unit × Position :=
  match reply with
  | none => (.ok (), p)
  | some m =>
    if !p.isLegal m then (.error (.illegalReply m p.ply), p)
    else
      match p.refusal? m with
      | some e => (.error (.refused e), p)
      | none => (.ok (), p.advance m)

/-- The player's move and the file with its graph. -/
def ask (s : Session) : Except Failure Answer × List LogLine × Session :=
  let (answer, lines, player, position) := s.player.choose s.position
  match answer with
  | .error e => (.error (.refused e), lines, { s with player, position })
  | .ok m =>
    match s.settings.dumpTree, player.graph? with
    | true, some graph =>
      let (file, position) := TreeFile.of s.settings graph position
      (.ok ⟨m, some file⟩, lines, { s with player, position })
    | _, _ => (.ok ⟨m, none⟩, lines, { s with player, position })

/-- The answer to a turn, none if the opponent's move has ended the game. -/
def think (s : Session) (turn : Turn) : Except Failure (Option Answer) × List LogLine × Session :=
  match receive s.position turn.reply with
  | (.error e, position) => (.error e, [], { s with position })
  | (.ok (), position) =>
    let s := { s with position }
    if s.position.isLost then
      (.ok none, [.info s!"Game over: {s.position.side.text} has lost"], s)
    else
      let warnings := checkList s.position turn.listed
      let (answer, lines, s) := s.ask
      (answer.map some, warnings ++ lines, s)

/-- Plays an answer that has been written. -/
def commit (s : Session) (m : Move) : Except Failure Unit × List LogLine × Session :=
  match s.position.refusal? m with
  | some e => (.error (.refused e), [], s)
  | none =>
    let s := { s with position := s.position.advance m, moves := s.moves + 1 }
    (.ok (), [.debug s!"ply {s.position.ply}: played {m.text}"], s)

/-! ## On values -/

/-- Where an output fails, if it does. -/
inductive Fault where
  | write
  | flush
  deriving DecidableEq, Repr

/-- The outside of a session: files and what has been written to the output. -/
structure Surroundings where
  files : FileTree
  /-- The lines written, newest first. -/
  output : List String
  fault? : Option Fault

/-- Writes a line and flushes the output. -/
def Surroundings.send (o : Surroundings) (line : String) : Except Failure Unit × Surroundings :=
  match o.fault? with
  | some .write => (.error (.outputUnwritable .other), o)
  | some .flush => (.error (.outputUnflushed .other), { o with output := line :: o.output })
  | none => (.ok (), { o with output := line :: o.output })

/-- Serves one turn; the result tells whether the session goes on. -/
def serve (s : Session) (o : Surroundings) (turn : Turn) :
    Except Failure Bool × List LogLine × Session × Surroundings :=
  match s.think turn with
  | (.error e, log, s) => (.error e, log, s, o)
  | (.ok none, log, s) => (.ok false, log, s, o)
  | (.ok (some answer), log, s) =>
    match answer.store o.files with
    | (.error e, lines, files) => (.error e, log ++ lines, s, { o with files })
    | (.ok (), lines, files) =>
      let o := { o with files }
      let log := log ++ lines
      match o.send (answer.move.text ++ "\n") with
      | (.error e, o) => (.error e, log, s, o)
      | (.ok (), o) =>
        match s.commit answer.move with
        | (.error e, lines, s) => (.error e, log ++ lines, s, o)
        | (.ok (), lines, s) => (.ok true, log ++ lines, s, o)

/-- Serves turns until the input ends, at most `fuel` of them. -/
def serveAll (memory : Memory) : (fuel : Nat) → Session → Surroundings → List Line →
    Except Failure Unit × List LogLine × Session × Surroundings
  | 0, s, o, _ => (.ok (), [], s, o)
  | fuel + 1, s, o, lines =>
    match readTurn memory lines with
    | (.error e, _) => (.error e, [], s, o)
    | (.ok none, _) => (.ok (), [], s, o)
    | (.ok (some turn), lines) =>
      match s.serve o turn with
      | (.error e, log, s, o) => (.error e, log, s, o)
      | (.ok false, log, s, o) => (.ok (), log, s, o)
      | (.ok true, log, s, o) =>
        let (result, rest, s, o) := serveAll memory fuel s o lines
        (result, log ++ rest, s, o)

/-- Runs a session on an input. The result is the number of moves answered. -/
def run (memory : Memory) (s : Session) (o : Surroundings) (input : List UInt8) :
    Except Failure Nat × List LogLine × Session × Surroundings :=
  let lines := splitLines input
  let (result, log, s, o) := serveAll memory (lines.length + 1) s o lines
  (result.map fun _ => s.moves, log, s, o)

/-- Everything that has been written to the output. -/
def Surroundings.text (o : Surroundings) : String := String.join o.output.reverse

end Session

end Breakthrough
