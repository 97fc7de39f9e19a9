import Breakthrough.TreeFile

/-!
# A game that is written down

The tree search plays White against a random Black, and before each of its moves is played the graph
it has searched is written to a file. `think` finds a move and `commit` plays it; the file is written
in between, by `playOn` to a directory tree that is a value.
-/

namespace Breakthrough

structure TreeGame where
  settings : Settings
  engine : Search.Engine Float ChaCha
  rival : RandomAgent ChaCha
  position : Position
  /-- The paths of the files written, newest first. -/
  written : List String

namespace TreeGame

/-- The start of a game; Black draws from the seed after White's. -/
def new (settings : Settings) (fresh : FreshKeys) : TreeGame where
  settings
  engine := .new settings.search (streamOf settings.seed fresh.first) .empty
  rival := ⟨streamOf (settings.seed.map (· + 1)) fresh.second⟩
  position := .start
  written := []

/-- White's move and the file with its graph. -/
def search (g : TreeGame) : Except Failure Answer × List LogLine × TreeGame :=
  let (answer, lines, engine, position) := g.engine.choose g.position
  match answer with
  | .error e => (.error (.refused e), lines, { g with engine, position })
  | .ok m =>
    let (file, position) := TreeFile.of g.settings engine.graph position
    (.ok ⟨m, some file⟩, lines, { g with engine, position })

def think (g : TreeGame) : Except Failure Answer × List LogLine × TreeGame :=
  match g.position.side with
  | .white => g.search
  | .black =>
    let (answer, rival) := g.rival.choose g.position
    ((answer.map fun m => ⟨m, none⟩).mapError .refused, [], { g with rival })

/-- Plays an answer whose file has been written. -/
def commit (g : TreeGame) (a : Answer) : Except Failure Unit × TreeGame :=
  let g := { g with written := (a.file?.map TreeFile.path).toList ++ g.written }
  match g.position.refusal? a.move with
  | some e => (.error (.refused e), g)
  | none => (.ok (), { g with position := g.position.advance a.move })

/-- Plays on to the end of the game; `room` is the number of moves that the history has space for. -/
def playOn : (room : Nat) → (log : List LogLine) → TreeGame → FileTree →
    Except Failure Unit × List LogLine × TreeGame × FileTree
  | room, log, g, files =>
    if g.position.isLost then (.ok (), log, g, files)
    else
      match g.think with
      | (.error e, lines, g) => (.error e, log ++ lines, g, files)
      | (.ok answer, lines, g) =>
        match answer.store files with
        | (.error e, stored, files) => (.error e, log ++ lines ++ stored, g, files)
        | (.ok (), stored, files) =>
          let log := log ++ lines ++ stored
          match g.commit answer with
          | (.error e, g) => (.error e, log, g, files)
          | (.ok (), g) =>
            match room with
            | 0 => (.error (.refused (.plyLimit maxPly)), log, g, files)
            | room + 1 => playOn room log g files

/-- The log line at the end of the game. -/
def endLine (g : TreeGame) : LogLine :=
  .info s!"Game over after {g.position.ply} plies, {g.position.side.opponent.text} wins"

/-- Plays a whole game. The result are the paths of the files, in the order of their plies. -/
def run (settings : Settings) (fresh : FreshKeys) (files : FileTree) :
    Except Failure (List String) × List LogLine × FileTree :=
  match TreeFile.makeDir settings files with
  | (.error e, files) => (.error e, [], files)
  | (.ok (), files) =>
    match playOn maxPly [] (new settings fresh) files with
    | (.error e, log, _, files) => (.error e, log, files)
    | (.ok (), log, g, files) => (.ok g.written.reverse, log ++ [g.endLine], files)

end TreeGame

end Breakthrough
