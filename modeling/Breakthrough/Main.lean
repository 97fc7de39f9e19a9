import Breakthrough.Program

/-!
# The program on a real machine

What `Program.run` does with values is done here with standard input and output, with the file system,
a clock and the system's source of random numbers. Moves are answered as soon as a turn has been read.
Log lines go to the error stream, those that are only of use when looking for a fault are left out.
-/

namespace Breakthrough.Main

/-- Why the system refused a file operation. -/
def problemOf : IO.Error → FileProblem
  | .noFileOrDirectory .. => .notFound
  | .alreadyExists .. => .alreadyExists
  | .inappropriateType .. => .notADirectory
  | .invalidArgument .. => .invalidInput
  | _ => .other

/-- An operation whose refusal is a value. -/
def attempt {β : Type} (action : IO β) : IO (Except FileProblem β) := do
  try return .ok (← action) catch e => return .error (problemOf e)

def say (lines : List LogLine) : IO Unit := do
  for line in LogLine.upTo .info lines do
    IO.eprintln line.render

def freshWord : IO UInt32 := do
  return (← IO.getRandomBytes 4).foldl (fun word byte => word <<< 8 ||| byte.toUInt32) 0

def freshKey : IO ChaCha.Key := do
  return ⟨← freshWord, ← freshWord, ← freshWord, ← freshWord, ← freshWord, ← freshWord, ← freshWord,
    ← freshWord⟩

/-- Keys for the players of a game. -/
def freshKeys : IO FreshKeys := do
  return ⟨← freshKey, ← freshKey⟩

/-- The settings of a file, or the usual ones when no file is named. -/
def load (path? : Option String) : IO (Except Failure Settings × List LogLine) := do
  match path? with
  | none => return (.ok .default, [])
  | some path => return Settings.ofFile path (← attempt (IO.FS.readBinFile path))

def ensureDir (path : String) : IO (Except FileProblem Unit) := do
  match ← attempt (IO.FS.createDir path) with
  | .error .alreadyExists => attempt (IO.FS.createDirAll path)
  | result => return result

/-- Makes a directory. When something above it is missing, the directories along its parent are made
first. The empty path asks for nothing. -/
def createDir (path : String) : IO (Except FileProblem Unit) := do
  if path.isEmpty then return .ok ()
  else
    match ← ensureDir path with
    | .error .notFound =>
      let parent := Path.parent path
      match ← if parent.isEmpty then pure (.ok ()) else attempt (IO.FS.createDirAll parent) with
      | .error e => return .error e
      | .ok () => ensureDir path
    | result => return result

def makeDir (s : Settings) : IO (Except Failure Unit) := do
  return (← createDir s.treeDir).mapError (.uncreatable s.treeDir)

/-- Writes the file of an answer, if it has one. -/
def store (a : Answer) : IO (Except Failure Unit) := do
  match a.file? with
  | none => return .ok ()
  | some file =>
    let text := (file.dump.map Search.Dump.text).toOption.getD ""
    match ← attempt (IO.FS.writeFile file.path text) with
    | .error problem => return .error (.uncreatable file.path problem)
    | .ok () => return (file.dump.map fun _ => ()).mapError (.unwritable file.path)

/-! ## Playing with a referee -/

/-- The next line of the input, nothing at its end. -/
partial def readLine (input : IO.FS.Stream) (line : Line) : IO Line := do
  match (← input.read 1).toList with
  | [] => return line.reverse
  | byte :: _ => if byte = 10 then return (byte :: line).reverse else readLine input (byte :: line)

/-- The next turn of the input, if there is one. -/
partial def readTurn (input : IO.FS.Stream) (r : TurnReader) : IO (Except Failure (Option Turn)) := do
  match ← readLine input [] with
  | [] => return r.finish
  | line =>
    match r.take .ample line with
    | .error e => return .error e
    | .ok (.inl r) => readTurn input r
    | .ok (.inr turn) => return .ok (some turn)

/-- Writes a move and flushes the output. -/
def send (output : IO.FS.Stream) (m : Move) : IO (Except Failure Unit) := do
  match ← attempt (output.putStr (m.text ++ "\n")) with
  | .error problem => return .error (.outputUnwritable problem)
  | .ok () => return (← attempt output.flush).mapError .outputUnflushed

/-- Serves turns until the input ends; the result is the number of moves answered. -/
partial def serve (input output : IO.FS.Stream) (s : Session) : IO (Except Failure Nat) := do
  match ← readTurn input .start with
  | .error e => return .error e
  | .ok none => return .ok s.moves
  | .ok (some turn) =>
    let (answer, lines, s) := s.think turn
    say lines
    match answer with
    | .error e => return .error e
    | .ok none => return .ok s.moves
    | .ok (some answer) =>
      match ← store answer with
      | .error e => return .error e
      | .ok () =>
        match ← send output answer.move with
        | .error e => return .error e
        | .ok () =>
          match s.commit answer.move with
          | (.error e, _, _) => return .error e
          | (.ok (), lines, s) =>
            say lines
            serve input output s

def play (settings : Settings) (agent : PlayerKind) : IO (Except Failure Unit) := do
  say [Program.playLine agent]
  match ← if settings.dumpTree then makeDir settings else pure (.ok ()) with
  | .error e => return .error e
  | .ok () =>
    match ← serve (← IO.getStdin) (← IO.getStdout)
        (Program.newSession settings agent (← freshKey)) with
    | .error e => return .error e
    | .ok n =>
      say [Program.playedLine n]
      return .ok ()

/-! ## The other commands -/

/-- The result of a computation and how long it took. -/
def timed {β : Type} (f : Unit → β) : IO (β × Nat) := do
  let start ← IO.monoNanosNow
  let result ← IO.lazyPure f
  return (result, (← IO.monoNanosNow) - start)

def arena (settings : Settings) (pairing : Arena.Pairing) (asDocument : Bool) :
    IO (Except Failure Unit) := do
  say [Arena.startLine pairing]
  let spare ← freshKeys
  let keys ← (List.range pairing.games).mapM fun _ => freshKeys
  let (results, lines) ← Arena.play timed pairing settings fun number => keys.getD (number - 1) spare
  say lines
  match results with
  | .error e => return .error (.refused e)
  | .ok r =>
    IO.print (r.report asDocument)
    return .ok ()

/-- Plays a game to its end and writes it down. -/
partial def writeDown (g : TreeGame) : IO (Except Failure TreeGame) := do
  if g.position.isLost then return .ok g
  else
    let (answer, lines, g) := g.think
    say lines
    match answer with
    | .error e => return .error e
    | .ok answer =>
      match ← store answer with
      | .error e => return .error e
      | .ok () =>
        match g.commit answer with
        | (.error e, _) => return .error e
        | (.ok (), g) => writeDown g

def dumpTree (settings : Settings) : IO (Except Failure Unit) := do
  match ← makeDir settings with
  | .error e => return .error e
  | .ok () =>
    match ← writeDown (.new settings (← freshKeys)) with
    | .error e => return .error e
    | .ok g =>
      say [g.endLine, Program.writtenLine settings g.written.length]
      return .ok ()

def execute (command : Command) (settings : Settings) : IO (Except Failure Unit) :=
  match command with
  | .play agent _ => play settings agent
  | .arena pairing asDocument => arena settings pairing asDocument
  | .dumpTree .. => dumpTree settings

def start (i : Invocation) : IO (Except Failure Unit) := do
  let (settings, lines) ← load i.config
  say lines
  match settings with
  | .error e => return .error e
  | .ok settings => execute i.command (Program.settingsFor i settings)

end Breakthrough.Main

open Breakthrough in
def main (args : List String) : IO UInt32 := do
  match CommandLine.parse args with
  | .version =>
    IO.print CommandLine.versionText
    return 0
  | .help =>
    IO.print CommandLine.usageText
    return 0
  | .misuse =>
    IO.eprint CommandLine.usageText
    return 2
  | .run i =>
    let (code, errors) := Program.conclude (← Main.start i)
    IO.eprint errors
    return code.toUInt32
