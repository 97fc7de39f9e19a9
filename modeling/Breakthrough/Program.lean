import Breakthrough.CommandLine
import Breakthrough.Session
import Breakthrough.TreeGame

/-!
# The program as a function

From arguments, input and files to an exit code, output and files. What the program asks the system
for besides is a `Machine`: memory, and keys for players without a seed. A failure ends the program
with code 1 and its message; arguments that cannot be understood with code 2.
-/

namespace Breakthrough.Program

/-- What a run of the program leaves behind. -/
structure Report where
  code : Nat
  output : String
  errors : String
  files : FileTree
  log : List LogLine

/-- What the program is run on. -/
structure Machine where
  memory : Memory
  /-- Keys for the game of this number in a series. A game that is not in a series has number 0. -/
  fresh : Nat → FreshKeys

/-- The settings of a command: those of the file, with the seed and the command's own options. -/
def settingsFor (i : Invocation) (s : Settings) : Settings :=
  let s := { s with seed := i.seed <|> s.seed }
  match i.command with
  | .play _ iterations => { s with iterations := iterations.getD s.iterations }
  | .arena .. => s
  | .dumpTree dir maxNodes =>
    { s with treeDir := dir.getD s.treeDir, maxNodes := maxNodes.getD s.maxNodes }

/-- The session of a command that plays with a referee. -/
def newSession (settings : Settings) (agent : PlayerKind) (fresh : ChaCha.Key) : Session :=
  ⟨settings, .new agent settings none fresh, .start, 0⟩

/-- The log line at the start of a session. -/
def playLine (agent : PlayerKind) : LogLine := .info s!"Playing as {agent.name} agent"

/-- The log line at the end of a session. -/
def playedLine (moves : Nat) : LogLine := .info s!"Session ended after {moves} moves"

/-- The log line after a game has been written down. -/
def writtenLine (settings : Settings) (files : Nat) : LogLine :=
  .info s!"Wrote {files} trees to {settings.treeDir}"

def play (machine : Machine) (settings : Settings) (agent : PlayerKind) (input : List UInt8)
    (files : FileTree) : Except Failure Unit × List LogLine × String × FileTree :=
  let begun := playLine agent
  let (made, files) := if settings.dumpTree then TreeFile.makeDir settings files else (.ok (), files)
  match made with
  | .error e => (.error e, [begun], "", files)
  | .ok () =>
    let session := newSession settings agent (machine.fresh 0).first
    match session.run machine.memory ⟨files, [], none⟩ input with
    | (.error e, log, _, o) => (.error e, begun :: log, o.text, o.files)
    | (.ok n, log, _, o) => (.ok (), begun :: log ++ [playedLine n], o.text, o.files)

def arena (machine : Machine) (settings : Settings) (pairing : Arena.Pairing) (asDocument : Bool) :
    Except Failure Unit × List LogLine × String :=
  let (results, log) := (Arena.play Arena.untimed pairing settings machine.fresh).run
  let log := Arena.startLine pairing :: log
  match results with
  | .error e => (.error (.refused e), log, "")
  | .ok r => (.ok (), log, r.report asDocument)

def dumpTree (machine : Machine) (settings : Settings) (files : FileTree) :
    Except Failure Unit × List LogLine × FileTree :=
  match TreeGame.run settings (machine.fresh 0) files with
  | (.error e, log, files) => (.error e, log, files)
  | (.ok paths, log, files) =>
    (.ok (), log ++ [writtenLine settings paths.length], files)

def execute (machine : Machine) (command : Command) (settings : Settings) (input : List UInt8)
    (files : FileTree) : Except Failure Unit × List LogLine × String × FileTree :=
  match command with
  | .play agent _ => play machine settings agent input files
  | .arena pairing asDocument =>
    let (result, log, output) := arena machine settings pairing asDocument
    (result, log, output, files)
  | .dumpTree .. =>
    let (result, log, files) := dumpTree machine settings files
    (result, log, "", files)

/-- The exit code of a result, and what is written to the error stream. -/
def conclude : Except Failure Unit → Nat × String
  | .ok () => (0, "")
  | .error .outOfMemory => (134, "")
  | .error e => if e.isFatal then (101, "") else (1, s!"Error: {e.message}\n")

def run (machine : Machine) (args : List String) (input : List UInt8) (files : FileTree) : Report :=
  match CommandLine.parse args with
  | .version => ⟨0, CommandLine.versionText, "", files, []⟩
  | .help => ⟨0, CommandLine.usageText, "", files, []⟩
  | .misuse => ⟨2, "", CommandLine.usageText, files, []⟩
  | .run i =>
    match Settings.load i.config files with
    | (.error e, log) =>
      let (code, errors) := conclude (.error e)
      ⟨code, "", errors, files, log⟩
    | (.ok settings, log) =>
      let (result, lines, output, files) :=
        execute machine i.command (settingsFor i settings) input files
      let (code, errors) := conclude result
      ⟨code, output, errors, files, log ++ lines⟩

end Breakthrough.Program
