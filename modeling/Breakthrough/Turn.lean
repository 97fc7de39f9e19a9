import Breakthrough.Failure
import Breakthrough.Text.Blank

/-!
# Turns of the referee

Each turn, the referee sends the opponent's last move, or `None` before the first move, then the
number of our legal moves, and then these moves, all on lines of their own. Blank lines and white
space around a line do not matter. A `TurnReader` takes one line after another until a turn is
complete. Room for the moves is asked for as soon as their number is known.
-/

namespace Breakthrough

/-- What the referee sends before we move. -/
structure Turn where
  /-- The opponent's last move. -/
  reply : Option Move
  /-- Our legal moves as the referee sees them. -/
  listed : List Move
  deriving DecidableEq, Repr

/-- A line of the input with its line feed, if it has one. -/
abbrev Line := List UInt8

def splitLines : List UInt8 → List Line
  | [] => []
  | b :: bytes =>
    if b = 10 then [b] :: splitLines bytes
    else
      match splitLines bytes with
      | [] => [[b]]
      | line :: lines => (b :: line) :: lines

/-- The trimmed text of a line, unless its bytes are no text. -/
def lineText? (line : Line) : Option String :=
  (String.fromUTF8? ⟨line.toArray⟩).map Text.trim

/-- A count in decimal digits, with a plus sign if need be, that fits 64 bits. -/
def parseCount (s : String) : Except NumberProblem Nat :=
  let digits := match s.toList with
    | '+' :: rest => rest
    | cs => cs
  if digits.isEmpty then .error .invalidDigit
  else
    digits.foldlM (fun n c =>
      if !c.isDigit then .error .invalidDigit
      else
        let n := 10 * n + (c.toNat - '0'.toNat)
        if n < UInt64.size then .ok n else .error .tooLarge) 0

/-- Which lists the system has room for, told by the number of their moves. -/
structure Memory where
  grants : Nat → Bool

namespace Memory

/-- A list of this many moves takes half of the address space, at two bytes a move. Every list is
smaller than that. -/
def countBound : Nat := UInt64.size / 4

/-- A system that has room for whatever can be addressed. -/
def ample : Memory := ⟨fun _ => true⟩

/-- Whether there is room for a list. The empty one needs none. -/
def holds (memory : Memory) (n : Nat) : Bool := n = 0 || n < countBound && memory.grants n

/-- Makes room for a list. The system is not asked for what cannot be addressed. -/
def reserve (memory : Memory) (n : Nat) : Except Failure Unit :=
  if memory.holds n then .ok ()
  else if n < countBound then .error .outOfMemory
  else .error .countTooLarge

end Memory

/-- How much of a turn has been read. -/
inductive TurnReader where
  /-- Nothing yet. -/
  | start
  /-- The opponent's move. -/
  | replied (reply : Option Move)
  /-- The opponent's move, and how many moves are still to come after those listed, newest first. -/
  | listing (reply : Option Move) (missing : Nat) (listed : List Move)
  deriving DecidableEq, Repr

namespace TurnReader

/-- The reader, or the turn if no move is missing. -/
def settle (reply : Option Move) (missing : Nat) (listed : List Move) : TurnReader ⊕ Turn :=
  if missing = 0 then .inr ⟨reply, listed.reverse⟩ else .inl (.listing reply missing listed)

/-- Takes the text of a line that is not blank. -/
def feed (memory : Memory) (r : TurnReader) (text : String) : Except Failure (TurnReader ⊕ Turn) :=
  match r with
  | start =>
    if text = "None" then .ok (.inl (.replied none))
    else
      match Move.ofText? text with
      | some m => .ok (.inl (.replied (some m)))
      | none => .error (.badReply text)
  | replied reply =>
    match parseCount text with
    | .error problem => .error (.badCount text problem)
    | .ok n => (memory.reserve n).map fun _ => settle reply n []
  | listing reply missing listed =>
    match Move.ofText? text with
    | some m => .ok (settle reply (missing - 1) (m :: listed))
    | none => .error (.badListedMove text)

def finish : TurnReader → Except Failure (Option Turn)
  | start => .ok none
  | replied _ => .error .countMissing
  | listing .. => .error .listCutShort

def take (memory : Memory) (r : TurnReader) (line : Line) : Except Failure (TurnReader ⊕ Turn) :=
  match lineText? line with
  | none => .error .inputUnreadable
  | some text => if text.isEmpty then .ok (.inl r) else r.feed memory text

/-- Reads lines until a turn is complete, the input ends or a line is refused; what is left of the
input comes back. -/
def read (memory : Memory) : TurnReader → List Line → Except Failure (Option Turn) × List Line
  | r, [] => (r.finish, [])
  | r, line :: lines =>
    match r.take memory line with
    | .error e => (.error e, lines)
    | .ok (.inl r) => read memory r lines
    | .ok (.inr turn) => (.ok (some turn), lines)

end TurnReader

def readTurn (memory : Memory) (lines : List Line) : Except Failure (Option Turn) × List Line :=
  TurnReader.start.read memory lines

/-- Reads at most `fuel` turns: those up to the end of the input or the first failure, that failure,
and what is left of the input. -/
def readTurns (memory : Memory) : (fuel : Nat) → List Line → List Turn × Option Failure × List Line
  | 0, lines => ([], none, lines)
  | fuel + 1, lines =>
    match readTurn memory lines with
    | (.error e, lines) => ([], some e, lines)
    | (.ok none, lines) => ([], none, lines)
    | (.ok (some turn), lines) =>
      let (turns, failure, lines) := readTurns memory fuel lines
      (turn :: turns, failure, lines)

end Breakthrough
