import Breakthrough.Error
import Breakthrough.Files

/-!
# Failures of a run

What ends a command: a refusal by the rules or the search, input that cannot be understood, files that
cannot be read or written. `Failure.message` says it in words, `Failure.cause?` names what lies
behind it.
-/

namespace Breakthrough

/-- Why a text is no whole number. -/
inductive NumberProblem where
  | invalidDigit
  | tooLarge
  deriving DecidableEq, Repr

inductive Cause where
  | refusal (error : Error)
  | document
  | file (problem : FileProblem)
  | number (problem : NumberProblem)

inductive Failure where
  /-- A player or the rules refused. -/
  | refused (error : Error)
  /-- The opponent's move is not legal. -/
  | illegalReply (move : Move) (ply : Nat)
  /-- A line of the input is not text. -/
  | inputUnreadable
  | badReply (text : String)
  | countMissing
  | badCount (text : String) (problem : NumberProblem)
  /-- No list can hold as many moves as were announced; the run cannot go on. -/
  | countTooLarge
  /-- The system has no room for the announced list; the run cannot go on. -/
  | outOfMemory
  | listCutShort
  | badListedMove (text : String)
  | outputUnwritable (problem : FileProblem)
  | outputUnflushed (problem : FileProblem)
  /-- A directory or a file could not be made. -/
  | uncreatable (path : String) (problem : FileProblem)
  /-- The searched graph could not be written to a file. -/
  | unwritable (path : String) (error : Error)
  | settingsUnreadable (path : String) (problem : FileProblem)
  | settingsMalformed (path : String)

namespace Failure

def message : Failure → String
  | refused e => e.message
  | illegalReply move ply => s!"Opponent action {move.text} is not legal at ply {ply}"
  | inputUnreadable => "Failed to read input"
  | badReply text => s!"Bad opponent action: {Text.quoted text}"
  | countMissing => "Input ended before the legal action count"
  | badCount text _ => s!"Bad legal action count: {Text.quoted text}"
  | countTooLarge => "the announced list is too long"
  | outOfMemory => "no memory for the announced list"
  | listCutShort => "Input ended inside the legal action list"
  | badListedMove text => s!"Bad legal action: {Text.quoted text}"
  | outputUnwritable _ => "Failed to write action"
  | outputUnflushed _ => "Failed to flush output"
  | uncreatable path _ => s!"Failed to create {path}"
  | unwritable path _ => s!"Failed to write {path}"
  | settingsUnreadable path _ => s!"Failed to read config: {path}"
  | settingsMalformed path => s!"Failed to parse config: {path}"

/-- What lies behind a failure, if it has a cause other than itself. -/
def cause? : Failure → Option Cause
  | refused e => some (.refusal e)
  | illegalReply .. => none
  | inputUnreadable => some (.file .invalidData)
  | badReply text => some (.refusal (.invalidMove text))
  | countMissing => none
  | badCount _ problem => some (.number problem)
  | countTooLarge => none
  | outOfMemory => none
  | listCutShort => none
  | badListedMove text => some (.refusal (.invalidMove text))
  | outputUnwritable problem => some (.file problem)
  | outputUnflushed problem => some (.file problem)
  | uncreatable _ problem => some (.file problem)
  | unwritable _ e => some (.refusal e)
  | settingsUnreadable _ problem => some (.file problem)
  | settingsMalformed _ => some .document

/-- Whether the run ends at once, without a message. -/
def isFatal : Failure → Bool
  | refused e => e.isFatal
  | countTooLarge => true
  | outOfMemory => true
  | _ => false

end Failure

end Breakthrough
