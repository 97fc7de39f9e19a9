/-!
# Log lines

Computations that have something to tell return lines of text with a level, in the order in which
they arose. Who runs them decides which levels to show.
-/

namespace Breakthrough

inductive LogLevel where
  | warn
  | info
  | debug
  deriving DecidableEq, Repr

namespace LogLevel

/-- The level's place, the most important being 0. -/
def rank : LogLevel → Nat
  | warn => 0
  | info => 1
  | debug => 2

def label : LogLevel → String
  | warn => "WARN"
  | info => "INFO"
  | debug => "DEBUG"

def ofName? : String → Option LogLevel
  | "warn" => some warn
  | "info" => some info
  | "debug" => some debug
  | _ => none

end LogLevel

/-- One line of the log. -/
structure LogLine where
  level : LogLevel
  text : String
  deriving DecidableEq, Repr

namespace LogLine

/-- Something that should not have happened. -/
def warn (text : String) : LogLine := ⟨.warn, text⟩

def info (text : String) : LogLine := ⟨.info, text⟩

/-- Something worth knowing when looking for a fault. -/
def debug (text : String) : LogLine := ⟨.debug, text⟩

/-- The line with its level in front. -/
def render (l : LogLine) : String := s!"{l.level.label} {l.text}"

/-- The lines of a level or a more important one. -/
def upTo (level : LogLevel) (lines : List LogLine) : List LogLine :=
  lines.filter fun l => l.level.rank ≤ level.rank

end LogLine

end Breakthrough
