import Breakthrough.Arena
import Breakthrough.Turn

/-!
# The command line

    breakthrough [--config FILE] [--seed N] play [--agent AGENT] [--iterations N]
    breakthrough [--config FILE] [--seed N] arena [--challenger AGENT] [--opponent AGENT]
                 [--games N] [--parallel] [--json]
    breakthrough [--config FILE] [--seed N] dump-tree [--dir DIR] [--max-nodes N]

The options before the command may also stand after it, and there they count more. A value follows its
option as the next argument, unless that begins with a hyphen, or after an equals sign. No option is
given twice in one place. Two hyphens alone may end the options.
-/

namespace Breakthrough

/-- What the program is asked to do. -/
inductive Command where
  | play (agent : PlayerKind) (iterations : Option Nat)
  | arena (pairing : Arena.Pairing) (asDocument : Bool)
  | dumpTree (dir : Option String) (maxNodes : Option Nat)

/-- A command with the options that all commands share. -/
structure Invocation where
  config : Option String
  seed : Option UInt64
  command : Command

namespace CommandLine

inductive Request where
  | run (invocation : Invocation)
  | version
  | help
  | misuse

def versionText : String := "breakthrough 0.2.0\n"

def usageText : String :=
  "Usage: breakthrough [--config FILE] [--seed N] <play|arena|dump-tree> [OPTIONS]\n"

/-! ## Values -/

/-- A whole number below a bound, with an optional sign; only zero may be negative. -/
def signedBelow? (bound : Nat) (s : String) : Option Nat :=
  let (negative, digits) := match s.toList with
    | '-' :: rest => (true, rest)
    | '+' :: rest => (false, rest)
    | cs => (false, cs)
  if digits.isEmpty ∨ !digits.all Char.isDigit then none
  else
    let n := Decimal.Literal.value (digits.map fun c => c.toNat - '0'.toNat)
    if n < bound ∧ (!negative ∨ n = 0) then some n else none

def count? (s : String) : Option Nat := (parseCount s).toOption

/-- A path, which is never empty. -/
def path? (s : String) : Option String := if s.isEmpty then none else some s

/-! ## Options -/

/-- An option: its name, and how it is taken over. -/
inductive Switch (β : Type) where
  /-- An option without a value. -/
  | flag (name : String) (set : β → β)
  /-- An option with a value, which may be refused. -/
  | value (name : String) (set : String → β → Option β)

def Switch.name {β : Type} : Switch β → String
  | flag name _ => name
  | value name _ => name

/-- How far the arguments have been read. -/
inductive Reading (β : Type) where
  /-- Only options, now all read. -/
  | finished (options : β)
  /-- The first argument that is no option, and those after it. -/
  | stopped (options : β) (word : String) (rest : List String)
  | version
  | help
  | misuse

def isOption (arg : String) : Bool := arg.startsWith "-" && arg != "-"

/-- The value of an option: after its equals sign, or the next argument. -/
def takeValue (inline : Option String) (rest : List String) : Option (String × List String) :=
  match inline with
  | some v => some (v, rest)
  | none =>
    match rest with
    | v :: rest => if isOption v then none else some (v, rest)
    | [] => none

/-- An argument cut at its first equals sign. -/
def splitInline (arg : String) : String × Option String :=
  match arg.splitOn "=" with
  | name :: v :: vs => (name, some ("=".intercalate (v :: vs)))
  | _ => (arg, none)

/-- Takes over one option by its name; the number of its switch, the options and the arguments that
are left come back. -/
def takeSwitch {β : Type} (switches : List (Switch β)) (name : String) (inline : Option String)
    (rest : List String) (options : β) : Option (β × List String) :=
  match switches.find? fun s => s.name == name with
  | none => none
  | some (.flag _ set) => if inline.isSome then none else some (set options, rest)
  | some (.value _ set) => do
    let (v, rest) ← takeValue inline rest
    return (← set v options, rest)

/-- Reads options up to the first argument that is none, at most `fuel` of them; `given` are the names
seen, and `hasVersion` tells whether the version can be asked for here. -/
def readSwitches {β : Type} (switches : List (Switch β)) (hasVersion : Bool) :
    (fuel : Nat) → (given : List String) → β → List String → Reading β
  | 0, _, _, _ => .misuse
  | _, _, options, [] => .finished options
  | fuel + 1, given, options, arg :: rest =>
    if arg = "--" then (if rest.isEmpty then .finished options else .misuse)
    else if arg.startsWith "--" then
      let (name, inline) := splitInline arg
      if name = "--help" ∧ inline.isNone then .help
      else if name = "--version" ∧ inline.isNone ∧ hasVersion then .version
      else if given.contains name then .misuse
      else
        match takeSwitch switches name inline rest options with
        | none => .misuse
        | some (options, rest) =>
          readSwitches switches hasVersion fuel (name :: given) options rest
    else if isOption arg then
      if arg.startsWith "-h" then .help
      else if arg.startsWith "-V" ∧ hasVersion then .version
      else .misuse
    else .stopped options arg rest

/-! ## Commands -/

structure Shared where
  config : Option String := none
  seed : Option UInt64 := none

/-- Values of the second argument where there are any, otherwise those of the first. -/
def Shared.overriddenBy (outer inner : Shared) : Shared :=
  ⟨inner.config <|> outer.config, inner.seed <|> outer.seed⟩

/-- The shared options as part of a larger record. -/
def sharedSwitches {β : Type} (get : β → Shared) (put : Shared → β → β) : List (Switch β) :=
  [ .value "--config" fun v b => (path? v).map fun path => put { get b with config := some path } b,
    .value "--seed" fun v b =>
      (count? v).map fun n => put { get b with seed := some n.toUInt64 } b ]

/-- The name of an option for an agent. -/
def agentSwitch {β : Type} (name : String) (put : PlayerKind → β → β) : Switch β :=
  .value name fun v b => (PlayerKind.ofName? v).map fun kind => put kind b

def readCommand {β : Type} (switches : List (Switch (Shared × β))) (initial : β)
    (args : List String) (outer : Shared) (build : β → Command) : Request :=
  let all := sharedSwitches Prod.fst (fun s b => (s, b.2)) ++ switches
  match readSwitches all false (args.length + 1) [] ({}, initial) args with
  | .finished (inner, own) =>
    let shared := outer.overriddenBy inner
    .run ⟨shared.config, shared.seed, build own⟩
  | .help => .help
  | _ => .misuse

def playSwitches : List (Switch (Shared × PlayerKind × Option Nat)) :=
  [ agentSwitch "--agent" fun kind (s, _, n) => (s, kind, n),
    .value "--iterations" fun v (s, kind, _) =>
      (signedBelow? UInt32.size v).map fun n => (s, kind, some n) ]

def arenaSwitches : List (Switch (Shared × Arena.Pairing × Bool)) :=
  [ agentSwitch "--challenger" fun kind (s, p, d) => (s, { p with challenger := kind }, d),
    agentSwitch "--opponent" fun kind (s, p, d) => (s, { p with opponent := kind }, d),
    .value "--games" fun v (s, p, d) => (count? v).map fun n => (s, { p with games := n }, d),
    .flag "--parallel" fun (s, p, d) => (s, { p with parallel := true }, d),
    .flag "--json" fun (s, p, _) => (s, p, true) ]

def dumpTreeSwitches : List (Switch (Shared × Option String × Option Nat)) :=
  [ .value "--dir" fun v (s, _, n) => (path? v).map fun dir => (s, some dir, n),
    .value "--max-nodes" fun v (s, dir, _) => (count? v).map fun n => (s, dir, some n) ]

/-- The commands by name; help is given on one of them at a time. -/
def commandNames : List String := ["play", "arena", "dump-tree", "help"]

def dispatch (outer : Shared) (word : String) (args : List String) : Request :=
  match word with
  | "play" => readCommand playSwitches (.default, none) args outer fun (kind, n) => .play kind n
  | "arena" =>
    readCommand arenaSwitches (⟨.default, .random, 10, false⟩, false) args outer
      fun (p, d) => .arena p d
  | "dump-tree" =>
    readCommand dumpTreeSwitches (none, none) args outer fun (dir, n) => .dumpTree dir n
  | "help" => if args.length ≤ 1 ∧ args.all commandNames.contains then .help else .misuse
  | _ => .misuse

def parse (args : List String) : Request :=
  match readSwitches (sharedSwitches id fun s _ => s) true (args.length + 1) [] {} args with
  | .stopped shared word rest => dispatch shared word rest
  | .version => .version
  | .help => .help
  | _ => .misuse

end CommandLine

end Breakthrough
