import Breakthrough.Agent.Greedy
import Breakthrough.Failure
import Breakthrough.Json.Printer
import Breakthrough.Json.Record
import Breakthrough.Search.Engine

/-!
# Settings

All commands share one set of settings, read from a JSON document. Fields that the document leaves
out keep their usual values. Some fields have a second, older name.
-/

namespace Breakthrough

structure Settings where
  /-- Iterations of the tree search per move. -/
  iterations : Nat
  /-- The weight of the tree search's bonus for neglected edges. -/
  exploration : Float
  /-- Playouts that give a new edge its value. -/
  samples : Nat
  /-- Whether a session writes the searched graph after each of its moves. -/
  dumpTree : Bool
  /-- Where searched graphs are written. -/
  treeDir : String
  /-- What the names of such files begin with. -/
  treePrefix : String
  /-- The most nodes of a written graph. -/
  maxNodes : Nat
  /-- The greedy agent's chance of sampling a random move. -/
  epsilon : Float
  /-- The greedy agent's playouts per move. -/
  greedyIterations : Nat
  seed : Option UInt64

namespace Settings

def default : Settings where
  iterations := 300
  exploration := 1.4
  samples := 1
  dumpTree := false
  treeDir := "view/data/jsontree"
  treePrefix := "jsontree_ply_"
  maxNodes := 1000
  epsilon := 0.3
  greedyIterations := 5000
  seed := none

/-- The fields in the order in which they are written. -/
def fields : List (Json.Field Settings) :=
  [ .of ["iterations"] (Json.below? Json.bound32) fun s v => { s with iterations := v },
    .of ["exploration", "exp_cst"] Json.float? fun s v => { s with exploration := v },
    .of ["initial_samples", "init_samples"] (Json.below? Json.bound32) fun s v =>
      { s with samples := v },
    .of ["dump_tree"] Json.bool? fun s v => { s with dumpTree := v },
    .of ["tree_dir", "jsontree_datadir"] Json.text? fun s v => { s with treeDir := v },
    .of ["tree_prefix", "jsontree_fn"] Json.text? fun s v => { s with treePrefix := v },
    .of ["max_nodes"] (Json.below? Json.bound64) fun s v => { s with maxNodes := v },
    .of ["epsilon"] Json.float? fun s v => { s with epsilon := v },
    .of ["greedy_iterations"] (Json.below? Json.bound32) fun s v => { s with greedyIterations := v },
    .of ["seed"] Json.seed? fun s v => { s with seed := v } ]

def parse? (text : String) : Option Settings := do
  Json.Field.readWithDefaults fields default (← Json.parse? text)

def toDoc (s : Settings) : Json.Doc :=
  .object [("iterations", .nat s.iterations), ("exploration", .float s.exploration),
    ("initial_samples", .nat s.samples), ("dump_tree", .bool s.dumpTree),
    ("tree_dir", .string s.treeDir), ("tree_prefix", .string s.treePrefix),
    ("max_nodes", .nat s.maxNodes), ("epsilon", .float s.epsilon),
    ("greedy_iterations", .nat s.greedyIterations), ("seed", .optionNat (s.seed.map UInt64.toNat))]

/-- Whether settings say the same; directories are compared name by name. -/
def agree (a b : Settings) : Bool :=
  a.iterations == b.iterations && a.exploration == b.exploration && a.samples == b.samples
    && a.dumpTree == b.dumpTree && Path.components a.treeDir == Path.components b.treeDir
    && a.treePrefix == b.treePrefix && a.maxNodes == b.maxNodes && a.epsilon == b.epsilon
    && a.greedyIterations == b.greedyIterations && a.seed == b.seed

def floatLayout : Decimal.Layout where
  plainFrom := -4
  plainBelow := 16
  plusSign := ""
  nan := "NaN"
  infinity := "inf"
  negativeInfinity := "-inf"

def floatText (x : Float) : String := floatLayout.render (.ofFloat x)

def describe (s : Settings) : String :=
  let seed := s.seed.elim "None" fun n => s!"Some({n.toNat})"
  s!"EngineConfig \x7b iterations: {s.iterations}, exploration: {floatText s.exploration}, "
    ++ s!"initial_samples: {s.samples}, dump_tree: {s.dumpTree}, "
    ++ s!"tree_dir: {Text.quoted s.treeDir}, tree_prefix: {Text.quoted s.treePrefix}, "
    ++ s!"max_nodes: {s.maxNodes}, epsilon: {floatText s.epsilon}, "
    ++ s!"greedy_iterations: {s.greedyIterations}, seed: {seed} \x7d"

/-- Settings from the bytes of a file, or from the reason why there are none. -/
def ofFile (path : String) (content : Except FileProblem ByteArray) :
    Except Failure Settings × List LogLine :=
  match content with
  | .error problem => (.error (.settingsUnreadable path problem), [])
  | .ok bytes =>
    match String.fromUTF8? bytes with
    | none => (.error (.settingsUnreadable path .invalidData), [])
    | some text =>
      match parse? text with
      | none => (.error (.settingsMalformed path), [])
      | some s => (.ok s, [.info s!"Loaded config from {path}", .debug s.describe])

/-- Settings of a file, or the usual ones when no file is named. -/
def load (path? : Option String) (files : FileTree) : Except Failure Settings × List LogLine :=
  match path? with
  | none => (.ok default, [])
  | some path => ofFile path (files.read path)

def search (s : Settings) : Search.Config Float := ⟨s.iterations, s.exploration, s.samples, s.seed⟩

def greedy (s : Settings) : Greedy.Config :=
  { Greedy.Config.default with epsilon := s.epsilon, iterations := s.greedyIterations }

/-- The file that the graph searched at a ply is written to. -/
def treePath (s : Settings) (ply : Nat) : String :=
  Path.join s.treeDir s!"{s.treePrefix}{ply}.json"

end Settings

def Search.Config.fields : List (Json.Field (Search.Config Float)) :=
  [ .of ["iterations"] (Json.below? Json.bound32) fun c v => { c with iterations := v },
    .of ["exploration"] Json.float? fun c v => { c with exploration := v },
    .of ["initial_samples"] (Json.below? Json.bound32) fun c v => { c with samples := v },
    { Json.Field.of ["seed"] Json.seed? (fun c v => { c with seed := v }) with optional := true } ]

/-- Reads settings of the tree search, which must be complete. -/
def Search.Config.parse? (text : String) : Option (Search.Config Float) := do
  Json.Field.readComplete fields default (← Json.parse? text)

def Search.Config.toDoc (c : Search.Config Float) : Json.Doc :=
  .object [("iterations", .nat c.iterations), ("exploration", .float c.exploration),
    ("initial_samples", .nat c.samples), ("seed", .optionNat (c.seed.map UInt64.toNat))]

def Greedy.Config.fields : List (Json.Field Greedy.Config) :=
  [ .of ["epsilon"] Json.float? fun c v => { c with epsilon := v },
    .of ["iterations"] (Json.below? Json.bound32) fun c v => { c with iterations := v },
    .of ["warmup_samples"] (Json.below? Json.bound32) fun c v => { c with warmup := v } ]

/-- Reads settings of the greedy agent, which must be complete. -/
def Greedy.Config.parse? (text : String) : Option Greedy.Config := do
  Json.Field.readComplete fields default (← Json.parse? text)

def Greedy.Config.toDoc (c : Greedy.Config) : Json.Doc :=
  .object [("epsilon", .float c.epsilon), ("iterations", .nat c.iterations),
    ("warmup_samples", .nat c.warmup)]

def Move.ofDocument? (text : String) : Option Move := do
  Move.ofText? (← (← Json.parse? text).text?)

/-- Reads a side from a document: its name, or an object with the name as its only key and null as
the value. -/
def Color.ofDocument? (text : String) : Option Color := do
  match ← Json.parse? text with
  | .string name => Color.ofName? name
  | .object [(name, .null)] => Color.ofName? name
  | _ => none

end Breakthrough
