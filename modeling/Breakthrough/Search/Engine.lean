import Breakthrough.Log
import Breakthrough.Search.Graph
import Breakthrough.Search.Rollout

/-!
# Monte Carlo tree search

One iteration walks the position down the graph along the preferred edges until it meets a node that
is unvisited or terminal, expands an unvisited one, and walks back up: every edge on the path gets
the reward as its player sees it, and its move is taken back. The answer is the most visited move at
the root. The graph stays with the engine from one search to the next.

`descend`, `expand`, `creditPath` and `abandonPath` are the phases. Each of them returns the engine
and the position it leaves behind, also when it fails.
-/

namespace Breakthrough

namespace Search

structure Config (α : Type) where
  /-- Iterations per search. -/
  iterations : Nat
  /-- The weight of the bonus for neglected edges. -/
  exploration : α
  /-- Playouts that give a new edge its value. -/
  samples : Nat
  seed : Option UInt64

def Config.default : Config Float := ⟨300, 1.4, 1, none⟩

/-- What the engine has done since it was last reset. -/
structure Stats where
  searches : Nat := 0
  iterations : Nat := 0
  selections : Nat := 0
  expansions : Nat := 0
  terminalHits : Nat := 0
  rollouts : Nat := 0
  deriving DecidableEq, Repr

def Stats.text (s : Stats) : String :=
  s!"SearchStats \x7b searches: {s.searches}, iterations: {s.iterations}, selections: {s.selections}, expansions: {s.expansions}, terminal_hits: {s.terminalHits}, rollouts: {s.rollouts} \x7d"

/-- A step of the path: the node left and the place of the edge taken. -/
structure Step where
  node : Nat
  edge : Nat
  deriving DecidableEq, Repr

structure Engine (α σ : Type) where
  config : Config α
  graph : Graph α
  sampler : Sampler σ
  /-- The way from the root to the current position, newest step first. -/
  path : List Step
  stats : Stats

namespace Engine

variable {α σ : Type} [Score α] [Confidence α] [RandomSource σ]

/-- An engine with a graph to start from. -/
def new (config : Config α) (source : σ) (graph : Graph α) : Engine α σ :=
  ⟨config, graph, .new source, [], {}⟩

/-- The engine without its graph and its counters, for a new game. -/
def reset (e : Engine α σ) : Engine α σ :=
  { e with graph := .empty, path := [], stats := {}, sampler := e.sampler.resetCount }

/-! ## Phases -/

/-- Follows preferred edges from a node until one that is unvisited or terminal. A node is counted as
visited before its edge is chosen. The way down ends because the history has room for `maxPly` moves
only. -/
def descend (e : Engine α σ) (p : Position) (id : Nat) : Except Error Nat × Engine α σ × Position :=
  let node := e.graph.node id
  if !node.isVisited || node.isTerminal then
    (.ok id, { e with stats.selections := e.stats.selections + 1 }, p)
  else
    let e := { e with graph := e.graph.modify id Node.visit }
    let i := Node.preferred node.edges node.visit.visits e.config.exploration
    match node.edges[i]? with
    | none => (.error .brokenPath, e, p)
    | some edge =>
      match _ : p.refusal? edge.move with
      | some err => (.error err, e, p)
      | none =>
        let p := p.advance edge.move
        let (child, graph) := e.graph.locate p.hash
        descend { e with graph, path := ⟨id, i⟩ :: e.path } p child
termination_by maxPly - p.depth
decreasing_by exact Position.room_advance_lt ‹_›

/-- Gives every move an edge with a sampled value, in the order of the moves. -/
def seedEdges (samples : Nat) : List Move → Sampler σ → Position →
    Except Error (List (Edge α)) × Sampler σ × Position
  | [], s, p => (.ok [], s, p)
  | m :: moves, s, p =>
    match s.sample p m samples with
    | (.error e, s, p) => (.error e, s, p)
    | (.ok value, s, p) =>
      match seedEdges samples moves s p with
      | (.error e, s, p) => (.error e, s, p)
      | (.ok edges, s, p) => (.ok (⟨m, 0, value⟩ :: edges), s, p)

/-- Edges by falling value, those of equal value in the order they had. -/
def sortEdges (edges : List (Edge α)) : List (Edge α) :=
  edges.mergeSort fun a b => !Score.lt a.total b.total

/-- Makes a node visited, with an edge for every legal move, none when the position is lost. -/
def expand (e : Engine α σ) (p : Position) (id : Nat) : Except Error Unit × Engine α σ × Position :=
  let moves := if p.isLost then [] else p.moves
  match seedEdges e.config.samples moves e.sampler p with
  | (.error err, sampler, p) => (.error err, { e with sampler }, p)
  | (.ok edges, sampler, p) =>
    let edges := (sortEdges edges).toArray
    let e := { e with
      sampler
      graph := e.graph.modify id fun n => { n with edges, visits := 1 }
      stats.expansions := e.stats.expansions + 1 }
    (.ok (), e, p)

/-- Credits the edges of a path, the reward changing sides at every step, and takes their moves
back. The path that is left is empty unless a step fails. -/
def creditPath : List Step → (reward : α) → Graph α → Position →
    Except Error Unit × List Step × Graph α × Position
  | [], _, graph, p => (.ok (), [], graph, p)
  | step :: path, reward, graph, p =>
    match (graph.node step.node).edges[step.edge]? with
    | none => (.error .brokenPath, path, graph, p)
    | some edge =>
      let graph := graph.credit step.node step.edge reward
      match p.takeBackRefusal? edge.move with
      | some err => (.error err, path, graph, p)
      | none => creditPath path (Score.one - reward) graph p.retract

/-- Takes back the moves of a path that a failed iteration has left, as far as they match. -/
def abandonPath (graph : Graph α) : List Step → Position → List LogLine × Position
  | [], p => ([], p)
  | step :: path, p =>
    match (graph.node step.node).edges[step.edge]? with
    | none => ([], p)
    | some edge =>
      match p.takeBackRefusal? edge.move with
      | some err => ([.warn s!"could not unwind search path: {err.message}"], p)
      | none => abandonPath graph path p.retract

/-- The reward of a terminal node for the side that moved into it. -/
def terminalReward (p : Position) : α := if p.isLost then Score.one else Score.zero

/-- The reward of a leaf for the side that moved into it; an unvisited leaf is expanded. -/
def evaluateLeaf (e : Engine α σ) (p : Position) (leaf : Nat) :
    Except Error α × Engine α σ × Position :=
  if (e.graph.node leaf).isVisited then
    let e := { e with
      graph := e.graph.modify leaf Node.visit
      stats.terminalHits := e.stats.terminalHits + 1 }
    (.ok (terminalReward p), e, p)
  else
    match e.expand p leaf with
    | (.error err, e, p) => (.error err, e, p)
    | (.ok (), e, p) =>
      match (e.graph.node leaf).edges[0]? with
      | some best => (.ok (Score.one - best.average), e, p)
      | none => (.ok (terminalReward p), e, p)

def iterate (e : Engine α σ) (p : Position) (root : Nat) :
    Except Error Unit × Engine α σ × Position :=
  match e.descend p root with
  | (.error err, e, p) => (.error err, e, p)
  | (.ok leaf, e, p) =>
    match e.evaluateLeaf p leaf with
    | (.error err, e, p) => (.error err, e, p)
    | (.ok reward, e, p) =>
      let e := { e with stats.iterations := e.stats.iterations + 1 }
      let (result, path, graph, p) := creditPath e.path reward e.graph p
      (result, { e with path, graph }, p)

/-- A number of iterations, up to the first that fails. -/
def iterateTimes : Nat → Engine α σ → Position → (root : Nat) →
    Except Error Unit × Engine α σ × Position
  | 0, e, p, _ => (.ok (), e, p)
  | n + 1, e, p, root =>
    match e.iterate p root with
    | (.error err, e, p) => (.error err, e, p)
    | (.ok (), e, p) => iterateTimes n e p root

/-! ## Searching -/

/-- The node of the position, expanded if it was unvisited. -/
def enterRoot (e : Engine α σ) (p : Position) : Except Error Nat × Engine α σ × Position :=
  let (root, graph) := e.graph.locate p.hash
  let e := { e with graph, path := [] }
  if (e.graph.node root).isVisited then (.ok root, e, p)
  else
    match e.expand p root with
    | (.error err, e, p) => (.error err, e, p)
    | (.ok (), e, p) => (.ok root, e, p)

/-- The most visited move of a node. -/
def answer (e : Engine α σ) (root : Nat) (key : UInt64) : Except Error Move :=
  let node := e.graph.node root
  match node.mostVisited?.bind fun i => node.edges[i]? with
  | some edge => .ok edge.move
  | none => .error (.notSearched key)

/-- What a search says in the log when it has ended. -/
def summaryLine (e : Engine α σ) : LogLine :=
  .debug s!"search: {e.config.iterations} iterations, {e.graph.size} nodes, stats {e.stats.text}"

/-- Searches the position and answers with the most visited move. -/
def choose (e : Engine α σ) (p : Position) :
    Except Error Move × List LogLine × Engine α σ × Position :=
  if p.isLost then (.error (.searchAfterEnd p.side), [], e, p)
  else
    match e.enterRoot p with
    | (.error err, e, p) => (.error err, [], e, p)
    | (.ok root, e, p) =>
      let key := p.hash
      match iterateTimes e.config.iterations e p root with
      | (.error err, e, p) =>
        let (lines, p) := abandonPath e.graph e.path p
        (.error err, lines, { e with path := [] }, p)
      | (.ok (), e, p) =>
        let e := { e with
          stats.searches := e.stats.searches + 1
          stats.rollouts := e.sampler.count }
        (e.answer root key, [e.summaryLine], e, p)

/-- The edges of the position's node, if it has been searched. -/
def rootEdges (e : Engine α σ) (p : Position) : Except Error (List (Edge α)) :=
  match e.graph.visited? p.hash with
  | some node => .ok node.edges.toList
  | none => .error (.notSearched p.hash)

end Engine

end Search

end Breakthrough
