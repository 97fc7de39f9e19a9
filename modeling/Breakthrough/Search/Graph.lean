import Std.Data.HashMap
import Breakthrough.Move
import Breakthrough.Score

/-!
# The search graph

The graph has a node for every position that a search has met, found by the position's hash, so that
all move orders leading to a position share its statistics. Nodes are numbered in the order in which
they were added. A node that has been visited has an edge for every legal move.
-/

namespace Breakthrough

/-- What a search adds to an average so that neglected edges are tried, too. -/
class Confidence (α : Type) where
  /-- The bonus of an edge: exploration constant, visits of the node, visits of the edge. -/
  bonus : α → UInt32 → UInt32 → α
  /-- A score that every edge has to exceed to be preferred to the first one. -/
  floor : α

instance : Confidence Float where
  bonus c parent visits := c * (parent.toFloat.log / (visits.toFloat + 1.0)).sqrt
  floor := -1.0 / 0.0

namespace Search

/-- A move out of a node with its statistics, credited to the side that plays it. -/
structure Edge (α : Type) where
  move : Move
  visits : UInt32
  total : α

namespace Edge

variable {α : Type} [Score α]

/-- The smoothed mean reward. -/
def average (e : Edge α) : α := e.total / (Score.ofNat e.visits.toNat + Score.one)

/-- The mean reward and the bonus, given the visits of the node. -/
def confidence [Confidence α] (e : Edge α) (parent : UInt32) (exploration : α) : α :=
  e.average + Confidence.bonus exploration parent e.visits

def credit (e : Edge α) (reward : α) : Edge α :=
  { e with total := e.total + reward, visits := e.visits + 1 }

end Edge

/-- A position that a search has met. -/
structure Node (α : Type) where
  /-- The hash of the position. -/
  key : UInt64
  /-- How often the node was expanded or passed through. -/
  visits : UInt32
  edges : Array (Edge α)

namespace Node

variable {α : Type}

/-- A node that has not been visited. -/
def fresh (key : UInt64) : Node α := ⟨key, 0, #[]⟩

def isVisited (n : Node α) : Bool := 0 < n.visits

/-- Whether the node was visited and found to have no moves. -/
def isTerminal (n : Node α) : Bool := n.isVisited && n.edges.isEmpty

def visit (n : Node α) : Node α := { n with visits := n.visits + 1 }

/-- The place of the first edge with the most visits. -/
def mostVisited? (n : Node α) : Option Nat :=
  let step (best : Option (Nat × UInt32)) (e : Edge α × Nat) : Option (Nat × UInt32) :=
    match best with
    | none => some (e.2, e.1.visits)
    | some (_, visits) => if visits < e.1.visits then some (e.2, e.1.visits) else best
  (n.edges.toList.zipIdx.foldl step none).map Prod.fst

/-- The place of the first edge with the highest confidence, the first edge if none compares. -/
def preferred [Score α] [Confidence α] (edges : Array (Edge α)) (visits : UInt32)
    (exploration : α) : Nat :=
  let step (best : Nat × α) (e : Edge α × Nat) : Nat × α :=
    let score := e.1.confidence visits exploration
    if Score.lt best.2 score then (e.2, score) else best
  (edges.toList.zipIdx.foldl step (0, Confidence.floor)).1

end Node

/-- The nodes in order of arrival, and the place of each key. -/
structure Graph (α : Type) where
  nodes : Array (Node α)
  index : Std.HashMap UInt64 Nat

namespace Graph

variable {α : Type}

def empty : Graph α := ⟨#[], ∅⟩

def size (g : Graph α) : Nat := g.nodes.size

def find? (g : Graph α) (key : UInt64) : Option Nat := g.index[key]?

/-- The place of a key's node, which is added if there is none. -/
def locate (g : Graph α) (key : UInt64) : Nat × Graph α :=
  match g.find? key with
  | some id => (id, g)
  | none => (g.size, ⟨g.nodes.push (.fresh key), g.index.insert key g.size⟩)

/-- The node at a place; beyond the graph nothing has been visited. -/
def node (g : Graph α) (id : Nat) : Node α := g.nodes[id]?.getD (.fresh 0)

def modify (g : Graph α) (id : Nat) (f : Node α → Node α) : Graph α :=
  { g with nodes := g.nodes.modify id f }

def visited? (g : Graph α) (key : UInt64) : Option (Node α) :=
  ((g.find? key).map g.node).filter Node.isVisited

/-- The graph after a reward for one edge. -/
def credit [Score α] (g : Graph α) (id edge : Nat) (reward : α) : Graph α :=
  g.modify id fun n => { n with edges := n.edges.modify edge (Edge.credit · reward) }

end Graph

end Search

end Breakthrough
