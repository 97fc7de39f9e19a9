import Std.Data.HashSet
import Breakthrough.Json.Printer
import Breakthrough.Search.Engine

/-!
# The searched graph as a document

From a position, the visited nodes are collected depth first along the edges that have been taken,
each node once, up to a limit. The way there is walked on the position itself, which comes back as
it was.
-/

namespace Breakthrough.Search

structure Record (α : Type) where
  key : UInt64
  visits : UInt32
  edges : List (Edge α)

namespace Export

variable {α : Type}

/-- What has been collected so far. -/
structure Trace (α : Type) where
  /-- Keys of the positions that have been entered. -/
  seen : Std.HashSet UInt64
  /-- The nodes met, in order. -/
  records : Array (Record α)

def Trace.empty : Trace α := ⟨∅, #[]⟩

/-- Enters the position behind each edge in turn, with `enter`, up to the first failure. -/
def walkEdges (enter : Position → Trace α → Option Error × Position × Trace α) :
    List (Edge α) → Position → Trace α → Option Error × Position × Trace α
  | [], p, t => (none, p, t)
  | edge :: edges, p, t =>
    match p.refusal? edge.move with
    | some e => (some e, p, t)
    | none =>
      let (failure, p, t) := enter (p.advance edge.move) t
      match p.takeBackRefusal? edge.move, failure with
      | some e, _ => (some e, p, t)
      | none, some e => (some e, p.retract, t)
      | none, none => walkEdges enter edges p.retract t

/-- Records the node of a position, if it is visited and was not seen, and walks on with `enter`. -/
def visitWith (graph : Graph α) (limit : Nat)
    (enter : Position → Trace α → Option Error × Position × Trace α) (p : Position) (t : Trace α) :
    Option Error × Position × Trace α :=
  let key := p.hash
  if limit ≤ t.records.size ∨ t.seen.contains key then (none, p, t)
  else
    let t := { t with seen := t.seen.insert key }
    match graph.visited? key with
    | none => (none, p, t)
    | some node =>
      let edges := node.edges.toList
      let t := { t with records := t.records.push ⟨key, node.visits, edges⟩ }
      walkEdges enter (edges.filter fun e => 0 < e.visits) p t

/-- Visits a position and what lies behind it; `room` is the number of moves that the history has
space for. -/
def visit (graph : Graph α) (limit : Nat) :
    (room : Nat) → Position → Trace α → Option Error × Position × Trace α
  | 0, p, t => visitWith graph limit (fun p t => (some (.plyLimit maxPly), p, t)) p t
  | room + 1, p, t => visitWith graph limit (visit graph limit room) p t

end Export

/-- The records of at most `limit` visited nodes from a position. -/
def Graph.records {α : Type} (graph : Graph α) (p : Position) (limit : Nat) :
    Except Error (List (Record α)) × Position :=
  match Export.visit graph limit (maxPly - p.depth) p .empty with
  | (some e, p, _) => (.error e, p)
  | (none, p, t) => (.ok t.records.toList, p)

/-- The graph as it is searched from a position. -/
structure Dump (α : Type) where
  /-- The ply of the position. -/
  ply : Nat
  /-- The hash of the position. -/
  root : UInt64
  nodes : List (Record α)

/-- The graph from a position, with at most `limit` nodes. -/
def Graph.dump {α : Type} (graph : Graph α) (p : Position) (limit : Nat) :
    Except Error (Dump α) × Position :=
  let ply := p.ply
  let root := p.hash
  let (records, p) := graph.records p limit
  (records.map (Dump.mk ply root), p)

/-! ## Documents -/

def Edge.toDoc (e : Edge Float) : Json.Doc :=
  .object [("action", .string e.move.text), ("visits", .nat e.visits.toNat),
    ("total_reward", .float e.total)]

def Record.toDoc (r : Record Float) : Json.Doc :=
  .object [("hash", .string (Text.word64 r.key)), ("visit_count", .nat r.visits.toNat),
    ("children", .list (r.edges.map Edge.toDoc))]

def Dump.toDoc (d : Dump Float) : Json.Doc :=
  .object [("ply", .nat d.ply), ("root", .string (Text.word64 d.root)),
    ("nodes", .list (d.nodes.map Record.toDoc))]

def Dump.text (d : Dump Float) : String := d.toDoc.pretty

end Breakthrough.Search
