import Breakthrough.Error

/-!
# What has been played

A history is a stack of deltas over the key of the position it started from. Each delta holds what
is needed to take its move back. At most `maxPly` moves fit.
-/

namespace Breakthrough

/-- What one move changed. -/
@[ext]
structure Delta where
  /-- The hash after the move. -/
  key : UInt64
  /-- Whether the move removed an opposing pawn. -/
  capture : Bool
  move : Move
  deriving DecidableEq, Repr

/-- The moves played since a base position. -/
@[ext]
structure History where
  /-- The hash of the base position. -/
  base : UInt64
  /-- One delta per move, oldest first. -/
  deltas : Array Delta
  deriving DecidableEq

namespace History

/-- The history of a position that no move has been played from. -/
def start (key : UInt64) : History := ⟨key, #[]⟩

/-- The entry below every move. -/
def root (h : History) : Delta := ⟨h.base, false, .absent⟩

/-- The number of moves that can be taken back. -/
def depth (h : History) : Nat := h.deltas.size

/-- The newest delta, or the entry below every move. -/
def newest (h : History) : Delta := h.deltas.back?.getD h.root

def previous? (h : History) : Option Delta :=
  match h.depth with
  | 0 => none
  | 1 => some h.root
  | n + 2 => h.deltas[n]?

/-- The moves played, oldest first. -/
def moves (h : History) : List Move := h.deltas.toList.map Delta.move

/-- The history with a delta on top, whether or not there is room for it. -/
def add (h : History) (d : Delta) : History := { h with deltas := h.deltas.push d }

def dropNewest (h : History) : History := { h with deltas := h.deltas.pop }

/-- Puts a delta on top unless the history is full. -/
def push (h : History) (d : Delta) : Except Error History :=
  if h.depth < maxPly then .ok (h.add d) else .error (.plyLimit maxPly)

def pop (h : History) : Except Error (Delta × History) :=
  if 0 < h.depth then .ok (h.newest, h.dropNewest) else .error .nothingToUndo

@[simp] theorem depth_add (h : History) (d : Delta) : (h.add d).depth = h.depth + 1 := by
  simp [depth, add]

@[simp] theorem newest_add (h : History) (d : Delta) : (h.add d).newest = d := by
  simp [newest, add]

@[simp] theorem dropNewest_add (h : History) (d : Delta) : (h.add d).dropNewest = h := by
  simp [dropNewest, add]

end History

end Breakthrough
