import Breakthrough.Proofs.Rules

/-!
# A position is a stack of snapshots

A position keeps only its present state and, for every move, what is needed to take it back. Seen
from outside it behaves like an immutable stack of complete snapshots: playing pushes the successor
that the bare board gives, with sets and hash set up afresh; taking back pops and shows the snapshot
below; every refusal leaves the stack alone. `run_refines_snapshots` says so for every run of calls.
-/

namespace Breakthrough

/-- Everything that a position shows at one time. -/
structure Snapshot where
  board : Vector Cell 64
  white : Bitboard
  black : Bitboard
  hash : UInt64
  side : Color
  ply : Nat
  /-- The newest delta, or the base entry of the history. -/
  last : Delta

def Position.snapshot (p : Position) : Snapshot :=
  ⟨p.board, p.white, p.black, p.hash, p.side, p.ply, p.history.newest⟩

/-- The snapshot after a move: the pawn changes its square on the bare board, and everything else is
set up anew from that board. -/
def Snapshot.successor (keys : KeyTable) (t : Snapshot) (m : Move) : Snapshot :=
  let board := .ofFn fun i =>
    if i = m.target.index then some t.side else if i = m.source.index then none else t.board.get i
  let anew := Position.ofBoard board t.side.opponent keys
  let capture := t.board.get m.target.index == some t.side.opponent
  ⟨board, anew.white, anew.black, anew.hash, t.side.opponent, t.ply + 1, ⟨anew.hash, capture, m⟩⟩

/-- A stack of snapshots, never empty, and the keys of its hashes. -/
structure SnapshotStack where
  keys : KeyTable
  top : Snapshot
  below : List Snapshot

namespace SnapshotStack

/-- The stack of a position that nothing has been played from. -/
def single (p : Position) : SnapshotStack := ⟨p.keys, p.snapshot, []⟩

/-- Why a move cannot be played, by the rules on the bare board. -/
def refusal? (s : SnapshotStack) (m : Move) : Option Error :=
  let board := s.top.board
  let side := s.top.side
  if Mailbox.isLost board side then some (.gameOver side)
  else if board.get m.source.index ≠ some side then some (.notMoversPawn m side)
  else if board.get m.target.index = some side then some (.selfCapture m side)
  else if board.get m.target.index ≠ none ∧ m.isStraight then some (.straightBlocked m)
  else if maxPly ≤ s.below.length then some (.plyLimit maxPly)
  else none

/-- The stack with the successor of its top put on it. -/
def push (s : SnapshotStack) (m : Move) : SnapshotStack :=
  { s with top := s.top.successor s.keys m, below := s.top :: s.below }

/-- The answer to a call and the stack it leaves. -/
def call (s : SnapshotStack) : Position.Call → Except Error (Option Move) × SnapshotStack
  | .play m =>
    match s.refusal? m with
    | some e => (.error e, s)
    | none => (.ok none, s.push m)
  | .takeBack m =>
    match s.below with
    | [] => (.error .nothingToUndo, s)
    | t :: below =>
      if s.top.last.move = m then (.ok none, { s with top := t, below })
      else (.error (.undoMismatch m s.top.last.move), s)
  | .takeBackNewest =>
    match s.below with
    | [] => (.error .nothingToUndo, s)
    | t :: below => (.ok (some s.top.last.move), { s with top := t, below })
  | .reset => (.ok none, single (.startWith s.keys))

def answers (s : SnapshotStack) : List Position.Call → List (Except Error (Option Move))
  | [] => []
  | c :: calls => (s.call c).1 :: (s.call c).2.answers calls

def run (s : SnapshotStack) (calls : List Position.Call) : SnapshotStack :=
  calls.foldl (fun s c => (s.call c).2) s

end SnapshotStack

namespace Position

def answers (p : Position) : List Call → List (Except Error (Option Move))
  | [] => []
  | c :: calls => (p.call c).1 :: (p.call c).2.answers calls

/-! ## The stack that a position stands for -/

/-- What the position shows after one, two, ... `n` moves are taken back. -/
def snapshotsBelow : Nat → Position → List Snapshot
  | 0, _ => []
  | n + 1, p => p.retract.snapshot :: snapshotsBelow n p.retract

/-- The stack of all snapshots down to the base. -/
def stack (p : Position) : SnapshotStack := ⟨p.keys, p.snapshot, snapshotsBelow p.depth p⟩

theorem length_snapshotsBelow (n : Nat) (p : Position) : (snapshotsBelow n p).length = n := by
  induction n generalizing p with
  | zero => rfl
  | succ n ih => simp [snapshotsBelow, ih]

theorem stack_of_depth_eq_zero {p : Position} (h : p.depth = 0) : p.stack = .single p := by
  rw [stack, h]
  rfl

/-- An accepted move shows the successor on the bare board: whatever was updated on the way is what
setting up the new board gives. -/
theorem snapshot_advance {p : Position} {m : Move} (hp : p.Consistent) (hm : p.Accepts m) :
    (p.advance m).snapshot = p.snapshot.successor p.keys m := by
  have hnew := consistent_ofBoard (p.advance m).board p.side.opponent p.keys
  have hnext := hp.advance hm
  have hwhite := hnext.pawns_eq hnew rfl .white
  have hblack := hnext.pawns_eq hnew rfl .black
  have hhash := hnext.hash_eq hnew rfl rfl rfl
  have hlast : (p.advance m).history.newest =
      ⟨(p.advance m).hash, p.cell m.target == some p.side.opponent, m⟩ := by
    simp [advance, hash]
  have hboard : (p.advance m).board = .ofFn fun i =>
      if i = m.target.index then some p.side else if i = m.source.index then none else p.board.get i := by
    refine board_ext fun s => ?_
    have hcell := cell_advance p m s
    rw [cell] at hcell
    rw [hcell]
    change _ = (Vector.ofFn _)[s.index.val]
    rw [Vector.getElem_ofFn]
    simp only [Square.ext_iff, Fin.eta]
    rfl
  simp only [pawns] at hwhite hblack
  rw [snapshot, hlast, hhash, hwhite, hblack, hboard]
  rfl

theorem below_stack_advance {p : Position} {m : Move} (hm : p.Accepts m) :
    (p.advance m).stack.below = p.snapshot :: p.stack.below := by
  change snapshotsBelow (p.advance m).depth (p.advance m) = _
  rw [depth_advance, snapshotsBelow, retract_advance hm]
  rfl

theorem stack_advance {p : Position} {m : Move} (hp : p.Consistent) (hm : p.Accepts m) :
    (p.advance m).stack = p.stack.push m := by
  have hbelow : snapshotsBelow (p.advance m).depth (p.advance m) = p.snapshot :: p.stack.below :=
    below_stack_advance hm
  rw [stack, hbelow, snapshot_advance hp hm]
  rfl

theorem refusal?_stack {p : Position} (hp : p.Consistent) (m : Move) :
    p.stack.refusal? m = p.refusal? m := by
  have hlen : p.stack.below.length = p.depth := length_snapshotsBelow _ _
  have hcell : ∀ s, p.stack.top.board.get s.index = p.cell s := fun _ => rfl
  have hside : p.stack.top.side = p.side := rfl
  have hlost : Mailbox.isLost p.stack.top.board p.side = p.isLost := hp.isLost_eq_mailbox.symm
  simp only [SnapshotStack.refusal?, refusal?, hlost, hlen, hcell, hside, bne_iff_ne, beq_iff_eq,
    Bool.and_eq_true]

/-! ## One call -/

theorem stack_call_play {p : Position} (hp : p.Consistent) (m : Move) :
    p.stack.call (.play m) = ((p.call (.play m)).1, (p.call (.play m)).2.stack) := by
  simp only [SnapshotStack.call, call_play, refusal?_stack hp]
  cases hr : p.refusal? m with
  | some e => rfl
  | none => simp only [stack_advance hp ((refusal?_eq_none_iff p m).1 hr)]

theorem stack_call_takeBack {b p : Position} (hb : b.depth = 0) (h : Line b p) (m : Move) :
    p.stack.call (.takeBack m) = ((p.call (.takeBack m)).1, (p.call (.takeBack m)).2.stack) := by
  rw [call_takeBack]
  cases h with
  | base =>
    simp only [stack_of_depth_eq_zero hb, SnapshotStack.call, SnapshotStack.single,
      takeBackRefusal?_of_depth_eq_zero hb]
  | @step q n hq hn =>
    have hlast : (q.advance n).stack.top.last.move = n := by simp [stack, snapshot, advance]
    simp only [SnapshotStack.call, below_stack_advance hn, hlast, takeBackRefusal?_advance, retract_advance hn]
    by_cases hnm : n = m
    · simp only [if_pos hnm]
      rfl
    · simp only [if_neg hnm]

theorem stack_call_takeBackNewest {b p : Position} (hb : b.depth = 0) (h : Line b p) :
    p.stack.call .takeBackNewest =
      ((p.call .takeBackNewest).1, (p.call .takeBackNewest).2.stack) := by
  rw [call_takeBackNewest]
  cases h with
  | base =>
    simp only [stack_of_depth_eq_zero hb, SnapshotStack.call, SnapshotStack.single,
      takeBackRefusal?_of_depth_eq_zero hb]
  | @step q n hq hn =>
    have hlast : (q.advance n).stack.top.last.move = n := by simp [stack, snapshot, advance]
    have hnewest : (q.advance n).history.newest.move = n := hlast
    simp only [SnapshotStack.call, below_stack_advance hn, hlast, hnewest, takeBackRefusal?_advance,
      retract_advance hn, if_true]
    rfl

/-- One call on the position is the same call on its stack. -/
theorem stack_call {b p : Position} (hb : b.depth = 0) (hbase : b.Consistent) (h : Line b p)
    (c : Call) : p.stack.call c = ((p.call c).1, (p.call c).2.stack) := by
  cases c with
  | play m => exact stack_call_play (h.consistent hbase) m
  | takeBack m => exact stack_call_takeBack hb h m
  | takeBackNewest => exact stack_call_takeBackNewest hb h
  | reset => rfl

/-- A refused call leaves the position as it is, with its history: no step before a refusal has changed it. -/
theorem call_of_error {p : Position} {c : Call} {e : Error} (h : (p.call c).1 = .error e) :
    (p.call c).2 = p := by
  cases c with
  | play m =>
    rw [call_play] at h ⊢
    cases hr : p.refusal? m with
    | some e => rfl
    | none => rw [hr] at h; cases h
  | takeBack m =>
    rw [call_takeBack] at h ⊢
    cases hr : p.takeBackRefusal? m with
    | some e => rfl
    | none => rw [hr] at h; cases h
  | takeBackNewest =>
    rw [call_takeBackNewest] at h ⊢
    cases hr : p.takeBackRefusal? p.history.newest.move with
    | some e => rfl
    | none => rw [hr] at h; cases h
  | reset => cases h

/-- Only the last move can be taken back. -/
theorem Line.call_takeBack_ok_iff {b p : Position} (hb : b.depth = 0) (h : Line b p) (m : Move) :
    (p.call (.takeBack m)).1 = .ok none ↔ 0 < p.depth ∧ p.history.moves.getLast? = some m := by
  rw [call_takeBack]
  cases h with
  | base => simp [takeBackRefusal?_of_depth_eq_zero hb, hb]
  | @step q n _ hn =>
    rw [takeBackRefusal?_advance, moves_advance, depth_advance]
    by_cases hnm : n = m
    · simp [hnm]
    · simp [hnm]

/-! ## Every run -/

theorem stack_run {b p : Position} (hb : Origin b) (h : Line b p) (calls : List Call) :
    p.stack.answers calls = p.answers calls ∧ p.stack.run calls = (p.run calls).stack := by
  induction calls generalizing b p with
  | nil => exact ⟨rfl, rfl⟩
  | cons c calls ih =>
    have hcall := stack_call hb.depth_eq_zero hb.consistent h c
    obtain ⟨hanswers, hrun⟩ := ih (hb.baseAfter [c]) (h.call hb.depth_eq_zero c)
    refine ⟨?_, ?_⟩
    · rw [SnapshotStack.answers, answers, hcall, hanswers]
    · rw [SnapshotStack.run, List.foldl_cons, hcall]
      exact hrun

/-- **A position refines a stack of snapshots.** Every run of calls from an origin gets the answers
that the stack machine gives and ends with the stack that it ends with. A move can be taken back
exactly when it is the last one played. A call that is refused, though it changes the position step by
step, has changed nothing at all by then. And playing the moves of the history from the base leads to
the position again. -/
theorem run_refines_snapshots {b : Position} (hb : Origin b) (calls : List Call) :
    let p := b.run calls
    b.answers calls = (SnapshotStack.single b).answers calls ∧
    p.stack = (SnapshotStack.single b).run calls ∧
    (∀ m, (p.call (.takeBack m)).1 = .ok none ↔ 0 < p.depth ∧ p.history.moves.getLast? = some m) ∧
    (∀ c e, (p.call c).1 = .error e → (p.call c).2 = p) ∧
    (p.history.moves.forM InPlace.play).on (b.baseAfter calls) = (.ok (), p) := by
  intro p
  have hbase := hb.baseAfter calls
  have hline : Line (b.baseAfter calls) p := hb.line_run calls
  obtain ⟨hanswers, hrun⟩ := stack_run hb .base calls
  rw [stack_of_depth_eq_zero hb.depth_eq_zero] at hanswers hrun
  exact ⟨hanswers.symm, hrun.symm, hline.call_takeBack_ok_iff hbase.depth_eq_zero,
    fun c e he => call_of_error he, InPlace.on_forM_play (hline.replay hbase.depth_eq_zero)⟩

/-- A capture across the board is taken back, between calls that are refused. -/
theorem run_refines_snapshots_capture :
    Origin start ∧
    start.answers [.play ⟨⟨12⟩, ⟨20⟩⟩, .play ⟨⟨55⟩, ⟨8⟩⟩, .takeBack ⟨⟨12⟩, ⟨20⟩⟩, .takeBackNewest,
        .play ⟨⟨12⟩, ⟨20⟩⟩, .takeBack ⟨⟨12⟩, ⟨20⟩⟩, .takeBackNewest] =
      [.ok none, .ok none, .error (.undoMismatch ⟨⟨12⟩, ⟨20⟩⟩ ⟨⟨55⟩, ⟨8⟩⟩), .ok (some ⟨⟨55⟩, ⟨8⟩⟩),
        .error (.notMoversPawn ⟨⟨12⟩, ⟨20⟩⟩ .black), .ok none, .error .nothingToUndo] := by
  have hstart : Origin start := .start .shared
  refine ⟨hstart, ?_⟩
  rw [(run_refines_snapshots hstart _).1]
  decide +kernel

end Position

end Breakthrough
