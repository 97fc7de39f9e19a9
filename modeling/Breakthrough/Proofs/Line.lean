import Breakthrough.Position.Diagram
import Breakthrough.Proofs.Bitboard
import Breakthrough.Proofs.InPlace

/-!
# Lines of play

`retract` undoes `advance` on every move that a position accepts, whatever the position looks like:
the board, the sets and the history come back word for word (`retract_advance`). So whatever is
called on a position, it always stands at the end of a *line*: moves accepted one after the other
from the base of its history (`Line.run`).
-/

namespace Breakthrough

namespace Position

/-! ## What a position accepts -/

/-- The checks that a move passes before it is played. -/
structure Accepts (p : Position) (m : Move) : Prop where
  notLost : p.isLost = false
  source : p.cell m.source = some p.side
  target : p.cell m.target ≠ some p.side
  straight : m.isStraight = true → p.cell m.target = none
  room : p.depth < maxPly

theorem refusal?_eq_none_iff (p : Position) (m : Move) : p.refusal? m = none ↔ p.Accepts m := by
  unfold refusal?
  constructor
  · intro h
    split at h
    · cases h
    split at h
    · cases h
    split at h
    · cases h
    split at h
    · cases h
    split at h
    · cases h
    rename_i h1 h2 h3 h4 h5
    refine ⟨by simpa using h1, by simpa using h2, by simpa using h3, fun hs => ?_, by omega⟩
    by_contra hc
    exact h4 (by simp [hs, hc])
  · intro h
    have hstraight : (p.cell m.target != none && m.isStraight) = false := by
      cases hs : m.isStraight with
      | false => simp
      | true => simp [h.straight hs]
    have hroom : ¬ maxPly ≤ p.depth := by have := h.room; omega
    simp [h.notLost, h.source, h.target, hstraight, hroom]

theorem Accepts.ne {p : Position} {m : Move} (h : p.Accepts m) : m.source ≠ m.target := by
  intro he
  exact h.target (he ▸ h.source)

theorem Accepts.target_eq {p : Position} {m : Move} (h : p.Accepts m) :
    p.cell m.target = none ∨ p.cell m.target = some p.side.opponent := by
  have ht := h.target
  revert ht
  cases p.cell m.target with
  | none => exact fun _ => Or.inl rfl
  | some c => cases c <;> cases p.side <;> simp [Color.opponent]

/-! ## Taking back what was played -/

theorem get_set (board : Vector Cell 64) (s u : Square) (x : Cell) :
    (board.set s.index x s.index.isLt).get u.index = if u = s then x else board.get u.index := by
  have h : s.index.val = u.index.val ↔ u = s := by rw [Fin.val_inj, Square.ext_iff, eq_comm]
  change (board.set s.index.val x)[u.index.val] = _
  rw [Vector.getElem_set]
  simp only [h]
  rfl

theorem board_ext {a b : Vector Cell 64} (h : ∀ s : Square, a.get s.index = b.get s.index) :
    a = b := by
  apply Vector.ext
  intro i hi
  exact h ⟨⟨i, hi⟩⟩

@[simp] theorem cell_advance (p : Position) (m : Move) (s : Square) :
    (p.advance m).cell s =
      if s = m.target then some p.side else if s = m.source then none else p.cell s := by
  change ((p.board.set m.source.index none).set m.target.index (some p.side)).get s.index = _
  rw [get_set, get_set]
  rfl

@[simp] theorem keys_advance (p : Position) (m : Move) : (p.advance m).keys = p.keys := rfl

@[simp] theorem ply_advance (p : Position) (m : Move) : (p.advance m).ply = p.ply + 1 := rfl

theorem hash_advance (p : Position) (m : Move) :
    (p.advance m).hash = p.hashAfter m (p.cell m.target == some p.side.opponent) := by
  simp [hash, advance]

theorem pawns_advance_self (p : Position) (m : Move) :
    (p.advance m).pawns p.side = p.pawns p.side ^^^ (.single m.source ||| .single m.target) := by
  cases h : p.side <;> simp [advance, pawns, h]

theorem pawns_advance_opponent (p : Position) (m : Move) :
    (p.advance m).pawns p.side.opponent =
      if p.cell m.target == some p.side.opponent then (p.pawns p.side.opponent).toggle m.target
      else p.pawns p.side.opponent := by
  cases h : p.side <;> simp [advance, pawns, h, Color.opponent]

/-- The delta that an advance leaves on top of the history. -/
theorem back?_advance (p : Position) (m : Move) :
    (p.advance m).history.deltas.back? =
      some ⟨p.hashAfter m (p.cell m.target == some p.side.opponent),
        p.cell m.target == some p.side.opponent, m⟩ := by
  simp [advance, History.add]

theorem newest_advance (p : Position) (m : Move) :
    (p.advance m).history.newest =
      ⟨p.hashAfter m (p.cell m.target == some p.side.opponent),
        p.cell m.target == some p.side.opponent, m⟩ := by
  rw [History.newest, back?_advance, Option.getD_some]

theorem pawns_retract_advance (p : Position) (m : Move) (c : Color) :
    (p.advance m).retract.pawns c = p.pawns c := by
  have hback := back?_advance p m
  have hown := pawns_advance_self p m
  have hopp := pawns_advance_opponent p m
  have hpair : ∀ b : Bitboard,
      (b ^^^ (.single m.source ||| .single m.target)) ^^^ (.single m.target ||| .single m.source) = b := by
    intro b
    apply Bitboard.ext_contains
    intro s
    simp [Bool.or_comm]
  rw [retract]
  simp only [hback, side_advance, Color.opponent_opponent, hown, hopp]
  generalize (p.cell m.target == some p.side.opponent) = capture
  cases capture <;> cases p.side <;> cases c <;>
    simp [pawns, Color.opponent, hpair, Bitboard.toggle_toggle]

theorem board_retract_advance {p : Position} {m : Move} (h : p.Accepts m) :
    (p.advance m).retract.board = p.board := by
  have hboard : (p.advance m).board =
    (p.board.set m.source.index none).set m.target.index (some p.side) := rfl
  rw [retract]
  simp only [back?_advance, side_advance, Color.opponent_opponent, hboard]
  have hsource : p.board.get m.source.index = some p.side := h.source
  have hne := h.ne
  apply board_ext
  intro s
  rcases h.target_eq with ht | ht
  all_goals
    have htarget := ht
    rw [cell] at htarget
    simp only [ht]
    grind [get_set]

/-- **Taking back is exact**: an accepted move leaves no trace once it is retracted. -/
theorem retract_advance {p : Position} {m : Move} (h : p.Accepts m) : (p.advance m).retract = p := by
  have hback := back?_advance p m
  apply Position.ext
  · exact board_retract_advance h
  · exact pawns_retract_advance p m .white
  · exact pawns_retract_advance p m .black
  · rw [retract]; simp only [hback, side_advance, Color.opponent_opponent]
  · rw [retract]; simp only [hback, ply_advance, Nat.add_sub_cancel]
  · rw [retract]; simp only [hback]; exact History.dropNewest_add _ _
  · rw [retract]; simp only [hback, keys_advance]

theorem takeBackRefusal?_advance (p : Position) (m n : Move) :
    (p.advance m).takeBackRefusal? n = if m = n then none else some (.undoMismatch n m) := by
  have hdepth : (p.advance m).depth ≠ 0 := by rw [depth_advance]; omega
  have hlast : (p.advance m).history.newest.move = m := by rw [newest_advance]
  rw [takeBackRefusal?, if_neg hdepth, hlast]
  by_cases h : m = n
  · rw [if_pos h, if_neg (not_not.2 h)]
  · rw [if_neg h, if_pos h]

theorem takeBack_advance {p : Position} {m : Move} (h : p.Accepts m) (n : Move) :
    (p.advance m).takeBack n = if m = n then .ok p else .error (.undoMismatch n m) := by
  rw [takeBack, takeBackRefusal?_advance, retract_advance h]
  by_cases hmn : m = n
  · simp only [if_pos hmn]
  · simp only [if_neg hmn]

theorem takeBackRefusal?_of_depth_eq_zero {p : Position} (h : p.depth = 0) (m : Move) :
    p.takeBackRefusal? m = some .nothingToUndo := if_pos h

/-! ## Lines -/

/-- `p` is reached from `b` by moves that were accepted one after the other. -/
inductive Line (b : Position) : Position → Prop
  | base : Line b b
  | step {p : Position} {m : Move} : Line b p → p.Accepts m → Line b (p.advance m)

theorem Line.keys_eq {b p : Position} (h : Line b p) : p.keys = b.keys := by
  induction h with
  | base => rfl
  | step _ _ ih => exact ih

theorem moves_advance (p : Position) (m : Move) :
    (p.advance m).history.moves = p.history.moves ++ [m] := by
  simp [advance, History.add, History.moves]

theorem moves_of_depth_eq_zero {p : Position} (h : p.depth = 0) : p.history.moves = [] := by
  have h0 : p.history.deltas = #[] := Array.eq_empty_of_size_eq_zero h
  simp [History.moves, h0]

/-- Playing the moves of the history again from the base leads to the position. -/
theorem Line.replay {b p : Position} (hb : b.depth = 0) (h : Line b p) :
    p.history.moves.foldlM play b = .ok p := by
  induction h with
  | base => rw [moves_of_depth_eq_zero hb]; rfl
  | @step p m _ hm ih =>
    rw [moves_advance, List.foldlM_append, ih]
    have hplay : p.play m = .ok (p.advance m) := by
      rw [play, (refusal?_eq_none_iff p m).2 hm]
    simp [bind, Except.bind, pure, Except.pure, hplay]

/-! ## Calls -/

/-- A call that changes a position. -/
inductive Call where
  | play (m : Move)
  | takeBack (m : Move)
  | takeBackNewest
  | reset

/-- The steps of a call; `takeBackNewest` also answers with a move. -/
def Call.steps : Call → InPlace (Option Move)
  | play m => do
    InPlace.play m
    return none
  | takeBack m => do
    InPlace.takeBack m
    return none
  | takeBackNewest => do
    let m ← InPlace.takeBackNewest
    return some m
  | reset => do
    modify Position.reset
    return none

/-- The answer to a call and the position it leaves. -/
def call (p : Position) (c : Call) : Except Error (Option Move) × Position := c.steps.on p

theorem call_play (p : Position) (m : Move) :
    p.call (.play m) =
      match p.refusal? m with
      | some e => (.error e, p)
      | none => (.ok none, p.advance m) := by
  rw [call, Call.steps, InPlace.on_bind, InPlace.on_play]
  cases p.refusal? m <;> rfl

theorem call_takeBack (p : Position) (m : Move) :
    p.call (.takeBack m) =
      match p.takeBackRefusal? m with
      | some e => (.error e, p)
      | none => (.ok none, p.retract) := by
  rw [call, Call.steps, InPlace.on_bind, InPlace.on_takeBack]
  cases p.takeBackRefusal? m <;> rfl

theorem call_takeBackNewest (p : Position) :
    p.call .takeBackNewest =
      match p.takeBackRefusal? p.history.newest.move with
      | some e => (.error e, p)
      | none => (.ok (some p.history.newest.move), p.retract) := by
  rw [call, Call.steps, InPlace.on_bind, InPlace.on_takeBackNewest, takeBackNewest, takeBack]
  cases p.takeBackRefusal? p.history.newest.move <;> rfl

def run (p : Position) (calls : List Call) : Position := calls.foldl (fun p c => (p.call c).2) p

/-- The base of the history after a run: a reset starts from a new one. -/
def baseAfter (b : Position) (calls : List Call) : Position :=
  calls.foldl (fun b c => match c with | .reset => b.reset | _ => b) b

theorem depth_startWith (keys : KeyTable) : (startWith keys).depth = 0 := rfl

theorem depth_baseAfter {b : Position} (hb : b.depth = 0) (calls : List Call) :
    (b.baseAfter calls).depth = 0 := by
  induction calls generalizing b with
  | nil => exact hb
  | cons c calls ih =>
    cases c with
    | reset => exact ih (depth_startWith b.keys)
    | _ => exact ih hb

theorem retract_of_depth_eq_zero {p : Position} (h : p.depth = 0) : p.retract = p := by
  have h0 : p.history.deltas = #[] := Array.eq_empty_of_size_eq_zero h
  simp [retract, h0]

theorem Line.retract {b p : Position} (hb : b.depth = 0) (h : Line b p) : Line b p.retract := by
  cases h with
  | base => rw [retract_of_depth_eq_zero hb]; exact .base
  | step h hm => rw [retract_advance hm]; exact h

/-- One call keeps the position on a line. -/
theorem Line.call {b p : Position} (hb : b.depth = 0) (h : Line b p) (c : Call) :
    Line (b.baseAfter [c]) (p.call c).2 := by
  cases c with
  | play m =>
    rw [call_play]
    cases hr : p.refusal? m with
    | none => exact .step h ((refusal?_eq_none_iff p m).1 hr)
    | some e => exact h
  | takeBack m =>
    rw [call_takeBack]
    cases p.takeBackRefusal? m with
    | none => exact h.retract hb
    | some e => exact h
  | takeBackNewest =>
    rw [call_takeBackNewest]
    cases p.takeBackRefusal? p.history.newest.move with
    | none => exact h.retract hb
    | some e => exact h
  | reset =>
    change Line b.reset p.reset
    rw [reset, reset, h.keys_eq]
    exact .base

/-- A run of calls keeps the position on a line. -/
theorem Line.run {b p : Position} (hb : b.depth = 0) (h : Line b p) (calls : List Call) :
    Line (b.baseAfter calls) (p.run calls) := by
  induction calls generalizing b p with
  | nil => exact h
  | cons c calls ih => exact ih (depth_baseAfter hb [c]) (h.call hb c)

/-! ## Origins -/

/-- A position as it is set up: the start of a game, or what a diagram shows. -/
inductive Origin : Position → Prop
  | start (keys : KeyTable) : Origin (startWith keys)
  | diagram {text : String} {side : Color} {p : Position} : ofDiagram text side = .ok p → Origin p

/-- What is set up is a board without a history. -/
theorem Origin.eq_ofBoard {b : Position} (h : Origin b) :
    ∃ board side keys, b = ofBoard board side keys := by
  cases h with
  | start keys => exact ⟨_, _, _, rfl⟩
  | diagram h =>
    simp only [ofDiagram] at h
    split at h
    · cases h
    · split at h
      · cases h
      · exact ⟨_, _, _, (Except.ok.inj h).symm⟩

/-- The board that a diagram shows, given what its rows are. -/
theorem ofDiagram_of_rows {text : String} {board : Vector Cell 64} (side : Color)
    (hrows : (diagramRows text).length = 8 ∧ unevenRow? (diagramRows text) = none ∧
      boardOfRows (diagramRows text) = board) :
    ofDiagram text side = .ok (ofBoard board side .shared) := by
  simp only [ofDiagram, hrows, ne_eq, not_true, if_false]

theorem Origin.depth_eq_zero {b : Position} (h : Origin b) : b.depth = 0 := by
  obtain ⟨board, side, keys, rfl⟩ := h.eq_ofBoard
  rfl

theorem Origin.baseAfter {b : Position} (h : Origin b) (calls : List Call) :
    Origin (b.baseAfter calls) := by
  induction calls generalizing b with
  | nil => exact h
  | cons c calls ih =>
    cases c with
    | reset => exact ih (.start b.keys)
    | _ => exact ih h

end Position

end Breakthrough
