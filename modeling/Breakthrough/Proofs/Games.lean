import Mathlib.Algebra.BigOperators.Fin
import Breakthrough.Proofs.Playout
import Breakthrough.Proofs.Rules

/-!
# Games from the start layout

Every legal move brings a pawn one row closer to its goal, and a capture takes the way of another pawn off the
board. The rows that all pawns together have left to go therefore bound the length of a game: 208 moves from
the start layout, fewer than the history holds. So nothing is ever refused in a game that keeps to the rules,
and a random playout from such a position always ends with a winner.
-/

namespace Breakthrough

/-- The rows that a pawn of a side has to go from a row. -/
def Color.rowsLeft : Color → Fin 8 → Nat
  | white, row => 7 - row.val
  | black, row => row.val

theorem Color.rowsLeft_of_leads {side : Color} {d : Direction} {s t : Square}
    (hd : d.rowStep = side.ahead.rowStep) (h : d.Leads s t) :
    side.rowsLeft s.row = side.rowsLeft t.row + 1 := by
  have hrow := h.2
  have hlt := t.row.isLt
  rw [hd] at hrow
  cases side <;> simp only [Color.ahead, Direction.rowStep] at hrow <;>
    simp only [Color.rowsLeft] <;> omega

theorem Color.rowsLeft_of_diagonal {side : Color} {s t : Square}
    (h : side.aheadLeft.Leads s t ∨ side.aheadRight.Leads s t) :
    side.rowsLeft s.row = side.rowsLeft t.row + 1 := by
  rcases h with hd | hd
  · exact rowsLeft_of_leads (by cases side <;> rfl) hd
  · exact rowsLeft_of_leads (by cases side <;> rfl) hd

/-- The rows that the pawn in a cell has to go, none if it is empty. -/
def Cell.rowsLeft : Cell → Fin 8 → Nat
  | none, _ => 0
  | some c, row => c.rowsLeft row

namespace Mailbox

/-- The rows that all pawns of a board have left to go. -/
def distance (board : Vector Cell 64) : Nat := ∑ i : Fin 64, Cell.rowsLeft (board.get i) (Square.mk i).row

/-- A step that follows the rules ends one row closer to the goal. -/
theorem Step.rowsLeft_eq {board : Vector Cell 64} {side : Color} {m : Move} (h : Step board side m) :
    side.rowsLeft m.source.row = side.rowsLeft m.target.row + 1 := by
  rcases h.way with ⟨hd, _⟩ | ⟨hd, _⟩
  · exact Color.rowsLeft_of_leads rfl hd
  · exact Color.rowsLeft_of_diagonal hd

/-- The distance with the share of two squares taken out. -/
theorem distance_eq_add {board : Vector Cell 64} {s t : Square} (h : s ≠ t) :
    distance board = Cell.rowsLeft (board.get s.index) s.row + (Cell.rowsLeft (board.get t.index) t.row +
      ∑ i ∈ (Finset.univ.erase s.index).erase t.index, Cell.rowsLeft (board.get i) (Square.mk i).row) := by
  have ht : t.index ∈ Finset.univ.erase s.index :=
    Finset.mem_erase.2 ⟨fun he => h (Square.ext he.symm), Finset.mem_univ _⟩
  rw [distance, ← Finset.add_sum_erase _ _ (Finset.mem_univ s.index), ← Finset.add_sum_erase _ _ ht]

end Mailbox

namespace Position

variable {p : Position} {m : Move}

/-- The rows that all pawns have left to go. -/
def distance (p : Position) : Nat := Mailbox.distance p.board

/-- A legal move shortens the way that is left. -/
theorem distance_advance_lt (h : Mailbox.Step p.board p.side m) :
    (p.advance m).distance < p.distance := by
  have hne : m.source ≠ m.target := by
    intro he
    have := h.rowsLeft_eq
    rw [he] at this
    omega
  have hsource : (p.advance m).board.get m.source.index = none := by
    have := cell_advance p m m.source
    rwa [if_neg hne, if_pos rfl] at this
  have htarget : (p.advance m).board.get m.target.index = some p.side := by
    have := cell_advance p m m.target
    rwa [if_pos rfl] at this
  have hrest : ∀ i ∈ (Finset.univ.erase m.source.index).erase m.target.index,
      Cell.rowsLeft ((p.advance m).board.get i) (Square.mk i).row =
        Cell.rowsLeft (p.board.get i) (Square.mk i).row := by
    intro i hi
    rw [Finset.mem_erase, Finset.mem_erase] at hi
    have hcell := cell_advance p m ⟨i⟩
    rw [if_neg fun h => hi.1 (congrArg Square.index h),
      if_neg fun h => hi.2.1 (congrArg Square.index h)] at hcell
    exact congrArg (Cell.rowsLeft · (Square.mk i).row) hcell
  rw [distance, distance, Mailbox.distance_eq_add hne, Mailbox.distance_eq_add hne, hsource, htarget,
    h.source, Finset.sum_congr rfl hrest]
  have hstep := h.rowsLeft_eq
  simp only [Cell.rowsLeft]
  omega

/-! ## Games -/

/-- A position that legal moves lead to from the start layout. -/
inductive Game : Position → Prop
  | start (keys : KeyTable) : Game (startWith keys)
  | step {p : Position} {m : Move} : Game p → p.isLegal m = true → Game (p.advance m)

theorem distance_startWith (keys : KeyTable) : (startWith keys).distance = 208 := by
  change Mailbox.distance startBoard = 208
  decide +kernel

theorem Consistent.accepts_of_isLegal (hp : p.Consistent) (hroom : p.depth < maxPly)
    (h : p.isLegal m = true) : p.Accepts m := by
  obtain ⟨hlost, hm⟩ := (hp.isLegal_iff m).1 h
  exact hp.accepts hlost hm hroom

/-- What is played of a game and what is left to go come to 208 moves at most. -/
theorem Game.consistent_and_depth_le (h : Game p) : p.Consistent ∧ p.depth + p.distance ≤ 208 := by
  induction h with
  | start keys => exact ⟨consistent_ofBoard _ _ _, by rw [depth_startWith, distance_startWith]⟩
  | @step p m _ hm ih =>
    obtain ⟨hp, hdepth⟩ := ih
    have haccepts := hp.accepts_of_isLegal (by rw [maxPly]; omega) hm
    have hshorter := distance_advance_lt ((hp.mem_moves m).1 ((hp.isLegal_iff m).1 hm).2)
    exact ⟨hp.advance haccepts, by rw [depth_advance]; omega⟩

theorem Game.consistent (h : Game p) : p.Consistent := h.consistent_and_depth_le.1

theorem Game.depth_lt (h : Game p) : p.depth < maxPly := by
  have := h.consistent_and_depth_le.2
  rw [maxPly]
  omega

/-- **No legal move of a game is refused.** -/
theorem Game.accepts (h : Game p) (hm : p.isLegal m = true) : p.Accepts m :=
  h.consistent.accepts_of_isLegal h.depth_lt hm

theorem Game.isLegal_of_mem_moves (h : Game p) (hlost : p.isLost = false) (hm : m ∈ p.moves) :
    p.isLegal m = true := (h.consistent.isLegal_iff m).2 ⟨hlost, hm⟩

end Position

/-! ## Playouts -/

section Playouts

variable {σ : Type} [RandomSource σ] {p : Position}

open Position

theorem playToEnd_of_game (h : Game p) (g : σ) : (playToEnd p g).1 = .ok () := by
  fun_induction playToEnd p g with
  | case1 => rfl
  | case2 p g hlost e g' hc =>
    -- a position without moves is lost
    exfalso
    have hmoves := (chooseMove_error hc).2
    rw [isLost, Bool.or_eq_true, not_or, Bool.not_eq_true', Bool.not_eq_false] at hlost
    exact h.consistent.canMove_iff.1 hlost.2 hmoves
  | case3 p g hlost m g' hc e he =>
    have hlegal := h.isLegal_of_mem_moves (by simpa using hlost) (chooseMove_ok hc)
    rw [(refusal?_eq_none_iff p m).2 (h.accepts hlegal)] at he
    cases he
  | case4 p g hlost m g' hc hm ih =>
    exact ih (.step h (h.isLegal_of_mem_moves (by simpa using hlost) (chooseMove_ok hc)))

/-- **A playout of a legal move in a game has a winner.** -/
theorem playout_of_game (h : Game p) {first : Move} (hm : p.isLegal first = true) (g : σ) :
    ∃ winner, (playout p first g).1 = .ok winner := by
  have hend := playToEnd_of_game (h.step hm) g
  unfold playout
  rw [(refusal?_eq_none_iff p first).2 (h.accepts hm)]
  simp only [hend]
  exact ⟨_, rfl⟩

theorem countWins_of_game (h : Game p) {first : Move} (hm : p.isLegal first = true) (n wins : Nat) (g : σ) :
    ∃ total, (countWins first n wins p g).1 = .ok total := by
  induction n generalizing wins g with
  | zero => exact ⟨wins, rfl⟩
  | succ n ih =>
    obtain ⟨winner, hwinner⟩ := playout_of_game h hm g
    have hp := position_playout p first g
    unfold countWins
    split
    · rename_i hr
      rw [hr] at hwinner
      cases hwinner
    · rename_i q g' hr
      obtain rfl : q = p := by rwa [hr] at hp
      exact ih _ _

end Playouts

end Breakthrough
