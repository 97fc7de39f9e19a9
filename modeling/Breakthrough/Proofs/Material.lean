import Mathlib.Algebra.Order.BigOperators.Group.List
import Mathlib.Algebra.Order.Ring.Nat
import Breakthrough.Proofs.Endings

/-!
# Pawns and moves are few

A move toggles squares in the two sets of pawns. That it neither makes nor loses a pawn rests on what a move is
accepted for: its source is in the mover's set, its target is not, and the opponent's set is toggled only where the
opponent stands. So a side never has more pawns than it started with, and its moves are at most three for each of
them (`run_material`).
-/

namespace Breakthrough

namespace Bitboard

variable {b : Bitboard} {s t : Square}

/-! ## Counting squares -/

/-- One square goes out and another comes in. -/
theorem count_xor_pair (hs : b.contains s = true) (ht : b.contains t = false) :
    (b ^^^ (single s ||| single t)).count = b.count := by
  have hne : s ≠ t := by
    rintro rfl
    rw [hs] at ht
    cases ht
  have hin : (b.toggle s).contains t = false := by simp [ht, hne]
  rw [xor_pair_eq_toggle hne, count_toggle_of_not_contains hin, count_toggle_of_contains hs]

end Bitboard

namespace Position

variable {p : Position} {m : Move}

/-! ## Pawns -/

/-- A side keeps its pawns when it moves. -/
theorem Consistent.count_advance_self (hp : p.Consistent) (h : p.Accepts m) :
    ((p.advance m).pawns p.side).count = (p.pawns p.side).count := by
  rw [pawns_advance_self]
  refine Bitboard.count_xor_pair ?_ ?_
  · rw [hp.pawns, decide_eq_true h.source]
  · rw [hp.pawns, decide_eq_false h.target]

/-- It takes one pawn of the opponent if it captures, else none. -/
theorem Consistent.count_advance_opponent (hp : p.Consistent) (m : Move) :
    (p.pawns p.side.opponent).count = ((p.advance m).pawns p.side.opponent).count +
      if (p.advance m).history.newest.capture then 1 else 0 := by
  rw [newest_advance, pawns_advance_opponent]
  simp only
  split
  · rename_i hcapture
    refine (Bitboard.count_toggle_of_contains ?_).symm
    rw [hp.pawns, decide_eq_true_iff]
    simpa using hcapture
  · rfl

/-- No side ever has more pawns than at the start. -/
theorem Line.count_pawns_le {keys : KeyTable} (h : Line (startWith keys) p) (c : Color) :
    (p.pawns c).count ≤ 16 := by
  induction h with
  | base =>
    have hstart : ∀ c, (pawnsOf startBoard c).count = 16 := by
      intro c
      cases c <;> decide +kernel
    cases c
    · exact (hstart .white).le
    · exact (hstart .black).le
  | @step p m hline hm ih =>
    have hp : p.Consistent := hline.consistent (consistent_ofBoard _ _ _)
    by_cases hc : c = p.side
    · subst hc
      rwa [hp.count_advance_self hm]
    · obtain rfl : c = p.side.opponent := Color.eq_opponent_of_ne hc
      have hbefore := hp.count_advance_opponent m
      omega

/-- The pawn that has just moved stands somewhere. -/
theorem Line.count_pawns_pos {keys : KeyTable} (h : Line (startWith keys) p) :
    0 < (p.pawns p.side).count + (p.pawns p.side.opponent).count := by
  cases h with
  | base =>
    have hstart : 0 < (pawnsOf startBoard .white).count := by decide +kernel
    exact Nat.add_pos_left hstart _
  | @step q m hline hm =>
    have hq : q.Consistent := hline.consistent (consistent_ofBoard _ _ _)
    have hmoved : 0 < (q.pawns q.side).count := by
      rw [Bitboard.count, List.countP_pos_iff]
      refine ⟨m.source, Square.mem_all _, ?_⟩
      rw [hq.pawns, decide_eq_true hm.source]
    rw [side_advance, Color.opponent_opponent, hq.count_advance_self hm]
    exact Nat.add_pos_right _ hmoved

/-! ## Moves -/

theorem length_movesFrom_le (p : Position) (s : Square) : (p.movesFrom s).length ≤ 3 := by
  have hone : ∀ o : Option Square, o.toList.length ≤ 1 := by
    intro o
    cases o <;> simp
  have hdiagonals : ((Bitboard.single s).attacks p.side &&& ~~~(p.pawns p.side)).squares.length ≤ 2 := by
    rw [Bitboard.squares_and, Bitboard.squares_attacks_single]
    refine (List.length_filter_le _ _).trans ?_
    rw [List.length_append]
    exact Nat.add_le_add (hone _) (hone _)
  rw [movesFrom, List.length_map, List.length_append]
  exact Nat.add_le_add (hone _) hdiagonals

theorem length_moves_le (p : Position) : p.moves.length ≤ 3 * (p.pawns p.side).count := by
  have hsum := List.sum_le_card_nsmul ((p.pawns p.side).squares.map fun s => (p.movesFrom s).length) 3 (by
    intro n hn
    obtain ⟨s, _, rfl⟩ := List.mem_map.1 hn
    exact p.length_movesFrom_le s)
  rw [List.length_map, Bitboard.length_squares, smul_eq_mul] at hsum
  rw [moves_eq, List.length_flatMap, Nat.mul_comm]
  exact hsum

/-! ## Every run from the start -/

theorem line_run_startWith (keys : KeyTable) (calls : List Call) :
    Line (startWith keys) ((startWith keys).run calls) := by
  have hrun := (Origin.start keys).line_run calls
  rwa [baseAfter_startWith] at hrun

/-- **Pawns are never made, and moves are few.** Whatever is called on a position from the start layout, with any
moves that it accepts, no side has more than 16 pawns. A move that is played keeps the number of the mover's pawns
and takes one of the opponent's exactly if it is marked as a capture. The side to move has at most three moves for
each of its pawns, so that the moves fit into `maxMoves`. -/
theorem run_material (keys : KeyTable) (calls : List Call) :
    let p := (startWith keys).run calls
    (∀ c, (p.pawns c).count ≤ 16) ∧
    (∀ m q, p.play m = .ok q →
      (q.pawns p.side).count = (p.pawns p.side).count ∧
      (p.pawns p.side.opponent).count =
        (q.pawns p.side.opponent).count + if q.history.newest.capture then 1 else 0) ∧
    p.moves.length ≤ 3 * (p.pawns p.side).count ∧ p.moves.length ≤ maxMoves := by
  intro p
  have hline : Line (startWith keys) p := line_run_startWith keys calls
  have hp : p.Consistent := hline.consistent (consistent_ofBoard _ _ _)
  have hmoves := p.length_moves_le
  refine ⟨hline.count_pawns_le, ?_, hmoves, ?_⟩
  · intro m q hplay
    rw [play] at hplay
    split at hplay
    · cases hplay
    · rename_i haccepted
      cases hplay
      exact ⟨hp.count_advance_self ((refusal?_eq_none_iff p m).1 haccepted), hp.count_advance_opponent m⟩
  · have hpawns := hline.count_pawns_le p.side
    exact hmoves.trans (Nat.mul_le_mul_left 3 hpawns)

/-- Four full rows, with room in front of each, can be set up and have more. -/
example :
    let p := ofBoard (.ofFn fun i => if i.val / 8 % 2 = 0 then some .white else none) .white .shared
    (p.pawns .white).count = 32 ∧ p.moves.length = 88 := by
  decide +kernel

end Position

end Breakthrough
