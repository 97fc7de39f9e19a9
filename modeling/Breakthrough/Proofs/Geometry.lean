import Breakthrough.Proofs.Rules

/-!
# Sets of squares in motion

A set is moved by shifting its word, with a column masked out first where the word would run over an edge. What
this does to the squares is told by `Square.step?`, which knows columns and rows and nothing of words: the moved
set lists the steps of its squares, in order and without those that leave the board (`squares_shift`). The squares
ahead, the attacked squares and the attackers of a square follow (`shift_geometry`).
-/

namespace Breakthrough

namespace Color

theorem aheadLeft_opponent (c : Color) : c.opponent.aheadLeft = c.aheadRight.opposite := by cases c <;> rfl

theorem aheadRight_opponent (c : Color) : c.opponent.aheadRight = c.aheadLeft.opposite := by cases c <;> rfl

end Color

namespace Square

variable {d : Direction} {s s' t t' : Square}

/-- A step adds the same number to every index that it can be taken from. -/
theorem index_of_leads (h : d.Leads s t) :
    (t.index.val : Int) = s.index.val + (d.columnStep + 8 * d.rowStep) := by
  obtain ⟨hcolumn, hrow⟩ := h
  simp only [column, row] at hcolumn hrow
  omega

theorem index_lt_of_step? (ht : s.step? d = some t) (ht' : s'.step? d = some t') (hlt : s.index < s'.index) :
    t.index < t'.index := by
  have hs := index_of_leads ((step?_eq_some_iff s t d).1 ht)
  have hs' := index_of_leads ((step?_eq_some_iff s' t' d).1 ht')
  rw [Fin.lt_def] at hlt ⊢
  omega

end Square

namespace Bitboard

theorem contains_shift_iff_step? (b : Bitboard) (d : Direction) (t : Square) :
    (b.shift d).contains t = true ↔ ∃ s, b.contains s = true ∧ s.step? d = some t := by
  simp only [contains_shift, Square.step?_eq_some_iff]

/-- The squares of a set that has been moved are the steps of its squares, in the same order; a square whose step
leaves the board has none. -/
theorem squares_shift (b : Bitboard) (d : Direction) :
    (b.shift d).squares = b.squares.filterMap fun s => s.step? d := by
  apply squares_eq_of_pairwise
  · rw [List.pairwise_filterMap]
    exact b.pairwise_squares.imp fun hlt t ht t' ht' => Square.index_lt_of_step? ht ht' hlt
  · intro t
    rw [List.mem_filterMap, contains_shift_iff_step?]
    simp only [mem_squares]

/-- A pawn attacks a square from where the opponent's pawn on that square would attack. -/
theorem contains_attackers (c : Color) (s t : Square) :
    (attackers c s).contains t = true ↔ ((single t).attacks c).contains s = true := by
  rw [attackers, contains_attacks, contains_attacks]
  simp only [contains_single, decide_eq_true_eq, exists_eq_left', Color.aheadLeft_opponent,
    Color.aheadRight_opponent, Direction.leads_opposite]
  exact or_comm

/-- **Sets in motion.** For every word, a moved set contains a square exactly when the set contains one whose
column and row differ from it by the step, so nothing wraps around an edge; in ascending order it lists the steps
of its squares. The squares ahead are the image under the straight step of the side, the attacked squares that
under its two diagonal steps, and a square attacks another exactly when it is one of its attackers. -/
theorem shift_geometry (b : Bitboard) :
    (∀ d t, (b.shift d).contains t = true ↔ ∃ s, b.contains s = true ∧
      (t.column.val : Int) = s.column.val + d.columnStep ∧ (t.row.val : Int) = s.row.val + d.rowStep) ∧
    (∀ d, (b.shift d).squares = b.squares.filterMap fun s => s.step? d) ∧
    (∀ c t, (b.forward c).contains t = true ↔ ∃ s, b.contains s = true ∧ s.step? c.ahead = some t) ∧
    (∀ c t, (b.attacks c).contains t = true ↔
      ∃ s, b.contains s = true ∧ (s.step? c.aheadLeft = some t ∨ s.step? c.aheadRight = some t)) ∧
    ∀ c s t, (attackers c s).contains t = true ↔ ((single t).attacks c).contains s = true := by
  refine ⟨b.contains_shift, b.squares_shift, fun c t => ?_, fun c t => ?_, contains_attackers⟩
  · simp only [contains_forward, Square.step?_eq_some_iff]
  · simp only [contains_attacks, Square.step?_eq_some_iff]

end Bitboard

end Breakthrough
