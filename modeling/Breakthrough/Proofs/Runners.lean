import Breakthrough.Evaluation
import Breakthrough.Proofs.Games

/-!
# Runners

The span of a pawn is computed by moving a set of squares step by step. It is the cone in front of the pawn: a
square counts if it is no more columns away than rows ahead (`contains_span`). A runner is a pawn with fewer than
two opposing pawns in its cone, and the evaluation goes by the runner of either side that is closest to its goal
row (`fastest?_eq_some_iff`). With no runner closer than two rows, a near win is declared for a runner three rows
from its goal and for no other; two rows are passed over (`verdict_nearWin_iff`).
-/

namespace Breakthrough

/-! ## The cone in front of a pawn -/

/-- How many columns lie between two squares. -/
def Square.columnsApart (s t : Square) : Nat := (s.column.val - t.column.val) + (t.column.val - s.column.val)

namespace Color

/-- A pawn of this side could be on `t` after going `n` rows from `s`, if nothing stood in its way. -/
def Within (c : Color) (n : Nat) (s t : Square) : Prop :=
  c.rowsLeft s.row = c.rowsLeft t.row + n ∧ s.columnsApart t ≤ n

/-- The square `t` lies in the cone in front of `s`, whose tip is `s` itself. -/
def InCone (c : Color) (s t : Square) : Prop := c.rowsLeft t.row + s.columnsApart t ≤ c.rowsLeft s.row

instance (c : Color) (s t : Square) : Decidable (c.InCone s t) := inferInstanceAs (Decidable (_ ≤ _))

theorem rowsLeft_lt (c : Color) (row : Fin 8) : c.rowsLeft row < 8 := by
  cases c <;> simp only [rowsLeft] <;> omega

theorem within_zero_iff (c : Color) (s t : Square) : c.Within 0 s t ↔ s = t := by
  constructor
  · rintro ⟨hrow, hcolumn⟩
    rw [Square.columnsApart] at hcolumn
    rw [← Square.of_column_row s, ← Square.of_column_row t]
    have hcolumns : s.column = t.column := by omega
    have hrows : s.row = t.row := by
      have := s.row.isLt
      have := t.row.isLt
      cases c <;> simp only [rowsLeft] at hrow <;> omega
    rw [hcolumns, hrows]
  · rintro rfl
    exact ⟨rfl, by rw [Square.columnsApart]; omega⟩

theorem within_one_iff (c : Color) (s t : Square) :
    c.Within 1 s t ↔ c.ahead.Leads s t ∨ c.aheadLeft.Leads s t ∨ c.aheadRight.Leads s t := by
  have := s.row.isLt
  have := t.row.isLt
  cases c
  all_goals
    simp only [Within, Square.columnsApart, rowsLeft, ahead, aheadLeft, aheadRight, Direction.Leads,
      Direction.columnStep, Direction.rowStep]
    omega

/-- The first of several rows is gone towards the column of the target. -/
theorem within_succ_iff (c : Color) (n : Nat) (s t : Square) :
    c.Within (n + 1) s t ↔ ∃ u, c.Within 1 s u ∧ c.Within n u t := by
  constructor
  · rintro ⟨hrow, hcolumn⟩
    rw [Square.columnsApart] at hcolumn
    have hs := s.column.isLt
    have ht := t.column.isLt
    obtain ⟨column, hone, hrest⟩ : ∃ column : Fin 8,
        (s.column.val - column.val) + (column.val - s.column.val) ≤ 1 ∧
          (column.val - t.column.val) + (t.column.val - column.val) ≤ n := by
      rcases lt_trichotomy s.column.val t.column.val with h | h | h
      · exact ⟨⟨s.column.val + 1, by omega⟩, by simp only; omega, by simp only; omega⟩
      · exact ⟨s.column, by omega, by omega⟩
      · exact ⟨⟨s.column.val - 1, by omega⟩, by simp only; omega, by simp only; omega⟩
    obtain ⟨row, hahead⟩ : ∃ row : Fin 8, c.rowsLeft s.row = c.rowsLeft row + 1 := by
      have := s.row.isLt
      cases c with
      | white =>
        simp only [rowsLeft] at hrow ⊢
        exact ⟨⟨s.row.val + 1, by omega⟩, by simp only; omega⟩
      | black =>
        simp only [rowsLeft] at hrow ⊢
        exact ⟨⟨s.row.val - 1, by omega⟩, by simp only; omega⟩
    refine ⟨.of column row, ⟨?_, ?_⟩, ?_, ?_⟩
    · rw [Square.row_of, hahead]
    · rwa [Square.columnsApart, Square.column_of]
    · rw [Square.row_of]
      omega
    · rwa [Square.columnsApart, Square.column_of]
  · rintro ⟨u, ⟨hrow, hcolumn⟩, hrow', hcolumn'⟩
    rw [Square.columnsApart] at hcolumn hcolumn'
    refine ⟨by omega, ?_⟩
    rw [Square.columnsApart]
    omega

theorem inCone_iff (c : Color) (s t : Square) : c.InCone s t ↔ ∃ n < 8, c.Within n s t := by
  have hlt := c.rowsLeft_lt s.row
  constructor
  · intro h
    rw [InCone] at h
    exact ⟨c.rowsLeft s.row - c.rowsLeft t.row, by omega, by omega, by omega⟩
  · rintro ⟨n, _, hrow, hcolumn⟩
    rw [InCone]
    omega

end Color

namespace Bitboard

theorem contains_next (c : Color) (front : Bitboard) (t : Square) :
    (front.forward c ||| front.attacks c).contains t = true ↔ ∃ s, front.contains s = true ∧ c.Within 1 s t := by
  simp only [contains_or, Bool.or_eq_true, contains_forward, contains_attacks, Color.within_one_iff, ← exists_or,
    ← and_or_left]

/-- Everything that a pawn of the front can be on after one step or more, as many as there are to go. -/
theorem contains_advance (c : Color) (steps : Nat) (front reached : Bitboard) (t : Square) :
    (advance c steps front reached).contains t = true ↔
      reached.contains t = true ∨ ∃ n < steps, ∃ s, front.contains s = true ∧ c.Within (n + 1) s t := by
  induction steps generalizing front reached with
  | zero => simp [advance]
  | succ steps ih =>
    rw [advance]
    split
    · -- the front has left the board
      rename_i hempty
      have hfront := (isEmpty_iff front).1 hempty
      simp [hfront]
    · rw [ih, contains_or, Bool.or_eq_true, or_assoc]
      simp only [contains_next]
      refine or_congr_right ?_
      constructor
      · rintro (⟨s, hs, hst⟩ | ⟨n, hn, u, ⟨s, hs, hsu⟩, hut⟩)
        · exact ⟨0, Nat.succ_pos _, s, hs, hst⟩
        · exact ⟨n + 1, Nat.succ_lt_succ hn, s, hs, (c.within_succ_iff (n + 1) s t).2 ⟨u, hsu, hut⟩⟩
      · rintro ⟨n, hn, s, hs, hst⟩
        cases n with
        | zero => exact .inl ⟨s, hs, hst⟩
        | succ n =>
          obtain ⟨u, hsu, hut⟩ := (c.within_succ_iff (n + 1) s t).1 hst
          exact .inr ⟨n, Nat.lt_of_succ_lt_succ hn, u, ⟨s, hs, hsu⟩, hut⟩

/-- **The span of a pawn is its cone.** Eight steps are enough for the whole board. -/
theorem contains_span (c : Color) (s t : Square) : (span c s).contains t = decide (c.InCone s t) := by
  rw [Bool.eq_iff_iff, decide_eq_true_iff, span, contains_advance, Color.inCone_iff]
  simp only [contains_single, decide_eq_true_eq, exists_eq_left']
  constructor
  · rintro (rfl | ⟨n, hn, h⟩)
    · exact ⟨0, by decide, (c.within_zero_iff s s).2 rfl⟩
    · have hrow := h.1
      have hlt := c.rowsLeft_lt s.row
      exact ⟨n + 1, by omega, h⟩
  · rintro ⟨n, hn, h⟩
    cases n with
    | zero => exact .inl ((c.within_zero_iff s t).1 h)
    | succ n => exact .inr ⟨n, by omega, h⟩

end Bitboard

namespace Evaluation

variable (ours theirs : SideSummary)

theorem verdict_eq_loss_iff :
    verdict ours theirs = .loss ↔ ¬ ours.fastest? = some 1 ∧ theirs.fastest? = some 1 := by
  rw [verdict]
  by_cases hours : ours.fastest? = some 1
  · simp [hours]
  · by_cases htheirs : theirs.fastest? = some 1
    · simp [hours, htheirs]
    · simp only [hours, htheirs, if_false, and_false, iff_false]
      split_ifs <;> decide

theorem verdict_eq_nearWin_iff :
    verdict ours theirs = .nearWin ↔
      ¬ ours.fastest? = some 1 ∧ ¬ theirs.fastest? = some 1 ∧ ours.fastest? = some 3 := by
  rw [verdict]
  by_cases hours : ours.fastest? = some 1
  · simp [hours]
  · by_cases htheirs : theirs.fastest? = some 1
    · simp [hours, htheirs]
    · by_cases hthree : ours.fastest? = some 3
      · simp [htheirs, hthree]
      · simp only [hours, htheirs, hthree, if_false, and_false, iff_false]
        split_ifs <;> decide

end Evaluation

namespace Position

variable {p : Position} {c : Color}

/-! ## The closest runner -/

/-- How many opposing pawns stand in the cone in front of a square. -/
def blockers (p : Position) (c : Color) (s : Square) : Nat :=
  Square.all.countP fun t => c.InCone s t ∧ p.cell t = some c.opponent

/-- A pawn with fewer than two opposing pawns in its cone. -/
def Runner (p : Position) (c : Color) (s : Square) : Prop := p.cell s = some c ∧ p.blockers c s < 2

instance (p : Position) (c : Color) (s : Square) : Decidable (p.Runner c s) := inferInstanceAs (Decidable (_ ∧ _))

/-- The runner of a side that is closest to its goal row has `n` rows to go. -/
def ClosestRunner (p : Position) (c : Color) (n : Nat) : Prop :=
  (∃ s, p.Runner c s ∧ c.rowsLeft s.row = n) ∧ ∀ s, p.Runner c s → n ≤ c.rowsLeft s.row

instance (p : Position) (c : Color) (n : Nat) : Decidable (p.ClosestRunner c n) :=
  decidable_of_iff ((∃ s ∈ Square.all, p.Runner c s ∧ c.rowsLeft s.row = n) ∧
      ∀ s ∈ Square.all, p.Runner c s → n ≤ c.rowsLeft s.row) <| by
    simp only [ClosestRunner, Square.mem_all, true_and, forall_const]

theorem ClosestRunner.eq {m n : Nat} (hm : p.ClosestRunner c m) (hn : p.ClosestRunner c n) : m = n := by
  obtain ⟨⟨s, hs, rfl⟩, hmin⟩ := hm
  obtain ⟨⟨t, ht, rfl⟩, hmin'⟩ := hn
  exact Nat.le_antisymm (hmin t ht) (hmin' s hs)

theorem le_rowsLeft_of_closestRunner {m n k : Nat} (hwhite : p.ClosestRunner .white m)
    (hblack : p.ClosestRunner .black n) (hm : k ≤ m) (hn : k ≤ n) :
    ∀ c s, p.Runner c s → k ≤ c.rowsLeft s.row := by
  intro c s hs
  cases c with
  | white => exact Nat.le_trans hm (hwhite.2 s hs)
  | black => exact Nat.le_trans hn (hblack.2 s hs)

theorem rowsToGoal_eq (c : Color) (s : Square) : rowsToGoal c s = c.rowsLeft s.row := by
  cases c
  · rfl
  · simp only [rowsToGoal, Color.relativeRow, Color.rowsLeft, Fin.val_rev]
    omega

theorem Consistent.isRunner_iff (hp : p.Consistent) (c : Color) (s : Square) :
    p.isRunner c s = true ↔ p.blockers c s < 2 := by
  have hcount : (Bitboard.span c s &&& p.pawns c.opponent).count = p.blockers c s := by
    rw [Bitboard.count, blockers]
    congr 1
    funext t
    rw [Bitboard.contains_and, Bitboard.contains_span, hp.pawns, Bool.decide_and]
  rw [isRunner, hcount, decide_eq_true_iff]

theorem foldl_closer_some (ns : List Nat) (n : Nat) : ns.foldl closer (some n) = some (ns.foldl min n) := by
  induction ns generalizing n with
  | nil => rfl
  | cons m ns ih => exact ih (min n m)

theorem foldl_closer (ns : List Nat) : ns.foldl closer none = ns.min? := by
  cases ns with
  | nil => rfl
  | cons n ns => exact foldl_closer_some ns n

/-- **The distance by which a side is judged is that of its closest runner.** -/
theorem Consistent.fastest?_eq_some_iff (hp : p.Consistent) (c : Color) (n : Nat) :
    p.fastest? c = some n ↔ p.ClosestRunner c n := by
  rw [fastest?, foldl_closer, List.min?_eq_some_iff]
  simp only [List.mem_map, List.mem_filter, Bitboard.mem_squares, hp.pawns, hp.isRunner_iff, decide_eq_true_eq,
    rowsToGoal_eq]
  constructor
  · rintro ⟨hclosest, hmin⟩
    exact ⟨hclosest, fun t ht => hmin _ ⟨t, ht, rfl⟩⟩
  · rintro ⟨hclosest, hmin⟩
    refine ⟨hclosest, ?_⟩
    rintro _ ⟨t, ht, rfl⟩
    exact hmin t ht

/-! ## Verdicts -/

/-- A loss is declared for a runner of the opponent one row from its goal, unless the side to move has one too. -/
theorem Consistent.verdict_eq_loss_iff (hp : p.Consistent) :
    p.verdict = .loss ↔ ¬ p.ClosestRunner p.side 1 ∧ p.ClosestRunner p.side.opponent 1 := by
  rw [verdict, Evaluation.verdict_eq_loss_iff, ← hp.fastest?_eq_some_iff, ← hp.fastest?_eq_some_iff]
  rfl

theorem Consistent.verdict_eq_nearWin_iff (hp : p.Consistent) :
    p.verdict = .nearWin ↔
      ¬ p.ClosestRunner p.side 1 ∧ ¬ p.ClosestRunner p.side.opponent 1 ∧ p.ClosestRunner p.side 3 := by
  simp only [verdict, Evaluation.verdict_eq_nearWin_iff, ← hp.fastest?_eq_some_iff]
  rfl

theorem evaluate_of_nearWin {α : Type} [Score α] (h : p.verdict = .nearWin) :
    (p.evaluate : α) = Score.ratio 8 10 := by
  rw [verdict] at h
  rw [evaluate, Evaluation.score, h]

/-- **A near win is a runner three rows from its goal.** On every position that calls lead to in which no runner
is closer to its goal than two rows, a near win is declared, and scored as such, exactly when the closest runner
of the side to move has three rows to go. That it has two to go is another matter: the two conditions agree only
where neither holds. -/
theorem verdict_nearWin_iff {b : Position} (hb : Origin b) (calls : List Call)
    (hfar : ∀ c s, (b.run calls).Runner c s → 2 ≤ c.rowsLeft s.row) :
    let p := b.run calls
    (p.verdict = .nearWin ↔ p.ClosestRunner p.side 3) ∧
    ((p.verdict = .nearWin ↔ p.ClosestRunner p.side 2) ↔
      ¬ p.ClosestRunner p.side 2 ∧ ¬ p.ClosestRunner p.side 3) ∧
    ∀ (α : Type) [Score α], p.verdict = .nearWin → (p.evaluate : α) = Score.ratio 8 10 := by
  intro p
  have hp : p.Consistent := hb.consistent_run calls
  have hnone : ∀ c, ¬ p.ClosestRunner c 1 := by
    rintro c ⟨⟨s, hs, hrow⟩, _⟩
    have := hfar c s hs
    omega
  have hthree : p.verdict = .nearWin ↔ p.ClosestRunner p.side 3 := by
    rw [hp.verdict_eq_nearWin_iff]
    exact ⟨fun h => h.2.2, fun h => ⟨hnone _, hnone _, h⟩⟩
  refine ⟨hthree, ?_, fun α _ => evaluate_of_nearWin⟩
  rw [hthree]
  constructor
  · intro hiff
    -- one runner cannot have both distances
    have htwo : ¬ p.ClosestRunner p.side 2 := fun h => absurd ((hiff.2 h).eq h) (by decide)
    exact ⟨htwo, fun h => htwo (hiff.1 h)⟩
  · rintro ⟨htwo, hthree⟩
    exact ⟨fun h => absurd h hthree, fun h => absurd h htwo⟩

/-- White has a runner on a5, three rows from its goal. -/
theorem verdict_nearWin_iff_three_rows :
    let text := "........\n.......B\n........\nW.......\n........\n........\n........\n........\n"
    ∃ p, ofDiagram text .white = .ok p ∧ (∀ c s, p.Runner c s → 2 ≤ c.rowsLeft s.row) ∧
      p.ClosestRunner p.side 3 ∧ p.verdict = .nearWin ∧ (p.evaluate : Float) = Score.ratio 8 10 := by
  intro text
  obtain ⟨p, hp⟩ : ∃ p, p = ofBoard (.ofFn fun i =>
    if i = 32 then some .white else if i = 55 then some .black else none) .white .shared := ⟨_, rfl⟩
  have horigin : ofDiagram text .white = .ok p := by
    rw [hp]
    exact ofDiagram_of_rows .white (by decide +kernel)
  have hclosest : p.side = .white ∧ p.ClosestRunner .white 3 ∧ p.ClosestRunner .black 6 := by
    rw [hp]
    decide +kernel
  obtain ⟨hside, hwhite, hblack⟩ := hclosest
  have hfar : ∀ c s, p.Runner c s → 2 ≤ c.rowsLeft s.row :=
    le_rowsLeft_of_closestRunner hwhite hblack (by decide) (by decide)
  obtain ⟨hnear, _, hscore⟩ := verdict_nearWin_iff (.diagram horigin) [] hfar
  have hthree : p.ClosestRunner p.side 3 := hside ▸ hwhite
  exact ⟨p, horigin, hfar, hthree, hnear.2 hthree, hscore Float (hnear.2 hthree)⟩

/-- With the runner on a6, two rows from its goal, no race is seen at all. -/
theorem verdict_of_two_rows :
    let text := "........\n.......B\nW.......\n........\n........\n........\n........\n........\n"
    ∃ p, ofDiagram text .white = .ok p ∧ (∀ c s, p.Runner c s → 2 ≤ c.rowsLeft s.row) ∧
      p.ClosestRunner p.side 2 ∧ p.verdict = .quiet := by
  intro text
  obtain ⟨p, hp⟩ : ∃ p, p = ofBoard (.ofFn fun i =>
    if i = 40 then some .white else if i = 55 then some .black else none) .white .shared := ⟨_, rfl⟩
  have horigin : ofDiagram text .white = .ok p := by
    rw [hp]
    exact ofDiagram_of_rows .white (by decide +kernel)
  have hclosest : p.ClosestRunner .white 2 ∧ p.ClosestRunner .black 6 := by
    rw [hp]
    decide +kernel
  have hverdict : p.side = .white ∧ p.verdict = .quiet := by
    rw [hp]
    decide +kernel
  refine ⟨p, horigin, ?_, hverdict.1 ▸ hclosest.1, hverdict.2⟩
  exact le_rowsLeft_of_closestRunner hclosest.1 hclosest.2 (by decide) (by decide)

end Position

end Breakthrough
