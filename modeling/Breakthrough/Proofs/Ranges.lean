import Mathlib.Tactic.Linarith
import Breakthrough.Proofs.Exact
import Breakthrough.Proofs.Material
import Breakthrough.Proofs.Runners

/-!
# How large the terms of the evaluation are

The points of a side are bounded by the number of its pawns, so every ratio of them is bounded, too. In exact
numbers each term of the weighted score lies between 0 and 1, if no side has more than 16 pawns, and so does the
score itself. In every game that begins with the start layout the clamp at its end has nothing to do
(`run_evaluates_in_unit`).
-/

namespace Breakthrough

namespace Position

/-! ## The points of a side -/

theorem worthOf_le {points : Square → Nat} {most : Nat} (h : ∀ s, points s ≤ most) (squares : List Square) :
    worthOf points squares ≤ most * squares.length := by
  induction squares with
  | nil => exact Nat.zero_le _
  | cons s squares ih =>
    change points s + worthOf points squares ≤ _
    rw [List.length_cons, Nat.mul_succ, Nat.add_comm]
    exact Nat.add_le_add ih (h s)

theorem shapePoints_le (p : Position) (c : Color) (s : Square) : p.shapePoints c s ≤ 3 := by
  unfold shapePoints
  simp only
  split <;> split <;> decide

theorem leverPoints_le (p : Position) (c : Color) (s : Square) : p.leverPoints c s ≤ 2 := by
  unfold leverPoints
  split <;> decide

theorem fastest?_le {p : Position} {c : Color} {n : Nat} (h : p.fastest? c = some n) : n ≤ 7 := by
  rw [fastest?, foldl_closer, List.min?_eq_some_iff] at h
  obtain ⟨s, _, rfl⟩ := List.mem_map.1 h.1
  exact Nat.sub_le _ _

end Position

/-- What the number of a side's pawns says about the rest of its summary. -/
structure SideSummary.Bounded (s : SideSummary) : Prop where
  shape : s.shape ≤ 3 * s.count
  levers : s.levers ≤ 2 * s.count
  fastest : ∀ n, s.fastest? = some n → n ≤ 7

theorem Position.bounded_summary (p : Position) (c : Color) : (p.summary c).Bounded := by
  have hlength : (p.pawns c).squares.length = (p.summary c).count := (p.pawns c).length_squares
  refine ⟨?_, ?_, fun n => fastest?_le⟩
  · rw [← hlength]
    exact worthOf_le (p.shapePoints_le c) _
  · rw [← hlength]
    exact worthOf_le (p.leverPoints_le c) _

namespace Exact

/-! ## Exact terms -/

/-- Moving into the interval leaves what is there. -/
theorem clamp_of_inUnit {x : ℚ} (h : InUnit x) : Score.clamp x = x := by
  unfold Score.clamp
  rw [if_neg, if_neg]
  · rw [lt_iff, one_eq, not_lt]
    exact h.2
  · rw [lt_iff, zero_eq, not_lt]
    exact h.1

variable {ours theirs : SideSummary}

/-- Half of a number relative to a bound of it; where the bound is 0, so is the quotient. -/
theorem half_ratio_bounds (x y : ℚ) (hlow : -y ≤ x) (hhigh : x ≤ y) :
    -(1 / 2) ≤ x / (2 * y) ∧ x / (2 * y) ≤ 1 / 2 := by
  rcases (show 0 ≤ y by linarith).eq_or_lt with rfl | hpos
  · norm_num
  · constructor
    · rw [le_div_iff₀ (by linarith)]
      linarith
    · rw [div_le_iff₀ (by linarith)]
      linarith

theorem shapeRatio_bounds {s : SideSummary} (h : s.Bounded) :
    -(1 / 2) ≤ (s.shapeRatio : ℚ) ∧ (s.shapeRatio : ℚ) ≤ 1 / 2 := by
  have hshape : (s.shape : ℚ) ≤ (3 * s.count : ℕ) := by exact_mod_cast h.shape
  have hnonneg : (0 : ℚ) ≤ s.shape := Nat.cast_nonneg _
  unfold SideSummary.shapeRatio
  split
  · rw [zero_eq]
    norm_num
  · simp only [ofNat_eq]
    exact half_ratio_bounds _ _ (by push_cast at hshape ⊢; linarith) (by push_cast at hshape ⊢; linarith)

theorem inUnit_material (ours theirs : SideSummary) : InUnit (Evaluation.material ours theirs) := by
  have hours : (0 : ℚ) ≤ ours.count := Nat.cast_nonneg _
  have htheirs : (0 : ℚ) ≤ theirs.count := Nat.cast_nonneg _
  have hhalf := half_ratio_bounds (ours.count - theirs.count) (ours.count + theirs.count)
    (by linarith) (by linarith)
  unfold Evaluation.material
  simp only [ofNat_eq, ratio_eq]
  push_cast
  exact ⟨by linarith, by linarith⟩

theorem inUnit_shape (hours : ours.Bounded) (htheirs : theirs.Bounded) :
    InUnit (Evaluation.shape ours theirs) := by
  have hmine := shapeRatio_bounds hours
  have hother := shapeRatio_bounds htheirs
  unfold Evaluation.shape
  simp only [ofNat_eq, ratio_eq]
  push_cast
  exact ⟨by linarith, by linarith⟩

/-- The weight of a guarded pawn is made for 16 pawns. -/
theorem inUnit_levers (hours : ours.Bounded) (htheirs : theirs.Bounded) (hmine : ours.count ≤ 16)
    (hother : theirs.count ≤ 16) : InUnit (Evaluation.levers ours theirs) := by
  have hfew : ∀ {s : SideSummary}, s.Bounded → s.count ≤ 16 → (s.levers : ℚ) ≤ 32 := by
    intro s hs hcount
    have := hs.levers
    exact_mod_cast (by omega : s.levers ≤ 32)
  have hle := hfew hours hmine
  have hle' := hfew htheirs hother
  have hnonneg : (0 : ℚ) ≤ ours.levers := Nat.cast_nonneg _
  have hnonneg' : (0 : ℚ) ≤ theirs.levers := Nat.cast_nonneg _
  unfold Evaluation.levers
  simp only [ofNat_eq, ratio_eq]
  push_cast
  exact ⟨by linarith, by linarith⟩

theorem inUnit_pressedBlend (hours : ours.Bounded) (htheirs : theirs.Bounded) :
    InUnit (Evaluation.pressedBlend ours theirs) := by
  obtain ⟨hmaterial, hmaterial'⟩ := inUnit_material ours theirs
  obtain ⟨hshape, hshape'⟩ := inUnit_shape hours htheirs
  unfold Evaluation.pressedBlend
  simp only [ratio_eq]
  push_cast
  exact ⟨by linarith, by linarith⟩

theorem inUnit_quietBlend (hours : ours.Bounded) (htheirs : theirs.Bounded)
    (hlevers : InUnit (Evaluation.levers ours theirs)) : InUnit (Evaluation.quietBlend ours theirs) := by
  obtain ⟨hmaterial, hmaterial'⟩ := inUnit_material ours theirs
  obtain ⟨hshape, hshape'⟩ := inUnit_shape hours htheirs
  obtain ⟨hlevers, hlevers'⟩ := hlevers
  unfold Evaluation.quietBlend
  simp only [ratio_eq]
  push_cast
  exact ⟨by linarith, by linarith⟩

end Exact

/-! ## Every run from the start -/

/-- The score of two summaries as it is before it is moved into the interval from 0 to 1. -/
def Evaluation.unclamped {α : Type} [Score α] (ours theirs : SideSummary) : α :=
  match verdict ours theirs with
  | .pressed => pressedBlend ours theirs
  | .quiet => quietBlend ours theirs
  | _ => score ours theirs

namespace Exact

theorem score_eq_unclamped {ours theirs : SideSummary} (hpressed : InUnit (Evaluation.pressedBlend ours theirs))
    (hquiet : InUnit (Evaluation.quietBlend ours theirs)) :
    (Evaluation.score ours theirs : ℚ) = Evaluation.unclamped ours theirs := by
  unfold Evaluation.unclamped
  split
  · rename_i hverdict
    rw [Evaluation.score, hverdict]
    exact clamp_of_inUnit hpressed
  · rename_i hverdict
    rw [Evaluation.score, hverdict]
    exact clamp_of_inUnit hquiet
  · rfl

end Exact

namespace Position

open Exact

/-- **The terms of the evaluation stay in their ranges.** On every position the points for shape are at most three
for each pawn of a side, those for levers at most two, and a closest runner has seven rows to go at most. So the
shape relative to its maximum lies between minus one half and one half. In every run from the start layout, whatever
is called, there is a pawn on the board, and in exact numbers material, shape and levers lie between 0 and 1, and so
does either weighted score before the clamp, which therefore changes nothing. -/
theorem run_evaluates_in_unit :
    (∀ (p : Position) (c : Color),
      let s := p.summary c
      s.shape ≤ 3 * s.count ∧ s.levers ≤ 2 * s.count ∧ (s.fastest? = none ∨ ∃ n ≤ 7, s.fastest? = some n) ∧
      -(1 / 2) ≤ (s.shapeRatio : ℚ) ∧ (s.shapeRatio : ℚ) ≤ 1 / 2) ∧
    ∀ (keys : KeyTable) (calls : List Call),
      let p := (startWith keys).run calls
      let ours := p.summary p.side
      let theirs := p.summary p.side.opponent
      0 < ours.count + theirs.count ∧
      InUnit (Evaluation.material ours theirs) ∧ InUnit (Evaluation.shape ours theirs) ∧
      InUnit (Evaluation.levers ours theirs) ∧
      InUnit (Evaluation.pressedBlend ours theirs) ∧ InUnit (Evaluation.quietBlend ours theirs) ∧
      (p.evaluate : ℚ) = Evaluation.unclamped ours theirs := by
  refine ⟨?_, ?_⟩
  · intro p c s
    have hs := p.bounded_summary c
    refine ⟨hs.shape, hs.levers, ?_, shapeRatio_bounds hs⟩
    cases hfastest : s.fastest? with
    | none => exact .inl rfl
    | some n => exact .inr ⟨n, hs.fastest n hfastest, rfl⟩
  · intro keys calls p ours theirs
    have hline : Line (startWith keys) p := line_run_startWith keys calls
    have hours : ours.Bounded := p.bounded_summary p.side
    have htheirs : theirs.Bounded := p.bounded_summary p.side.opponent
    have hlevers := inUnit_levers hours htheirs (hline.count_pawns_le _) (hline.count_pawns_le _)
    have hpressed := inUnit_pressedBlend hours htheirs
    have hquiet := inUnit_quietBlend hours htheirs hlevers
    exact ⟨hline.count_pawns_pos, inUnit_material _ _, inUnit_shape hours htheirs, hlevers, hpressed, hquiet,
      score_eq_unclamped hpressed hquiet⟩

/-- One pawn more than at the start is too much for the levers. -/
example :
    let p := ofBoard (.ofFn fun i => if i.val < 17 then some .white else none) .white .shared
    (Evaluation.levers (p.summary .white) (p.summary .black) : ℚ) = 33 / 32 := by
  decide +kernel

end Position

end Breakthrough
