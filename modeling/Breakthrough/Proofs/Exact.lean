import Mathlib.Algebra.Order.Field.Rat
import Breakthrough.Agent.Greedy

/-!
# Exact scores

Statements about sizes of scores are made over the rationals, where nothing is rounded. The definitions are the
ones that run: they are the same for every kind of number.
-/

namespace Breakthrough

instance : Score ℚ where
  ofNat n := n
  lt := Rat.blt

namespace Exact

theorem lt_iff {x y : ℚ} : Score.lt x y = true ↔ x < y := Iff.rfl

theorem one_eq : (Score.one : ℚ) = 1 := rfl

theorem zero_eq : (Score.zero : ℚ) = 0 := rfl

theorem ofNat_eq (n : ℕ) : (Score.ofNat n : ℚ) = n := rfl

theorem ratio_eq (m n : ℕ) : (Score.ratio m n : ℚ) = m / n := rfl

/-- The numbers from 0 to 1. -/
def InUnit (x : ℚ) : Prop := 0 ≤ x ∧ x ≤ 1

instance (x : ℚ) : Decidable (InUnit x) := inferInstanceAs (Decidable (_ ∧ _))

theorem inUnit_clamp (x : ℚ) : InUnit (Score.clamp x) := by
  unfold Score.clamp
  rw [one_eq, zero_eq]
  split
  · exact ⟨le_refl 0, zero_le_one⟩
  split
  · exact ⟨zero_le_one, le_refl 1⟩
  · rename_i hneg hone
    rw [lt_iff, not_lt] at hneg hone
    exact ⟨hneg, hone⟩

theorem inUnit_ratio {m n : ℕ} (h : m ≤ n) : InUnit (Score.ratio m n) := by
  rw [ratio_eq]
  exact ⟨div_nonneg m.cast_nonneg n.cast_nonneg, div_le_one_of_le₀ (Nat.cast_le.2 h) n.cast_nonneg⟩

/-- The score behind a move for its player. -/
theorem InUnit.flip {x : ℚ} (h : InUnit x) : InUnit (Score.one - x) := by
  change 0 ≤ 1 - x ∧ 1 - x ≤ 1
  exact ⟨sub_nonneg.2 h.2, sub_le_self 1 h.1⟩

theorem inUnit_score (ours theirs : SideSummary) : InUnit (Evaluation.score ours theirs) := by
  unfold Evaluation.score
  split
  · decide +kernel
  · decide +kernel
  · decide +kernel
  · decide +kernel
  · exact inUnit_clamp _
  · exact inUnit_clamp _

theorem inUnit_evaluate (p : Position) : InUnit p.evaluate := inUnit_score _ _

end Exact

end Breakthrough
