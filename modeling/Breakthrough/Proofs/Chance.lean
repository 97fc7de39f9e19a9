import Breakthrough.Agent.Greedy

/-!
# Chances that can be drawn

A chance is a double, and an event of that chance can be drawn when it lies between 0 and 1. Doubles other than
NaN are in order: two of them always compare, and the other way round they compare the other way round. So a
setting that is a number, halved late in the game and moved into the interval, can always be drawn.
-/

namespace Breakthrough

namespace Double

open Float.Model Float.Model.UnpackedFloat

/-! ## The order of doubles -/

theorem compare_swap (a b : UnpackedFloat) : b.compare a = (a.compare b).map Ordering.swap := by
  cases a with
  | notANumber => cases b <;> rfl
  | infinity s =>
    cases b with
    | infinity t => cases s <;> cases t <;> rfl
    | _ => cases s <;> rfl
  | zero s =>
    cases b with
    | infinity t => cases t <;> rfl
    | finite t => cases t <;> rfl
    | _ => rfl
  | finite s m e =>
    cases b with
    | infinity t => cases s <;> cases t <;> rfl
    | finite t n f =>
      have hsize : ((compare e f).then (compare m n)).swap = (compare f e).then (compare n m) := by
        rw [Ordering.swap_then, Nat.compare_swap, Int.compare_swap]
      cases s <;> cases t
      · exact congrArg some (congrArg Ordering.swap hsize.symm)
      · rfl
      · rfl
      · exact congrArg some hsize.symm
    | _ => cases s <;> rfl

theorem exists_compare_eq {a b : UnpackedFloat} (ha : a.isNaN = false) (hb : b.isNaN = false) :
    ∃ order, a.compare b = some order := by
  cases a with
  | notANumber => cases ha
  | infinity s =>
    cases b with
    | notANumber => cases hb
    | _ => cases s <;> exact ⟨_, rfl⟩
  | zero s =>
    cases b with
    | notANumber => cases hb
    | infinity t => cases t <;> exact ⟨_, rfl⟩
    | zero t => exact ⟨_, rfl⟩
    | finite t => cases t <;> exact ⟨_, rfl⟩
  | finite s m e =>
    cases b with
    | notANumber => cases hb
    | infinity t => cases s <;> cases t <;> exact ⟨_, rfl⟩
    | zero t => cases s <;> exact ⟨_, rfl⟩
    | finite t n f => cases s <;> cases t <;> exact ⟨_, rfl⟩

theorem lt_iff (x y : Float) : x < y ↔ x.toModel.compare y.toModel = some .lt := by
  change decide ((x.toModel.compare y.toModel == some .lt) = true) = true ↔ _
  rw [decide_eq_true_eq, beq_iff_eq]

theorem le_iff (x y : Float) :
    x ≤ y ↔ x.toModel.compare y.toModel = some .lt ∨ x.toModel.compare y.toModel = some .eq := by
  change decide ((x.toModel.compare y.toModel).any (·.isLE) = true) = true ↔ _
  rw [decide_eq_true_eq]
  rcases x.toModel.compare y.toModel with _ | _ | _ | _ <;> simp

theorem beq_iff (x y : Float) : (x == y) = true ↔ x.toModel.compare y.toModel = some .eq := by
  change (x.toModel.compare y.toModel == some .eq) = true ↔ _
  rw [beq_iff_eq]

/-- A double lies in the interval from 0 to 1. -/
def InUnit (x : Float) : Prop := (x == 1.0) = true ∨ (0.0 ≤ x ∧ x < 1.0)

theorem inUnit_of_not_lt {x : Float} (h : x.isNaN = false) (hzero : ¬ x < 0.0) (hone : ¬ 1.0 < x) :
    InUnit x := by
  have hswap : ∀ y : Float, y.toModel.compare x.toModel = (x.toModel.compare y.toModel).map Ordering.swap :=
    fun y => compare_swap x.toModel.unpack y.toModel.unpack
  obtain ⟨c, hc⟩ : ∃ order, x.toModel.compare (0.0 : Float).toModel = some order := exists_compare_eq h rfl
  obtain ⟨d, hd⟩ : ∃ order, x.toModel.compare (1.0 : Float).toModel = some order := exists_compare_eq h rfl
  rw [lt_iff, hc] at hzero
  rw [lt_iff, hswap, hd] at hone
  rw [InUnit, beq_iff, le_iff, lt_iff, hswap, hc, hd]
  cases c <;> cases d <;> simp_all

theorem inUnit_clamp {x : Float} (h : x.isNaN = false) : InUnit (Score.clamp x) := by
  have hzero : (Score.zero : Float) = 0.0 := rfl
  have hone : (Score.one : Float) = 1.0 := rfl
  unfold Score.clamp
  rw [hzero, hone]
  split
  · exact .inr (by decide)
  split
  · exact .inl (by decide)
  · rename_i hlow hhigh
    exact inUnit_of_not_lt h (fun hlt => hlow (decide_eq_true hlt)) fun hlt => hhigh (decide_eq_true hlt)

/-! ## Halves -/

/-- Bits with an exponent that is not full, or with an empty mantissa, are a number. -/
theorem isNaN_unpack {b : BitVec Format.binary64.numBits}
    (h : unpackExponent b ≠ -1#_ ∨ unpackMantissa b = 0#_) :
    (UnpackedFloat.unpack Format.binary64 b).isNaN = false := by
  unfold UnpackedFloat.unpack
  extract_lets mantissa exponent power sign
  by_cases hfull : exponent = -1#_
  · have hempty : mantissa = 0#_ := h.resolve_left (not_not_intro hfull)
    rw [if_pos hfull, if_pos hempty]
    rfl
  rw [if_neg hfull]
  by_cases hzero : exponent = 0#_
  · rw [if_pos hzero]
    by_cases hempty : mantissa = 0#_
    · rw [dif_pos hempty]
      rfl
    · rw [dif_neg hempty]
      rfl
  · rw [if_neg hzero]
    rfl

theorem isNaN_pack {f : UnpackedFloat} (h : f.isNaN = false) : (Float.Model.pack f).isNaN = false := by
  refine isNaN_unpack ?_
  change unpackExponent (UnpackedFloat.pack Format.binary64 f) ≠ -1#_ ∨
    unpackMantissa (UnpackedFloat.pack Format.binary64 f) = 0#_
  fun_cases UnpackedFloat.pack Format.binary64 f with
  | case1 => cases h
  | case2 s => simp [packedInfinity]
  | case3 s => simp [packedZero]
  | case4 s m e hm exponent hlarge => simp [packedInfinity]
  | case5 s m e hm bits exponent hlarge hnormal =>
    -- a normal number has an exponent below the full one
    left
    rw [unpackExponent_packComponents]
    intro heq
    have hfull : exponent % 2048 = 2047 := congrArg BitVec.toNat heq
    change ¬ 2048 ≤ exponent + 1 at hlarge
    omega
  | case6 s m e hm bits exponent hlarge hsubnormal => simp

theorem isNaN_ofMantissa (s : Sign) (m : Nat) (e : Int) :
    (if h : m = 0 then UnpackedFloat.zero s else .finite s m e (Nat.pos_of_ne_zero h)).isNaN = false := by
  by_cases h : m = 0
  · rw [dif_pos h]
    rfl
  · rw [dif_neg h]
    rfl

theorem isNaN_roundWithAccuracy (s : Sign) (m : Nat) (e : Int) (accuracy : Accuracy) :
    (roundWithAccuracy Format.binary64 s m e accuracy).isNaN = false := by
  unfold roundWithAccuracy
  exact isNaN_ofMantissa _ _ _

theorem isNaN_half {x : Float} (h : x.isNaN = false) : (x / 2.0).isNaN = false := by
  have htwo : (2.0 : Float).toModel.unpack = .finite .positive 4503599627370496 (-51) (by decide) := rfl
  refine isNaN_pack ?_
  change x.toModel.unpack.isNaN = false at h
  rw [htwo]
  cases hx : x.toModel.unpack with
  | notANumber =>
    rw [hx] at h
    cases h
  | infinity s => rfl
  | zero s => rfl
  | finite s m e hm => exact isNaN_roundWithAccuracy _ _ _ _

end Double

/-! ## Drawing -/

variable {σ : Type} [RandomSource σ]

theorem chance_of_inUnit {x : Float} (h : Double.InUnit x) (g : σ) :
    ∃ event g', chance x g = (.ok event, g') := by
  unfold chance
  split
  · exact ⟨true, g, rfl⟩
  · rename_i hcertain
    obtain ⟨hlow, hhigh⟩ := h.resolve_left hcertain
    rw [if_pos (by simp [hlow, hhigh])]
    exact ⟨_, _, rfl⟩

/-- **The greedy agent's chance can be drawn** at every ply if the setting is a number. -/
theorem Greedy.Config.chance_chanceAt {c : Config} (h : c.epsilon.isNaN = false) (ply : Nat) (g : σ) :
    ∃ event g', chance (c.chanceAt ply) g = (.ok event, g') := by
  refine chance_of_inUnit (Double.inUnit_clamp ?_) g
  split
  · exact h
  · exact Double.isNaN_half h

end Breakthrough
