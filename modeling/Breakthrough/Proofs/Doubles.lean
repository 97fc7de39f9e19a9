import Breakthrough.Proofs.Chance

/-!
# Doubles

What the seeds of a search need of floating-point numbers. Numbers, NaN apart, are ordered (`lt_iff_below`), so
they can be sorted. Unpacking a double and packing it again loses nothing (`pack_unpack`), and what has come out
of a double needs no rounding, so a division by one changes nothing (`div_one`). A fraction of two counters is a
number (`isNaN_ratio`), and counting up is exact (`ofNat_add_one`).
-/

namespace Breakthrough.Double

open Float.Model Float.Model.UnpackedFloat

/-! ## The order of numbers -/

/-- The place of a number among the doubles: by kind and sign, then by exponent, then by mantissa. -/
def rank : UnpackedFloat → Int × Int × Int
  | .infinity .negative => (-2, 0, 0)
  | .finite .negative m e _ => (-1, -e, -m)
  | .zero _ => (0, 0, 0)
  | .finite .positive m e _ => (1, e, m)
  | .infinity .positive => (2, 0, 0)
  | .notANumber => (3, 0, 0)

/-- The order of places. -/
def Below (x y : Int × Int × Int) : Prop :=
  x.1 < y.1 ∨ x.1 = y.1 ∧ (x.2.1 < y.2.1 ∨ x.2.1 = y.2.1 ∧ x.2.2 < y.2.2)

theorem Below.not_symm {x y : Int × Int × Int} (h : Below x y) : ¬ Below y x := by
  unfold Below at h ⊢
  omega

theorem not_below_trans {x y z : Int × Int × Int} (hxy : ¬ Below x y) (hyz : ¬ Below y z) : ¬ Below x z := by
  unfold Below at hxy hyz ⊢
  omega

theorem compare_natCast (m n : Nat) : compare (m : Int) (n : Int) = compare m n := by
  rcases Nat.lt_trichotomy m n with h | h | h
  · rw [Nat.compare_eq_lt.2 h, Int.compare_eq_lt.2 (Int.ofNat_lt.2 h)]
  · rw [Nat.compare_eq_eq.2 h, Int.compare_eq_eq.2 (Int.natCast_inj.2 h)]
  · rw [Nat.compare_eq_gt.2 h, Int.compare_eq_gt.2 (Int.ofNat_lt.2 h)]

theorem compare_neg (x y : Int) : compare (-x) (-y) = compare y x := by
  rcases Int.lt_trichotomy x y with h | h | h
  · rw [Int.compare_eq_gt.2 h, Int.compare_eq_gt.2 (by omega)]
  · rw [Int.compare_eq_eq.2 h.symm, Int.compare_eq_eq.2 (by omega)]
  · rw [Int.compare_eq_lt.2 h, Int.compare_eq_lt.2 (by omega)]

/-- Numbers compare as their places do. -/
theorem compare_eq_rank {a b : UnpackedFloat} (ha : a.isNaN = false) (hb : b.isNaN = false) :
    a.compare b = some ((compare (rank a).1 (rank b).1).then
      ((compare (rank a).2.1 (rank b).2.1).then (compare (rank a).2.2 (rank b).2.2))) := by
  cases a with
  | notANumber => cases ha
  | infinity s =>
    cases b with
    | notANumber => cases hb
    | infinity t => cases s <;> cases t <;> rfl
    | zero t => cases s <;> rfl
    | finite t n f => cases s <;> cases t <;> rfl
  | zero s =>
    cases b with
    | notANumber => cases hb
    | infinity t => cases t <;> rfl
    | zero t => rfl
    | finite t n f => cases t <;> rfl
  | finite s m e =>
    cases b with
    | notANumber => cases hb
    | infinity t => cases s <;> cases t <;> rfl
    | zero t => cases s <;> rfl
    | finite t n f =>
      cases s <;> cases t
      · change some ((compare e f).then (compare m n)).swap =
          some ((compare (-e) (-f)).then (compare (-(m : Int)) (-(n : Int))))
        rw [compare_neg, compare_neg, compare_natCast, Ordering.swap_then, Nat.compare_swap, Int.compare_swap]
      · rfl
      · rfl
      · change some ((compare e f).then (compare m n)) = some ((compare e f).then (compare (m : Int) (n : Int)))
        rw [compare_natCast]

theorem lt_iff_below {x y : Float} (hx : x.isNaN = false) (hy : y.isNaN = false) :
    x < y ↔ Below (rank x.toModel.unpack) (rank y.toModel.unpack) := by
  have hcompare : x.toModel.compare y.toModel = _ := compare_eq_rank hx hy
  rw [lt_iff, hcompare, Option.some.injEq, Ordering.then_eq_lt, Ordering.then_eq_lt, Int.compare_eq_lt,
    Int.compare_eq_lt, Int.compare_eq_lt, Int.compare_eq_eq, Int.compare_eq_eq]
  rfl

theorem lt_irrefl (x : Float) : ¬ x < x := by
  have hswap : x.toModel.compare x.toModel = (x.toModel.compare x.toModel).map Ordering.swap :=
    compare_swap x.toModel.unpack x.toModel.unpack
  rw [lt_iff]
  intro hlt
  rw [hlt] at hswap
  cases hswap

theorem not_lt_iff_le {x y : Float} (hx : x.isNaN = false) (hy : y.isNaN = false) : ¬ y < x ↔ x ≤ y := by
  have hswap : y.toModel.compare x.toModel = (x.toModel.compare y.toModel).map Ordering.swap :=
    compare_swap x.toModel.unpack y.toModel.unpack
  obtain ⟨order, horder⟩ : ∃ order, x.toModel.compare y.toModel = some order := exists_compare_eq hx hy
  rw [lt_iff, le_iff, hswap, horder]
  cases order <;> decide

theorem isNaN_of_beq {x y : Float} (h : (x == y) = true) : x.isNaN = false ∧ y.isNaN = false := by
  rw [beq_iff] at h
  change x.toModel.unpack.compare y.toModel.unpack = some .eq at h
  change x.toModel.unpack.isNaN = false ∧ y.toModel.unpack.isNaN = false
  cases hx : x.toModel.unpack with
  | notANumber =>
    rw [hx] at h
    cases h
  | _ =>
    refine ⟨rfl, ?_⟩
    cases hy : y.toModel.unpack with
    | notANumber =>
      rw [hx, hy] at h
      cases h
    | _ => rfl

/-- Equal numbers have one place. -/
theorem rank_eq_of_beq {x y : Float} (h : (x == y) = true) :
    rank x.toModel.unpack = rank y.toModel.unpack := by
  obtain ⟨hx, hy⟩ := isNaN_of_beq h
  have hcompare : x.toModel.compare y.toModel = _ := compare_eq_rank hx hy
  rw [beq_iff, hcompare, Option.some.injEq, Ordering.then_eq_eq, Ordering.then_eq_eq, Int.compare_eq_eq,
    Int.compare_eq_eq, Int.compare_eq_eq] at h
  exact Prod.ext h.1 (Prod.ext h.2.1 h.2.2)

theorem le_of_beq {x y z : Float} (hx : (x == z) = true) (hy : (y == z) = true) : x ≤ y := by
  have hnumber := (isNaN_of_beq hx).1
  have hnumber' := (isNaN_of_beq hy).1
  rw [← not_lt_iff_le hnumber hnumber', lt_iff_below hnumber' hnumber, rank_eq_of_beq hx, rank_eq_of_beq hy]
  exact fun hbelow => hbelow.not_symm hbelow

/-! ## Packing -/

theorem toBitVec_ofBitVec (b : BitVec 1) : (Sign.ofBitVec b).toBitVec = b := by
  revert b
  decide

/-- A double is put together from its parts. -/
theorem packComponents_of_parts (b : BitVec Format.binary64.numBits) :
    packComponents Format.binary64 (Sign.ofBitVec (unpackSign b)) (unpackExponent b) (unpackMantissa b) = b := by
  apply BitVec.eq_of_getLsbD_eq
  intro i hi
  change i < 64 at hi
  rw [packComponents, toBitVec_ofBitVec]
  unfold unpackSign unpackExponent unpackMantissa
  simp only [BitVec.getLsbD_append, BitVec.getLsbD_cast, BitVec.getLsbD_extract]
  by_cases hm : i < 52
  · rw [if_pos hm, decide_eq_true (by omega), Bool.true_and, Nat.zero_add]
  rw [if_neg hm]
  by_cases he : i - 52 < 11
  · rw [if_pos he, decide_eq_true (by omega), Bool.true_and, Nat.add_sub_cancel' (by omega)]
  · rw [if_neg he, decide_eq_true (by omega), Bool.true_and, show 52 + 11 + (i - 52 - 11) = i by omega]

theorem unpackSign_packComponents (s : Sign) (e : BitVec 11) (m : BitVec 52) :
    Sign.ofBitVec (unpackSign (packComponents Format.binary64 s e m)) = s := by
  have hsign : unpackSign (packComponents Format.binary64 s e m) = s.toBitVec := by
    apply BitVec.eq_of_getLsbD_eq
    intro i hi
    obtain rfl : i = 0 := by omega
    unfold unpackSign packComponents
    simp only [BitVec.getLsbD_append, BitVec.getLsbD_cast, BitVec.getLsbD_extract]
    rfl
  rw [hsign]
  cases s <;> rfl

theorem pack_finite (s : Sign) (m : Nat) (e : Int) (hm : 0 < m) :
    UnpackedFloat.pack Format.binary64 (.finite s m e hm) =
      if 2048 ≤ (e + 1023 + 52).toNat + 1 then packedInfinity Format.binary64 s
      else if m.log2 + 1 = 53 then
        packComponents Format.binary64 s (BitVec.ofNat 11 (e + 1023 + 52).toNat) (BitVec.ofNat 52 m)
      else packComponents Format.binary64 s 0#11 (BitVec.ofNat 52 m) :=
  rfl

theorem toNat_implicit (mantissa : BitVec 52) : (1#1 ++ mantissa).toNat = 4503599627370496 + mantissa.toNat := by
  rw [BitVec.toNat_append, ← Nat.shiftLeft_add_eq_or_of_lt mantissa.isLt]
  rfl

/-- What a double is, by its exponent and its mantissa. -/
theorem unpack_cases (b : BitVec Format.binary64.numBits) :
    let s := Sign.ofBitVec (unpackSign b)
    let e : BitVec 11 := unpackExponent b
    let m : BitVec 52 := unpackMantissa b
    let f := UnpackedFloat.unpack Format.binary64 b
    (e = -1#_ ∧ m = 0#_ ∧ f = .infinity s) ∨ (e = -1#_ ∧ m ≠ 0#_ ∧ f = .notANumber) ∨
    (e = 0#_ ∧ m = 0#_ ∧ f = .zero s) ∨
    (∃ hm : 0 < m.toNat, e = 0#_ ∧ f = .finite s m.toNat (-1074) hm) ∨
    ∃ hm : 0 < (1#1 ++ m).toNat, e.toNat ≠ 0 ∧ e.toNat ≠ 2047 ∧
      f = .finite s (1#1 ++ m).toNat (e.toNat - (1023 + 52)) hm := by
  intro s e m f
  have hf : f = UnpackedFloat.unpack Format.binary64 b := rfl
  unfold UnpackedFloat.unpack at hf
  dsimp only at hf
  by_cases hfull : e = -1#_
  · rw [if_pos hfull] at hf
    by_cases hempty : m = 0#_
    · rw [if_pos hempty] at hf
      exact .inl ⟨hfull, hempty, hf⟩
    · rw [if_neg hempty] at hf
      exact .inr (.inl ⟨hfull, hempty, hf⟩)
  rw [if_neg hfull] at hf
  by_cases hzero : e = 0#_
  · rw [if_pos hzero] at hf
    by_cases hempty : m = 0#_
    · rw [dif_pos hempty] at hf
      exact .inr (.inr (.inl ⟨hzero, hempty, hf⟩))
    · rw [dif_neg hempty] at hf
      have hpos : 0 < m.toNat := Nat.pos_of_ne_zero fun h => hempty (BitVec.eq_of_toNat_eq h)
      refine .inr (.inr (.inr (.inl ⟨hpos, hzero, hf.trans ?_⟩)))
      have hpower : (e.toNat : Int) - (1023 + 52) + 1 = -1074 := by
        rw [hzero]
        rfl
      exact congrArg (UnpackedFloat.finite s m.toNat · hpos) hpower
  · rw [if_neg hzero] at hf
    have hpos : 0 < (1#1 ++ m).toNat := by
      rw [toNat_implicit]
      omega
    exact .inr (.inr (.inr (.inr ⟨hpos, fun h => hzero (BitVec.eq_of_toNat_eq h),
      fun h => hfull (BitVec.eq_of_toNat_eq h), hf⟩)))

theorem log2_implicit (mantissa : BitVec 52) : (1#1 ++ mantissa).toNat.log2 = 52 := by
  have hless : mantissa.toNat < 4503599627370496 := mantissa.isLt
  have hbits := toNat_implicit mantissa
  rw [Nat.log2_eq_iff (by omega), hbits]
  change 4503599627370496 ≤ _ ∧ _ < 9007199254740992
  omega

/-- Unpacking loses nothing. -/
theorem pack_unpack {b : BitVec Format.binary64.numBits} (hb : Format.binary64.Valid b) :
    UnpackedFloat.pack Format.binary64 (UnpackedFloat.unpack Format.binary64 b) = b := by
  have hparts := packComponents_of_parts b
  have hmantissa : (unpackMantissa b : BitVec 52).toNat < 4503599627370496 := (unpackMantissa b).isLt
  have hexponent : (unpackExponent b : BitVec 11).toNat < 2048 := (unpackExponent b).isLt
  rcases unpack_cases b with
    ⟨he, hm, hf⟩ | ⟨he, hm, hf⟩ | ⟨he, hm, hf⟩ | ⟨hpos, he, hf⟩ | ⟨hpos, he, hless, hf⟩
  · rw [he, hm] at hparts
    rw [hf]
    exact hparts
  · rw [hf]
    exact (hb.eq_packedNaN he hm).symm
  · rw [he, hm] at hparts
    rw [hf]
    exact hparts
  · have hlog : (unpackMantissa b : BitVec 52).toNat.log2 < 52 := (Nat.log2_lt (Nat.ne_of_gt hpos)).2 hmantissa
    rw [he] at hparts
    rw [hf, pack_finite, if_neg (by decide), if_neg (by omega), BitVec.ofNat_toNat, BitVec.setWidth_eq]
    exact hparts
  · have hlog := log2_implicit (unpackMantissa b)
    have hpower : ((unpackExponent b : BitVec 11).toNat - (1023 + 52) + 1023 + 52 : Int).toNat =
        (unpackExponent b : BitVec 11).toNat := by
      omega
    have hlast : BitVec.ofNat 52 (1#1 ++ (unpackMantissa b : BitVec 52)).toNat = unpackMantissa b := by
      apply BitVec.eq_of_toNat_eq
      rw [BitVec.toNat_ofNat, toNat_implicit]
      change (4503599627370496 + (unpackMantissa b : BitVec 52).toNat) % 4503599627370496 = _
      omega
    rw [hf, pack_finite, hpower, if_neg (by omega), if_pos (by omega), hlast, BitVec.ofNat_toNat,
      BitVec.setWidth_eq]
    exact hparts

theorem ofModel_pack_unpack (x : Float) : Float.ofModel (Float.Model.pack x.toModel.unpack) = x := by
  obtain ⟨bits, valid⟩ := x
  exact congrArg Float.ofModel (by rw [Float.Model.mk.injEq]; exact congrArg UInt64.ofBitVec (pack_unpack valid))

/-- The form in which a finite double is unpacked: a full mantissa, or the least exponent. -/
def IsCanonical (m : Nat) (e : Int) : Prop :=
  m < 9007199254740992 ∧ -1074 ≤ e ∧ (4503599627370496 ≤ m ∨ e = -1074)

theorem canonical_unpack {b : BitVec Format.binary64.numBits} {s : Sign} {m : Nat} {e : Int} {hm : 0 < m}
    (h : UnpackedFloat.unpack Format.binary64 b = .finite s m e hm) : IsCanonical m e := by
  have hmantissa : (unpackMantissa b : BitVec 52).toNat < 4503599627370496 := (unpackMantissa b).isLt
  have himplicit := toNat_implicit (unpackMantissa b)
  unfold IsCanonical
  rcases unpack_cases b with
    ⟨_, _, hf⟩ | ⟨_, _, hf⟩ | ⟨_, _, hf⟩ | ⟨_, _, hf⟩ | ⟨_, _, _, hf⟩
  · cases hf.symm.trans h
  · cases hf.symm.trans h
  · cases hf.symm.trans h
  · injection hf.symm.trans h
    omega
  · injection hf.symm.trans h
    omega

/-! ## Rounding -/

theorem targetExponent_eq (t : Int) : Format.binary64.targetExponent t = max (t - 53) (-1074) := rfl

theorem log2_shiftLeft {m : Nat} (hm : 0 < m) (k : Nat) : (m <<< k).log2 = m.log2 + k := by
  induction k with
  | zero => rfl
  | succ k ih =>
    have hpos : m <<< k ≠ 0 := by
      rw [Nat.shiftLeft_eq]
      exact Nat.ne_of_gt (Nat.mul_pos hm (Nat.two_pow_pos k))
    rw [Nat.shiftLeft_succ, Nat.log2_two_mul hpos, ih]
    omega

theorem target_of_isCanonical {m : Nat} {e : Int} (hm : 0 < m) (h : IsCanonical m e) :
    Format.binary64.targetExponent (totalExponent m e) = e := by
  obtain ⟨hless, hlow, hform⟩ := h
  have hhigh : m.log2 < 53 := (Nat.log2_lt (Nat.ne_of_gt hm)).2 hless
  rw [targetExponent_eq, totalExponent]
  rcases hform with hfull | rfl
  · have hlog : 52 ≤ m.log2 := (Nat.le_log2 (Nat.ne_of_gt hm)).2 hfull
    omega
  · omega

theorem shiftRight_shiftLeft (m k : Nat) :
    (ExtendedMantissa.mk (m <<< k) false false) >>> k = ExtendedMantissa.mk m false false := by
  induction k generalizing m with
  | zero => rfl
  | succ k ih =>
    have hstep : m <<< (k + 1) = (2 * m) <<< k := rfl
    have hrest : k.repeat ExtendedMantissa.shiftRightOne (.mk ((2 * m) <<< k) false false) = .mk (2 * m) false false :=
      ih (2 * m)
    change ExtendedMantissa.shiftRightOne
      (k.repeat ExtendedMantissa.shiftRightOne (.mk (m <<< (k + 1)) false false)) = _
    rw [hstep, hrest]
    change ExtendedMantissa.mk (2 * m / 2) (2 * m % 2 != 0) false = _
    rw [Nat.mul_div_cancel_left m (by decide), Nat.mul_mod_right]
    rfl

theorem shift_of_isCanonical {m : Nat} {e : Int} (hm : 0 < m) (h : IsCanonical m e) (k : Nat) :
    shiftToTargetExponent Format.binary64 (m <<< k) (e - k) .exact = (.mk m false false, e) := by
  have htotal : totalExponent (m <<< k) (e - k) = totalExponent m e := by
    rw [totalExponent, totalExponent, log2_shiftLeft hm]
    omega
  have hamount : (e - (e - k)).toNat = k := by omega
  rw [shiftToTargetExponent, htotal, target_of_isCanonical hm h]
  change (ExtendedMantissa.mk (m <<< k) false false >>> (e - (e - k)).toNat,
    e - k + ((e - (e - k)).toNat : Int)) = _
  rw [hamount, shiftRight_shiftLeft, Int.sub_add_cancel]

/-- Rounding gives a number in canonical form back, however far its mantissa has been shifted. -/
theorem round_of_isCanonical (s : Sign) {m : Nat} {e : Int} (hm : 0 < m) (h : IsCanonical m e) (k : Nat) :
    roundWithAccuracy Format.binary64 s (m <<< k) (e - k) .exact = .finite s m e hm := by
  have hagain : shiftToTargetExponent Format.binary64 m e .exact = (.mk m false false, e) := by
    simpa using shift_of_isCanonical hm h 0
  unfold roundWithAccuracy
  rw [shift_of_isCanonical hm h k]
  dsimp only
  have hrounded : (ExtendedMantissa.mk m false false).roundedMantissa = m := rfl
  rw [hrounded, hagain]
  exact dif_neg (Nat.ne_of_gt hm)

theorem unpack_one : (1.0 : Float).toModel.unpack = .finite .positive 4503599627370496 (-52) (by decide) := rfl

theorem div_finite_one (s : Sign) {m : Nat} {e : Int} (hm : 0 < m) (h : IsCanonical m e) :
    UnpackedFloat.div Format.binary64 (.finite s m e hm) (.finite .positive 4503599627370496 (-52) (by decide)) =
      .finite s m e hm := by
  have htarget := target_of_isCanonical hm h
  have hlow := h.2.1
  have hone : totalExponent 4503599627370496 (-52) = 1 := rfl
  -- the quotient has at most one binary place more than the dividend
  obtain ⟨k, hk⟩ : ∃ k : Nat, min (e - (-52)) (Format.binary64.targetExponent (totalExponent m e - 1)) = e - k := by
    rw [targetExponent_eq] at htarget ⊢
    exact ⟨(e - max (totalExponent m e - 1 - 53) (-1074)).toNat, by omega⟩
  have hshift : (e - (-52) - (e - k)).toNat = k + 52 := by omega
  have hmul : m <<< (k + 52) = m <<< k * 4503599627370496 := by
    rw [Nat.shiftLeft_add, Nat.shiftLeft_eq (m <<< k)]
  have hcore : divCore Format.binary64 m e 4503599627370496 (-52) = (m <<< k, e - k, .exact) := by
    unfold divCore
    dsimp only
    rw [hone, hk, hshift, hmul, Nat.mul_div_cancel _ (by decide), Nat.mul_mod_left]
    rfl
  have hsign : s / .positive = s := by cases s <;> rfl
  change roundWithAccuracy Format.binary64 (s / .positive) (divCore Format.binary64 m e 4503599627370496 (-52)).1
    (divCore Format.binary64 m e 4503599627370496 (-52)).2.1
    (divCore Format.binary64 m e 4503599627370496 (-52)).2.2 = _
  rw [hcore, hsign]
  exact round_of_isCanonical s hm h k

/-- Division by one changes nothing. -/
theorem div_one (x : Float) : x / 1.0 = x := by
  have hx : UnpackedFloat.div Format.binary64 x.toModel.unpack (1.0 : Float).toModel.unpack = x.toModel.unpack := by
    rw [unpack_one]
    cases hunpack : x.toModel.unpack with
    | notANumber => rfl
    | infinity s => cases s <;> rfl
    | zero s => cases s <;> rfl
    | finite s m e hm => exact div_finite_one s hm (canonical_unpack hunpack)
  exact (congrArg (fun f => Float.ofModel (Float.Model.pack f)) hx).trans (ofModel_pack_unpack x)

theorem mul_finite_one (s : Sign) {m : Nat} {e : Int} (hm : 0 < m) (h : IsCanonical m e) :
    UnpackedFloat.mul Format.binary64 (.finite s m e hm) (.finite .positive 4503599627370496 (-52) (by decide)) =
      .finite s m e hm := by
  have hsign : s * .positive = s := by cases s <;> rfl
  change roundWithAccuracy Format.binary64 (s * .positive) (m * 4503599627370496) (e + -52) .exact = _
  rw [hsign]
  have hmul : m * 4503599627370496 = m <<< 52 := (Nat.shiftLeft_eq m 52).symm
  rw [hmul]
  exact round_of_isCanonical s hm h 52

theorem mul_one (x : Float) : x * 1.0 = x := by
  have hx : UnpackedFloat.mul Format.binary64 x.toModel.unpack (1.0 : Float).toModel.unpack = x.toModel.unpack := by
    rw [unpack_one]
    cases hunpack : x.toModel.unpack with
    | notANumber => rfl
    | infinity s => cases s <;> rfl
    | zero s => cases s <;> rfl
    | finite s m e hm => exact mul_finite_one s hm (canonical_unpack hunpack)
  exact (congrArg (fun f => Float.ofModel (Float.Model.pack f)) hx).trans (ofModel_pack_unpack x)

/-! ## Whole numbers -/

/-- A whole number is rounded to itself, however far its mantissa has been shifted. -/
theorem normalize_whole {n : Nat} (hpos : 0 < n) (hn : n < 9007199254740992) (k : Nat) :
    UnpackedFloat.normalize Format.binary64 ((n <<< k : Nat) : Int) (-k) .positive =
      .finite .positive (n <<< (52 - n.log2)) (-(52 - n.log2 : Nat)) (Nat.shiftLeft_pos_iff.2 hpos) := by
  have hlog : n.log2 < 53 := (Nat.log2_lt (Nat.ne_of_gt hpos)).2 hn
  have hfull : (n <<< (52 - n.log2)).log2 = 52 := by
    rw [log2_shiftLeft hpos]
    omega
  have hform : IsCanonical (n <<< (52 - n.log2)) (-(52 - n.log2 : Nat)) := by
    have hbounds := (Nat.log2_eq_iff (Nat.ne_of_gt (Nat.shiftLeft_pos_iff.2 hpos))).1 hfull
    change 4503599627370496 ≤ _ ∧ _ < 9007199254740992 at hbounds
    unfold IsCanonical
    omega
  have htarget : Format.binary64.targetExponent (totalExponent (n <<< k) (-k)) = -(52 - n.log2 : Nat) := by
    rw [targetExponent_eq, totalExponent, log2_shiftLeft hpos]
    omega
  -- the mantissa has been shifted beyond its full length, or else it is shifted up to it now
  obtain ⟨shift, hshift⟩ : ∃ shift, (-(k : Int) - -((52 - n.log2 : Nat) : Int)).toNat = shift := ⟨_, rfl⟩
  obtain ⟨beyond, hbeyond⟩ : ∃ beyond, k + shift = 52 - n.log2 + beyond := ⟨k + shift - (52 - n.log2), by omega⟩
  have hmantissa : n <<< k <<< shift = n <<< (52 - n.log2) <<< beyond := by
    rw [← Nat.shiftLeft_add, ← Nat.shiftLeft_add, hbeyond]
  have hexponent : -(k : Int) - shift = -(52 - n.log2 : Nat) - beyond := by omega
  have hgt : compare ((n <<< k : Nat) : Int) 0 = .gt :=
    Int.compare_eq_gt.2 (Int.natCast_pos.2 (Nat.shiftLeft_pos_iff.2 hpos))
  have hround := round_of_isCanonical .positive (Nat.shiftLeft_pos_iff.2 hpos) hform beyond
  unfold UnpackedFloat.normalize
  rw [hgt]
  change UnpackedFloat.round Format.binary64 .positive (n <<< k) (-k) = _
  unfold UnpackedFloat.round
  dsimp only
  rw [htarget, decreaseExponent]
  dsimp only
  rw [hshift, hmantissa, hexponent]
  exact hround

theorem round_whole {n : Nat} (hpos : 0 < n) (hn : n < 9007199254740992) :
    UnpackedFloat.ofNat Format.binary64 n =
      .finite .positive (n <<< (52 - n.log2)) (-(52 - n.log2 : Nat)) (Nat.shiftLeft_pos_iff.2 hpos) :=
  normalize_whole hpos hn 0

/-- A whole number is unpacked as it was rounded. -/
theorem unpack_ofNat {n : Nat} (hpos : 0 < n) (hn : n < UInt32.size) :
    (Float.ofNat n).toModel.unpack =
      .finite .positive (n <<< (52 - n.log2)) (-(52 - n.log2 : Nat)) (Nat.shiftLeft_pos_iff.2 hpos) := by
  have hsmall : n < 9007199254740992 := Nat.lt_trans hn (by decide)
  have hlog : n.log2 < 53 := (Nat.log2_lt (Nat.ne_of_gt hpos)).2 hsmall
  have hword : n.toUInt64.toNat = n := Nat.mod_eq_of_lt (Nat.lt_trans hn (by decide))
  have hfloat : Float.ofNat n = n.toUInt64.toFloat := by
    have hscientific : Float.ofNat n = n.toUInt64.toFloat * 1.0 := dif_pos ⟨hsmall, by decide⟩
    rw [hscientific, mul_one]
  obtain ⟨b, hb⟩ : ∃ b : BitVec Format.binary64.numBits, (Float.ofNat n).toModel.toBits.toBitVec = b := ⟨_, rfl⟩
  have hbits : b = packComponents Format.binary64 .positive
      (BitVec.ofNat 11 (-(52 - n.log2 : Nat) + 1023 + 52 : Int).toNat) (BitVec.ofNat 52 (n <<< (52 - n.log2))) := by
    rw [← hb, hfloat]
    change UnpackedFloat.pack Format.binary64 (UnpackedFloat.ofNat Format.binary64 n.toUInt64.toNat) = _
    rw [hword, round_whole hpos hsmall, pack_finite, if_neg (by omega), if_pos]
    rw [log2_shiftLeft hpos]
    omega
  have hsign : Sign.ofBitVec (unpackSign b) = .positive := by
    rw [hbits]
    exact unpackSign_packComponents _ _ _
  have hexponent : (unpackExponent b : BitVec 11).toNat = (-(52 - n.log2 : Nat) + 1023 + 52 : Int).toNat % 2048 := by
    rw [hbits, unpackExponent_packComponents]
    rfl
  have hmantissa : (unpackMantissa b : BitVec 52).toNat = n <<< (52 - n.log2) % 4503599627370496 := by
    rw [hbits, unpackMantissa_packComponents]
    rfl
  have hbounds := (Nat.log2_eq_iff (Nat.ne_of_gt (Nat.shiftLeft_pos_iff.2 hpos))).1
    (show (n <<< (52 - n.log2)).log2 = 52 by rw [log2_shiftLeft hpos]; omega)
  change 4503599627370496 ≤ _ ∧ _ < 9007199254740992 at hbounds
  have himplicit := toNat_implicit (unpackMantissa b)
  change UnpackedFloat.unpack Format.binary64 (Float.ofNat n).toModel.toBits.toBitVec = _
  rw [hb]
  -- the exponent is neither empty nor full
  rcases unpack_cases b with ⟨he, _, _⟩ | ⟨he, _, _⟩ | ⟨he, _, _⟩ | ⟨_, he, _⟩ | ⟨hpos', _, _, hf⟩
  · rw [he] at hexponent
    change 2047 = _ at hexponent
    omega
  · rw [he] at hexponent
    change 2047 = _ at hexponent
    omega
  · rw [he] at hexponent
    change 0 = _ at hexponent
    omega
  · rw [he] at hexponent
    change 0 = _ at hexponent
    omega
  · rw [hf, UnpackedFloat.finite.injEq]
    exact ⟨hsign, by omega, by omega⟩

theorem isNaN_ofNat {n : Nat} (hn : n < UInt32.size) : (Float.ofNat n).isNaN = false := by
  rcases Nat.eq_zero_or_pos n with rfl | hpos
  · rfl
  · change (Float.ofNat n).toModel.unpack.isNaN = false
    rw [unpack_ofNat hpos hn]
    rfl

theorem isNaN_ratio {w n : Nat} (hpos : 0 < n) (hw : w ≤ n) (hn : n < UInt32.size) :
    (Score.ratio w n : Float).isNaN = false := by
  have hnumber := isNaN_ofNat (Nat.lt_of_le_of_lt hw hn)
  change (Float.ofNat w).toModel.unpack.isNaN = false at hnumber
  refine isNaN_pack ?_
  change (UnpackedFloat.div Format.binary64 (Float.ofNat w).toModel.unpack (Float.ofNat n).toModel.unpack).isNaN = false
  rw [unpack_ofNat hpos hn]
  cases hw : (Float.ofNat w).toModel.unpack with
  | notANumber =>
    rw [hw] at hnumber
    cases hnumber
  | infinity t => rfl
  | zero t => rfl
  | finite t k f hk => exact isNaN_roundWithAccuracy _ _ _ _

/-! ## Sums -/

theorem add_finite (m n : Nat) (e f : Int) (hm : 0 < m) (hn : 0 < n) :
    UnpackedFloat.add Format.binary64 (.finite .positive m e hm) (.finite .positive n f hn) =
      UnpackedFloat.normalize Format.binary64
        (((m <<< (e - min e f).toNat : Nat) : Int) + ((n <<< (f - min e f).toNat : Nat) : Int)) (min e f) .positive :=
  rfl

/-- One more is counted without rounding. -/
theorem ofNat_add_one {n : Nat} (hn : n + 1 < UInt32.size) : Float.ofNat n + 1.0 = Float.ofNat (n + 1) := by
  rcases Nat.eq_zero_or_pos n with rfl | hpos
  · rfl
  have hsmall : n + 1 < 9007199254740992 := Nat.lt_trans hn (by decide)
  have hlog : n.log2 < 53 := (Nat.log2_lt (Nat.ne_of_gt hpos)).2 (Nat.lt_of_succ_lt hsmall)
  have hmin : min (-((52 - n.log2 : Nat) : Int)) (-52) = -52 := by omega
  have hshift : 52 - n.log2 + (-((52 - n.log2 : Nat) : Int) - -52).toNat = 52 := by omega
  have hmantissa : ((n <<< 52 : Nat) : Int) + ((1 <<< 52 : Nat) : Int) = (((n + 1) <<< 52 : Nat) : Int) := by
    rw [Nat.shiftLeft_eq, Nat.shiftLeft_eq, Nat.shiftLeft_eq, Nat.add_mul]
    rfl
  have hsum : UnpackedFloat.add Format.binary64 (Float.ofNat n).toModel.unpack (1.0 : Float).toModel.unpack =
      (Float.ofNat (n + 1)).toModel.unpack := by
    rw [unpack_ofNat hpos (Nat.lt_of_succ_lt hn), unpack_one, unpack_ofNat (Nat.succ_pos n) hn, add_finite, hmin,
      ← Nat.shiftLeft_add, hshift]
    change UnpackedFloat.normalize Format.binary64 (((n <<< 52 : Nat) : Int) + ((1 <<< 52 : Nat) : Int)) (-52) _ = _
    rw [hmantissa]
    exact normalize_whole (Nat.succ_pos n) hsmall 52
  exact (congrArg (fun f => Float.ofModel (Float.Model.pack f)) hsum).trans (ofModel_pack_unpack _)

theorem ofNat_add_zero {n : Nat} (hn : n < UInt32.size) : Float.ofNat n + 0.0 = Float.ofNat n := by
  rcases Nat.eq_zero_or_pos n with rfl | hpos
  · rfl
  have hsum : UnpackedFloat.add Format.binary64 (Float.ofNat n).toModel.unpack (0.0 : Float).toModel.unpack =
      (Float.ofNat n).toModel.unpack := by
    rw [unpack_ofNat hpos hn]
    rfl
  exact (congrArg (fun f => Float.ofModel (Float.Model.pack f)) hsum).trans (ofModel_pack_unpack _)

end Breakthrough.Double
