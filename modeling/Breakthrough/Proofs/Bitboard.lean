import Breakthrough.Bitboard
import Mathlib.Data.List.Sort
import Mathlib.Data.List.FinRange

/-!
# Sets of squares, square by square

A word is determined by the squares it contains, and every operation on words is described by what
it does to a single square. `squares_eq_filter` says that taking the lowest bit off again and again
lists exactly the contained squares in ascending order; `contains_shift` says that moving a word moves
every square by the coordinates of the direction, with nothing wrapping around an edge.
-/

namespace Breakthrough

namespace Bitboard

/-! ## Membership -/

theorem contains_eq_getLsbD (b : Bitboard) (s : Square) :
    b.contains s = b.bits.toBitVec.getLsbD s.index.val := by
  have hlt := s.index.isLt
  have hs : s.index.val.toUInt64.toNat = s.index.val := by simp [Nat.toUInt64]; omega
  rw [contains, Bool.eq_iff_iff, beq_iff_eq, ← UInt64.toNat_inj, UInt64.toNat_and,
    UInt64.toNat_shiftRight, hs, Nat.mod_eq_of_lt hlt]
  simp [BitVec.getLsbD, Nat.testBit, Nat.and_comm]

theorem ext_contains {a b : Bitboard} (h : ∀ s, a.contains s = b.contains s) : a = b := by
  ext1
  rw [← UInt64.toBitVec_inj]
  apply BitVec.eq_of_getLsbD_eq
  intro i hi
  have hi' := h ⟨⟨i, hi⟩⟩
  rwa [contains_eq_getLsbD, contains_eq_getLsbD] at hi'

@[simp] theorem contains_and (a b : Bitboard) (s : Square) :
    (a &&& b).contains s = (a.contains s && b.contains s) := by
  rw [contains_eq_getLsbD, contains_eq_getLsbD, contains_eq_getLsbD, ← BitVec.getLsbD_and]
  rfl

@[simp] theorem contains_or (a b : Bitboard) (s : Square) :
    (a ||| b).contains s = (a.contains s || b.contains s) := by
  rw [contains_eq_getLsbD, contains_eq_getLsbD, contains_eq_getLsbD, ← BitVec.getLsbD_or]
  rfl

@[simp] theorem contains_xor (a b : Bitboard) (s : Square) :
    (a ^^^ b).contains s = (a.contains s ^^ b.contains s) := by
  rw [contains_eq_getLsbD, contains_eq_getLsbD, contains_eq_getLsbD, ← BitVec.getLsbD_xor]
  rfl

@[simp] theorem contains_not (a : Bitboard) (s : Square) : (~~~a).contains s = !a.contains s := by
  have h : (~~~a).contains s = (~~~a.bits.toBitVec).getLsbD s.index.val := contains_eq_getLsbD _ _
  rw [h, contains_eq_getLsbD, BitVec.getLsbD_not, decide_eq_true s.index.isLt, Bool.true_and]

@[simp] theorem contains_empty (s : Square) : empty.contains s = false := by
  rw [contains_eq_getLsbD]
  simp [empty]

@[simp] theorem contains_single (s t : Square) : (single s).contains t = decide (s = t) := by
  have h : ∀ i j : Fin 64, (single ⟨i⟩).contains ⟨j⟩ = decide (i = j) := by decide +kernel
  obtain ⟨i⟩ := s
  obtain ⟨j⟩ := t
  simp [h]

@[simp] theorem contains_toggle (b : Bitboard) (s t : Square) :
    (b.toggle s).contains t = (b.contains t ^^ decide (s = t)) := by
  rw [toggle, contains_xor, contains_single]

@[simp] theorem contains_row (r : Fin 8) (s : Square) : (row r).contains s = decide (s.row = r) := by
  have h : ∀ (r : Fin 8) (i : Fin 64), (row r).contains ⟨i⟩ = decide (Square.row ⟨i⟩ = r) := by
    decide +kernel
  exact h r s.index

theorem toggle_toggle (b : Bitboard) (s : Square) : (b.toggle s).toggle s = b := by
  apply ext_contains
  intro t
  simp

theorem eq_empty_iff (b : Bitboard) : b = empty ↔ b.isEmpty = true := by
  rw [isEmpty, beq_iff_eq, Bitboard.ext_iff]
  rfl

theorem isEmpty_iff (b : Bitboard) : b.isEmpty = true ↔ ∀ s, b.contains s = false := by
  constructor
  · intro h s
    rw [(eq_empty_iff b).2 h, contains_empty]
  · intro h
    rw [← eq_empty_iff]
    exact ext_contains fun s => by rw [h, contains_empty]

theorem isEmpty_eq_false_of_contains {b : Bitboard} {s : Square} (h : b.contains s = true) :
    b.isEmpty = false := by
  rw [← Bool.not_eq_true, isEmpty_iff]
  intro hempty
  rw [hempty s] at h
  cases h

theorem isNonempty_iff (b : Bitboard) : b.isNonempty = true ↔ ∃ s, b.contains s = true := by
  have h : b.isNonempty = !b.isEmpty := rfl
  rw [h, Bool.not_eq_true', ← Bool.not_eq_true, isEmpty_iff]
  simp

/-! ## Listing the squares -/

/-- Subtracting one clears the lowest bit `t` of a number and sets every bit below it. -/
theorem testBit_sub_one {x t : Nat} (ht : x.testBit t = true) (hlow : ∀ i < t, x.testBit i = false)
    (i : Nat) :
    (x - 1).testBit i = if i < t then true else if i = t then false else x.testBit i := by
  induction t generalizing x i with
  | zero =>
    have hodd : x % 2 = 1 := by simpa [Nat.testBit_zero] using ht
    cases i with
    | zero => simp [Nat.testBit_zero]; omega
    | succ i =>
      rw [Nat.testBit_succ, Nat.testBit_succ, show (x - 1) / 2 = x / 2 by omega]
      simp
  | succ t ih =>
    have heven : x % 2 = 0 := by simpa [Nat.testBit_zero] using hlow 0 (by omega)
    rw [Nat.testBit_succ] at ht
    have hpos : x / 2 ≠ 0 := by rintro h0; simp [h0] at ht
    cases i with
    | zero => simp [Nat.testBit_zero]; omega
    | succ i =>
      rw [Nat.testBit_succ, Nat.testBit_succ, show (x - 1) / 2 = x / 2 - 1 by omega,
        ih ht (fun j hj => by rw [← Nat.testBit_succ]; exact hlow (j + 1) (by omega))]
      simp

theorem zero_sub_eq (x : UInt64) : 0 - x = ~~~(x - 1) := by
  rw [← UInt64.toBitVec_inj, UInt64.toBitVec_not, UInt64.toBitVec_sub, UInt64.toBitVec_sub,
    UInt64.toBitVec_zero, UInt64.toBitVec_one]
  bv_omega

/-- `t` is the square of the set with the smallest index. -/
def IsLowest (b : Bitboard) (t : Square) : Prop :=
  b.contains t = true ∧ ∀ s, b.contains s = true → t.index ≤ s.index

theorem exists_isLowest {b : Bitboard} (h : b.isEmpty = false) : ∃ t, b.IsLowest t := by
  have hne : ∃ n, ∃ hn : n < 64, b.contains ⟨⟨n, hn⟩⟩ = true := by
    rw [← Bool.not_eq_true, isEmpty_iff] at h
    push Not at h
    obtain ⟨s, hs⟩ := h
    exact ⟨s.index.val, s.index.isLt, by simpa using hs⟩
  obtain ⟨hlt, hmem⟩ := Nat.find_spec hne
  refine ⟨⟨⟨Nat.find hne, hlt⟩⟩, hmem, fun s hs => ?_⟩
  exact Nat.find_min' hne ⟨s.index.isLt, hs⟩

/-- The word minus one, as a set: the lowest square goes and all squares below it come in. -/
theorem contains_pred {b : Bitboard} {t : Square} (ht : b.IsLowest t) (s : Square) :
    (Bitboard.mk (b.bits - 1)).contains s =
      if s.index < t.index then true else if s = t then false else b.contains s := by
  obtain ⟨hmem, hlow⟩ := ht
  have hbit : b.bits.toNat.testBit t.index.val = true := by
    simpa [contains_eq_getLsbD, BitVec.getLsbD] using hmem
  have hzero : ∀ i < t.index.val, b.bits.toNat.testBit i = false := by
    intro i hi
    by_contra hc
    have hle := hlow ⟨⟨i, by omega⟩⟩ (by simpa [contains_eq_getLsbD, BitVec.getLsbD] using hc)
    have hle' : t.index.val ≤ i := hle
    omega
  have hpos : (1 : UInt64) ≤ b.bits := by
    rw [UInt64.le_iff_toNat_le, UInt64.toNat_one]
    by_contra hc
    have h0 : b.bits.toNat = 0 := by omega
    simp [h0] at hbit
  have hst : s.index.val = t.index.val ↔ s = t := by rw [Fin.val_inj, Square.ext_iff]
  rw [contains_eq_getLsbD, contains_eq_getLsbD]
  simp only [BitVec.getLsbD, UInt64.toNat_toBitVec, UInt64.toNat_sub_of_le _ _ hpos, UInt64.toNat_one]
  rw [testBit_sub_one hbit hzero]
  simp only [hst, Fin.lt_def]

theorem single_eq_lowestBit {b : Bitboard} {t : Square} (ht : b.IsLowest t) :
    single t = ⟨lowestBit b.bits⟩ := by
  have h : (⟨lowestBit b.bits⟩ : Bitboard) = b &&& ~~~(⟨b.bits - 1⟩ : Bitboard) := by
    rw [lowestBit, zero_sub_eq]
    rfl
  rw [h]
  apply ext_contains
  intro s
  rw [contains_single, contains_and, contains_not, contains_pred ht]
  by_cases hs : t = s
  · subst hs
    simp [ht.1]
  · by_cases hlt : s.index < t.index
    · simp [hs, hlt]
    · simp [hs, hlt, Ne.symm hs]

theorem bitIndex_lowestBit {b : Bitboard} {t : Square} (ht : b.IsLowest t) :
    bitIndex (lowestBit b.bits) = t.index := by
  have h : lowestBit b.bits = (single t).bits := by rw [single_eq_lowestBit ht]
  rw [h]
  exact bitIndex_shift t.index

theorem contains_dropLowest {b : Bitboard} {t : Square} (ht : b.IsLowest t) (s : Square) :
    b.dropLowest.contains s = (b.contains s && !decide (s = t)) := by
  have h : b.dropLowest = b &&& (⟨b.bits - 1⟩ : Bitboard) := rfl
  rw [h, contains_and, contains_pred ht]
  by_cases hs : s = t
  · simp [hs]
  · by_cases hlt : s.index < t.index
    · have hc : b.contains s = false := by
        by_contra hc
        have hle := ht.2 s (by simpa using hc)
        omega
      simp [hc]
    · simp [hs, hlt]

/-- What is left without the lowest square lies above it. -/
theorem index_lt_of_contains_dropLowest {b : Bitboard} {s t : Square} (ht : b.IsLowest t)
    (h : b.dropLowest.contains s = true) : t.index < s.index := by
  rw [contains_dropLowest ht] at h
  simp only [Bool.and_eq_true, Bool.not_eq_true', decide_eq_false_iff_not] at h
  exact lt_of_le_of_ne (ht.2 s h.1) fun he => h.2 (Square.ext he.symm)

theorem lowestSquares_of_isLowest {b : Bitboard} {t : Square} (ht : b.IsLowest t) (limit : Nat) :
    lowestSquares (limit + 1) b = t :: lowestSquares limit b.dropLowest := by
  simp [lowestSquares, isEmpty_eq_false_of_contains ht.1, bitIndex_lowestBit ht]

theorem lowestSquares_of_isEmpty {b : Bitboard} (h : b.isEmpty = true) (limit : Nat) :
    lowestSquares limit b = [] := by
  cases limit with
  | zero => rfl
  | succ n => simp [lowestSquares, h]

/-- If a limit of `n + 1` is enough for the squares that are left, then `n` is enough without the lowest one. -/
theorem room_dropLowest {b : Bitboard} {t : Square} {n : Nat} (ht : b.IsLowest t)
    (hb : ∀ s, b.contains s = true → 64 ≤ s.index.val + (n + 1)) (s : Square)
    (hs : b.dropLowest.contains s = true) : 64 ≤ s.index.val + n := by
  have hlt : t.index.val < s.index.val := index_lt_of_contains_dropLowest ht hs
  have := hb t ht.1
  omega

/-- The induction is on the limit: squares below `64 - limit` are already off the set. -/
theorem mem_lowestSquares (limit : Nat) (b : Bitboard)
    (hb : ∀ s, b.contains s = true → 64 ≤ s.index.val + limit) (s : Square) :
    s ∈ lowestSquares limit b ↔ b.contains s = true := by
  induction limit generalizing b with
  | zero =>
    have hs : ¬ b.contains s = true := fun h => by have := hb s h; have := s.index.isLt; omega
    simp [lowestSquares, hs]
  | succ n ih =>
    cases hne : b.isEmpty with
    | true => simp [lowestSquares_of_isEmpty hne, (isEmpty_iff b).1 hne s]
    | false =>
      obtain ⟨t, ht⟩ := exists_isLowest hne
      have hrest := room_dropLowest ht hb
      rw [lowestSquares_of_isLowest ht, List.mem_cons, ih _ hrest, contains_dropLowest ht]
      by_cases hs : s = t
      · simp [hs, ht.1]
      · simp [hs]

theorem pairwise_lowestSquares (limit : Nat) (b : Bitboard)
    (hb : ∀ s, b.contains s = true → 64 ≤ s.index.val + limit) :
    (lowestSquares limit b).Pairwise (fun s t => s.index < t.index) := by
  induction limit generalizing b with
  | zero => exact List.Pairwise.nil
  | succ n ih =>
    cases hne : b.isEmpty with
    | true => rw [lowestSquares_of_isEmpty hne]; exact List.Pairwise.nil
    | false =>
      obtain ⟨t, ht⟩ := exists_isLowest hne
      have hrest := room_dropLowest ht hb
      rw [lowestSquares_of_isLowest ht, List.pairwise_cons]
      refine ⟨fun s hs => index_lt_of_contains_dropLowest ht ?_, ih _ hrest⟩
      exact (mem_lowestSquares n _ hrest s).1 hs

theorem mem_squares (b : Bitboard) (s : Square) : s ∈ b.squares ↔ b.contains s = true :=
  mem_lowestSquares 64 b (fun _ _ => by omega) s

theorem pairwise_squares (b : Bitboard) : b.squares.Pairwise (fun s t => s.index < t.index) :=
  pairwise_lowestSquares 64 b fun _ _ => by omega

theorem nodup_squares (b : Bitboard) : b.squares.Nodup :=
  b.pairwise_squares.imp fun h e => by rw [e] at h; exact lt_irrefl _ h

end Bitboard

namespace Square

theorem pairwise_all : all.Pairwise (fun s t => s.index < t.index) := by
  rw [all, List.pairwise_map]
  exact List.pairwise_lt_finRange 64

theorem nodup_all : all.Nodup :=
  pairwise_all.imp fun h e => by rw [e] at h; exact lt_irrefl _ h

end Square

namespace Bitboard

/-- There is one list in ascending order that has the squares of the set. -/
theorem squares_eq_of_pairwise {b : Bitboard} {squares : List Square}
    (hsorted : squares.Pairwise fun s t => s.index < t.index)
    (hmem : ∀ s, s ∈ squares ↔ b.contains s = true) : b.squares = squares := by
  have hnodup : squares.Nodup := hsorted.imp fun h e => by rw [e] at h; exact lt_irrefl _ h
  have hperm : b.squares.Perm squares := by
    rw [List.perm_ext_iff_of_nodup b.nodup_squares hnodup]
    exact fun s => (b.mem_squares s).trans (hmem s).symm
  refine hperm.eq_of_pairwise (fun s t _ _ hst hts => ?_) b.pairwise_squares hsorted
  exact absurd hst (lt_asymm hts)

/-- The listing is the board scanned from a1 to h8. -/
theorem squares_eq_filter (b : Bitboard) : b.squares = Square.all.filter b.contains :=
  squares_eq_of_pairwise (Square.pairwise_all.filter _) fun s => by simp [Square.mem_all]

theorem head?_squares (b : Bitboard) : b.squares.head? = b.lowest? := by
  rw [squares, lowestSquares, lowest?]
  split
  · rfl
  · rfl

theorem squares_and (a b : Bitboard) : (a &&& b).squares = a.squares.filter b.contains := by
  rw [squares_eq_filter, squares_eq_filter, List.filter_filter]
  apply List.filter_congr
  intro s _
  rw [contains_and, Bool.and_comm]

theorem length_squares (b : Bitboard) : b.squares.length = b.count := by
  rw [squares_eq_filter, count, List.countP_eq_length_filter]

/-- A square that is put in is one more on the list. -/
theorem squares_toggle {b : Bitboard} {s : Square} (h : b.contains s = false) :
    (b.toggle s).squares.Perm (s :: b.squares) := by
  have hs : s ∉ b.squares := by simp [mem_squares, h]
  rw [List.perm_ext_iff_of_nodup (nodup_squares _) (List.nodup_cons.2 ⟨hs, nodup_squares _⟩)]
  intro t
  rw [List.mem_cons, mem_squares, mem_squares, contains_toggle]
  by_cases hst : s = t
  · subst hst; simp [h]
  · simp [hst, Ne.symm hst]

theorem count_toggle_of_not_contains {b : Bitboard} {s : Square} (h : b.contains s = false) :
    (b.toggle s).count = b.count + 1 := by
  rw [← length_squares, (squares_toggle h).length_eq, List.length_cons, length_squares]

theorem count_toggle_of_contains {b : Bitboard} {s : Square} (h : b.contains s = true) :
    (b.toggle s).count + 1 = b.count := by
  have hout : (b.toggle s).contains s = false := by simp [h]
  rw [← count_toggle_of_not_contains hout, toggle_toggle]

end Bitboard

/-! ## Steps on the board -/

namespace Direction

def columnStep : Direction → Int
  | .left | .upLeft | .downLeft => -1
  | .right | .upRight | .downRight => 1
  | .up | .down => 0

def rowStep : Direction → Int
  | .up | .upLeft | .upRight => 1
  | .down | .downLeft | .downRight => -1
  | .left | .right => 0

/-- A step in this direction leads from `s` to `t`. -/
def Leads (d : Direction) (s t : Square) : Prop :=
  (t.column.val : Int) = s.column.val + d.columnStep ∧ (t.row.val : Int) = s.row.val + d.rowStep

instance (d : Direction) (s t : Square) : Decidable (d.Leads s t) := instDecidableAnd

def opposite : Direction → Direction
  | .up => .down
  | .down => .up
  | .left => .right
  | .right => .left
  | .upLeft => .downRight
  | .upRight => .downLeft
  | .downLeft => .upRight
  | .downRight => .upLeft

theorem leads_opposite (d : Direction) (s t : Square) : d.opposite.Leads s t ↔ d.Leads t s := by
  cases d
  all_goals
    simp only [opposite, Leads, columnStep, rowStep]
    omega

end Direction

namespace Bitboard

theorem contains_shiftLeft (b : Bitboard) (k : UInt64) (hk : k.toNat < 64) (t : Square) :
    (Bitboard.mk (b.bits <<< k)).contains t = true ↔
      ∃ s, b.contains s = true ∧ s.index.val + k.toNat = t.index.val := by
  have ht := t.index.isLt
  have hmod : (k.toBitVec % 64).toNat = k.toNat := by
    rw [BitVec.toNat_umod]
    exact Nat.mod_eq_of_lt hk
  rw [contains_eq_getLsbD]
  simp only [UInt64.toBitVec_shiftLeft, BitVec.shiftLeft_eq', BitVec.getLsbD_shiftLeft, hmod]
  constructor
  · intro h
    simp only [Bool.and_eq_true, decide_eq_true_eq, Bool.not_eq_true', decide_eq_false_iff_not] at h
    refine ⟨⟨⟨t.index.val - k.toNat, by omega⟩⟩, ?_, by simp only; omega⟩
    rw [contains_eq_getLsbD]
    exact h.2
  · rintro ⟨s, hs, he⟩
    rw [contains_eq_getLsbD] at hs
    rw [show t.index.val - k.toNat = s.index.val by omega, hs]
    simp
    omega

theorem contains_shiftRight (b : Bitboard) (k : UInt64) (hk : k.toNat < 64) (t : Square) :
    (Bitboard.mk (b.bits >>> k)).contains t = true ↔
      ∃ s, b.contains s = true ∧ s.index.val = t.index.val + k.toNat := by
  have hmod : (k.toBitVec % 64).toNat = k.toNat := by
    rw [BitVec.toNat_umod]
    exact Nat.mod_eq_of_lt hk
  rw [contains_eq_getLsbD]
  simp only [UInt64.toBitVec_shiftRight, BitVec.ushiftRight_eq', BitVec.getLsbD_ushiftRight, hmod]
  constructor
  · intro h
    have hlt : k.toNat + t.index.val < 64 := by
      by_contra hc
      rw [BitVec.getLsbD_of_ge _ _ (by omega)] at h
      cases h
    refine ⟨⟨⟨k.toNat + t.index.val, hlt⟩⟩, ?_, by simp only; omega⟩
    rw [contains_eq_getLsbD]
    exact h
  · rintro ⟨s, hs, he⟩
    rw [contains_eq_getLsbD] at hs
    rwa [show k.toNat + t.index.val = s.index.val by omega]

theorem contains_columnA (s : Square) : columnA.contains s = decide (s.column = 0) := by
  have h : ∀ i : Fin 64, columnA.contains ⟨i⟩ = decide (Square.column ⟨i⟩ = 0) := by decide +kernel
  exact h s.index

theorem contains_columnH (s : Square) : columnH.contains s = decide (s.column = 7) := by
  have h : ∀ i : Fin 64, columnH.contains ⟨i⟩ = decide (Square.column ⟨i⟩ = 7) := by decide +kernel
  exact h s.index

/-- A set moves square by square: what would leave the board is gone, nothing wraps around. -/
theorem contains_shift (b : Bitboard) (d : Direction) (t : Square) :
    (b.shift d).contains t = true ↔ ∃ s, b.contains s = true ∧ d.Leads s t := by
  have ht := t.index.isLt
  -- in index order a step adds or subtracts a fixed number; the masked column is the one from
  -- which this number would lead over the edge
  cases d
  all_goals
    simp (disch := decide) only [shift, contains_shiftLeft, contains_shiftRight, contains_and,
      contains_not, contains_columnA, contains_columnH, Bool.and_eq_true, and_assoc]
    refine exists_congr fun s => and_congr_right fun _ => ?_
    have hs := s.index.isLt
    simp only [Direction.Leads, Direction.columnStep, Direction.rowStep, Square.column, Square.row,
      UInt64.reduceToNat, Bool.not_eq_true', decide_eq_false_iff_not, Fin.ext_iff]
    omega

end Bitboard

end Breakthrough
