import Breakthrough.Color

/-!
# Squares

The 64 squares are numbered along the rows from White's left corner: a1 is 0, h1 is 7, h8 is 63.
A square is written as its column letter and its row digit.
-/

namespace Breakthrough

@[ext]
structure Square where
  index : Fin 64
  deriving DecidableEq, Repr, Inhabited

namespace Square

/-- The column, a being 0. -/
def column (s : Square) : Fin 8 := ⟨s.index.val % 8, Nat.mod_lt _ (by decide)⟩

/-- The row, row 1 being 0. -/
def row (s : Square) : Fin 8 := ⟨s.index.val / 8, by have := s.index.isLt; omega⟩

def of (column row : Fin 8) : Square := ⟨⟨column.val + 8 * row.val, by omega⟩⟩

@[simp] theorem column_of (c r : Fin 8) : (of c r).column = c := by
  ext; simp only [column, of]; omega

@[simp] theorem row_of (c r : Fin 8) : (of c r).row = r := by
  ext; simp only [row, of]; omega

@[simp] theorem of_column_row (s : Square) : of s.column s.row = s := by
  ext; simp only [of, column, row]; omega

/-- Every square, in ascending order. -/
def all : List Square := (List.finRange 64).map Square.mk

theorem mem_all (s : Square) : s ∈ all := by
  simp [all]

def chars (s : Square) : List Char :=
  [Char.ofNat ('a'.toNat + s.column.val), Char.ofNat ('1'.toNat + s.row.val)]

/-- A square as text, such as `e2`. -/
def text (s : Square) : String := String.ofList s.chars

/-- The square that a column letter and a row digit name. -/
def ofPair? (letter digit : Char) : Option Square :=
  if h : ('a' ≤ letter ∧ letter ≤ 'h') ∧ '1' ≤ digit ∧ digit ≤ '8' then
    some (of ⟨letter.toNat - 'a'.toNat, by
        have := h.1.2; simp only [Char.le_def, UInt32.le_iff_toNat_le] at this
        simp only [Char.toNat]; change letter.val.toNat ≤ 104 at this
        change letter.val.toNat - 97 < 8; omega⟩
      ⟨digit.toNat - '1'.toNat, by
        have := h.2.2; simp only [Char.le_def, UInt32.le_iff_toNat_le] at this
        simp only [Char.toNat]; change digit.val.toNat ≤ 56 at this
        change digit.val.toNat - 49 < 8; omega⟩)
  else none

def ofChars? : List Char → Option Square
  | [letter, digit] => ofPair? letter digit
  | _ => none

theorem ofChars?_chars (s : Square) : ofChars? s.chars = some s := by
  rcases s with ⟨i⟩
  revert i
  decide

end Square

end Breakthrough
