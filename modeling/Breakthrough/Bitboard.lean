import Breakthrough.Square
import Breakthrough.Text.Hex

/-!
# Sets of squares

A set of squares is a 64-bit word, bit `n` standing for the square of index `n`. Moving a set one
step in a direction drops the squares that would leave the board; none of them reappears on the
opposite edge, because the column at that edge is masked out first. The squares of a set are listed
in ascending order by taking the lowest one off again and again.
-/

namespace Breakthrough

/-- A set of squares. -/
@[ext]
structure Bitboard where
  bits : UInt64
  deriving DecidableEq, Repr, Inhabited

/-- A single step on the board. -/
inductive Direction where
  | up
  | down
  | left
  | right
  | upLeft
  | upRight
  | downLeft
  | downRight
  deriving DecidableEq, Repr

namespace Bitboard

instance : AndOp Bitboard := ⟨fun a b => ⟨a.bits &&& b.bits⟩⟩
instance : OrOp Bitboard := ⟨fun a b => ⟨a.bits ||| b.bits⟩⟩
instance : XorOp Bitboard := ⟨fun a b => ⟨a.bits ^^^ b.bits⟩⟩
instance : Complement Bitboard := ⟨fun a => ⟨~~~a.bits⟩⟩

def empty : Bitboard := ⟨0⟩

def full : Bitboard := ⟨0xffffffffffffffff⟩

def columnA : Bitboard := ⟨0x0101010101010101⟩

def columnH : Bitboard := ⟨0x8080808080808080⟩

/-- The leftmost column moved up by a number of squares in index order. -/
def column (n : Nat) : Bitboard := ⟨columnA.bits <<< n.toUInt64⟩

def row (n : Fin 8) : Bitboard := ⟨0xff <<< (8 * n.val).toUInt64⟩

@[inline] def single (s : Square) : Bitboard := ⟨1 <<< s.index.val.toUInt64⟩

@[inline] def isEmpty (b : Bitboard) : Bool := b.bits == 0

@[inline] def isNonempty (b : Bitboard) : Bool := b.bits != 0

@[inline] def contains (b : Bitboard) (s : Square) : Bool := (b.bits >>> s.index.val.toUInt64) &&& 1 == 1

/-- The set with a square put in, or taken out if it was there. -/
@[inline] def toggle (b : Bitboard) (s : Square) : Bitboard := b ^^^ single s

def count (b : Bitboard) : Nat := Square.all.countP b.contains

/-! ## Listing the squares -/

/-- A digit of an index: `value` if a bit lies where indices have this digit, otherwise nothing. -/
@[inline] def indexDigit (bits places value : UInt64) : UInt64 :=
  if bits &&& places == 0 then 0 else value

/-- The index of a word's only bit, put together from its binary digits. -/
def bitIndex (bit : UInt64) : Fin 64 :=
  let index := indexDigit bit 0xffffffff00000000 32 ||| indexDigit bit 0xffff0000ffff0000 16
    ||| indexDigit bit 0xff00ff00ff00ff00 8 ||| indexDigit bit 0xf0f0f0f0f0f0f0f0 4
    ||| indexDigit bit 0xcccccccccccccccc 2 ||| indexDigit bit 0xaaaaaaaaaaaaaaaa 1
  ⟨index.toNat % 64, Nat.mod_lt _ (by decide)⟩

theorem bitIndex_shift : ∀ i : Fin 64, bitIndex (1 <<< i.val.toUInt64) = i := by decide +kernel

/-- The lowest bit of a word, by itself. -/
def lowestBit (bits : UInt64) : UInt64 := bits &&& (0 - bits)

def highest? (b : Bitboard) : Option Square :=
  if b.isEmpty then none else some ⟨b.bits.log2.toNat % 64, Nat.mod_lt _ (by decide)⟩

def lowest? (b : Bitboard) : Option Square :=
  if b.isEmpty then none else some ⟨bitIndex (lowestBit b.bits)⟩

@[inline] def dropLowest (b : Bitboard) : Bitboard := ⟨b.bits &&& (b.bits - 1)⟩

/-- The lowest square with what is left once it is off; an empty set has none and stays as it is. -/
def takeLowest (b : Bitboard) : Option Square × Bitboard :=
  match b.lowest? with
  | none => (none, b)
  | some s => (some s, b.dropLowest)

/-- At most `limit` squares of the set, in ascending order. -/
def lowestSquares : (limit : Nat) → Bitboard → List Square
  | 0, _ => []
  | limit + 1, b =>
    if b.isEmpty then [] else ⟨bitIndex (lowestBit b.bits)⟩ :: lowestSquares limit b.dropLowest

/-- The squares of the set in ascending order; there are never more than 64. -/
def squares (b : Bitboard) : List Square := lowestSquares 64 b

/-- The square of the set that is farthest on for a side. -/
def frontmost? (b : Bitboard) : Color → Option Square
  | .white => b.highest?
  | .black => b.lowest?

/-! ## Steps on the board -/

/-- Every square moved one step, those that leave the board being dropped. -/
@[inline] def shift (b : Bitboard) : Direction → Bitboard
  | .up => ⟨b.bits <<< 8⟩
  | .down => ⟨b.bits >>> 8⟩
  | .left => ⟨(b &&& ~~~columnA).bits >>> 1⟩
  | .right => ⟨(b &&& ~~~columnH).bits <<< 1⟩
  | .upLeft => ⟨(b &&& ~~~columnA).bits <<< 7⟩
  | .upRight => ⟨(b &&& ~~~columnH).bits <<< 9⟩
  | .downLeft => ⟨(b &&& ~~~columnA).bits >>> 9⟩
  | .downRight => ⟨(b &&& ~~~columnH).bits >>> 7⟩

@[inline] def forward (b : Bitboard) : Color → Bitboard
  | .white => b.shift .up
  | .black => b.shift .down

/-- The squares diagonally ahead for a side. -/
@[inline] def attacks (b : Bitboard) : Color → Bitboard
  | .white => b.shift .upLeft ||| b.shift .upRight
  | .black => b.shift .downLeft ||| b.shift .downRight

/-- `reached` with everything that pawns on `front` reach in at most `steps` steps. -/
def advance (c : Color) : (steps : Nat) → (front reached : Bitboard) → Bitboard
  | 0, _, reached => reached
  | steps + 1, front, reached =>
    if front.isEmpty then reached
    else
      let next := front.forward c ||| front.attacks c
      advance c steps next (reached ||| next)

/-- The squares that a pawn could ever stand on, its own included; eight steps leave the board. -/
def span (c : Color) (s : Square) : Bitboard := advance c 8 (single s) (single s)

/-- The squares from which a pawn of a side attacks a square. -/
def attackers (c : Color) (s : Square) : Bitboard := (single s).attacks c.opponent

/-! ## Pictures -/

def columnLetters : String := "    a  b  c  d  e  f  g  h"

/-- Eight lines, top row first, each with its number and a mark for every square. -/
def picture (mark : Square → Char) : String :=
  let line (r : Fin 8) : String :=
    s!"{r.val + 1}  " ++ String.join ((List.finRange 8).map fun c => s!" {mark (.of c r)} ") ++ "\n"
  String.join ((List.finRange 8).reverse.map line)

/-- The set as its word and a picture. -/
def describe (b : Bitboard) : String :=
  s!"Bitboard(0x{Text.word64 b.bits})\n"
    ++ picture (fun s => if b.contains s then 'X' else '.') ++ columnLetters

end Bitboard

end Breakthrough
