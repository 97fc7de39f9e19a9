/-!
# Reading decimal numbers

A decimal literal becomes a double in two roundings: its leading digits, as many as fit into 64 bits,
are made a double, which is then multiplied or divided by a power of ten. Further digits before the
point only count as powers of ten, further digits after the point not at all. A literal that is too
large is refused, one that is too small is zero.
-/

namespace Breakthrough.Decimal

structure Literal where
  negative : Bool
  whole : List Nat
  /-- The digits after the point, empty when there is no point. -/
  places : List Nat
  /-- The exponent's sign and digits. -/
  exponent? : Option (Bool × List Nat)
  deriving DecidableEq, Repr

namespace Literal

def value (digits : List Nat) : Nat := digits.foldl (fun n d => 10 * n + d) 0

def isNatural (l : Literal) : Bool := !l.negative && l.places.isEmpty && l.exponent?.isNone

/-- The whole number that the literal stands for, if it is digits alone. -/
def natural? (l : Literal) : Option Nat := if l.isNatural then some (value l.whole) else none

/-- Appends digits before the point while 64 bits hold them, then counts them as powers of ten. -/
def takeWhole : List Nat → (significand power : Nat) → Nat × Nat
  | [], significand, power => (significand, power)
  | d :: ds, significand, power =>
    if power = 0 ∧ 10 * significand + d < UInt64.size then takeWhole ds (10 * significand + d) 0
    else takeWhole ds significand (power + 1)

/-- Appends digits after the point while 64 bits hold them and counts how many. -/
def takePlaces : List Nat → (significand count : Nat) → Nat × Nat
  | [], significand, count => (significand, count)
  | d :: ds, significand, count =>
    if 10 * significand + d < UInt64.size then takePlaces ds (10 * significand + d) (count + 1)
    else (significand, count)

/-- A double times a power of ten, in steps that a double can hold. -/
def scale : (steps : Nat) → Float → Int → Option Float
  | 0, _, _ => some 0.0
  | steps + 1, x, power =>
    if power.natAbs ≤ 308 then
      let ten := Float.ofScientific 1 false power.natAbs
      if 0 ≤ power then
        let y := x * ten
        if y.isInf then none else some y
      else some (x / ten)
    else if x == 0.0 then some x
    else if 0 ≤ power then none
    else scale steps (x / 1e308) (power + 308)

/-- The size of the number that the literal stands for. -/
def size? (l : Literal) : Option Float :=
  let (significand, power) := takeWhole l.whole 0 0
  let (significand, count) := takePlaces l.places significand 0
  let x := significand.toUInt64.toFloat
  match l.exponent? with
  | none => scale 4 x (power - count)
  | some (negative, digits) =>
    let n : Int := value digits
    if 2147483648 ≤ n then
      if significand ≠ 0 ∧ !negative then none else some 0.0
    else scale 4 x ((power - count) + if negative then -n else n)

/-- The double that the literal stands for, unless it is too large. -/
def toFloat? (l : Literal) : Option Float :=
  l.size?.map fun x => if l.negative then -x else x

end Literal

end Breakthrough.Decimal
