/-!
# Floating-point numbers taken apart

A finite floating-point number is a whole significand times a power of two. Decimal text is computed
from these parts in exact arithmetic.
-/

namespace Breakthrough.Decimal

def twoTo (n : Nat) : Nat := Nat.pow 2 n

def tenTo (n : Nat) : Nat := Nat.pow 10 n

inductive Binary where
  | nan
  | infinite (negative : Bool)
  /-- The number `significand * 2 ^ exponent`. `narrow` tells that the next smaller number is only
  half as far away as the next larger one. -/
  | finite (negative : Bool) (significand : Nat) (exponent : Int) (narrow : Bool)
  deriving DecidableEq, Repr

namespace Binary

/-- Takes a bit pattern apart that has a sign bit, `width` exponent bits and `places` fraction
bits. -/
def ofBits (width places : Nat) (bits : Nat) : Binary :=
  let fraction := bits % twoTo places
  let biased := bits / twoTo places % twoTo width
  let negative := bits / twoTo (places + width) % 2 = 1
  let least : Int := 2 - twoTo (width - 1) - places
  if biased = twoTo width - 1 then
    if fraction = 0 then .infinite negative else .nan
  else if biased = 0 then .finite negative fraction least false
  else .finite negative (twoTo places + fraction) (least + biased - 1) (fraction = 0 && 1 < biased)

def ofFloat (x : Float) : Binary := ofBits 11 52 x.toBits.toNat

def ofFloat32 (x : Float32) : Binary := ofBits 8 23 x.toBits.toNat

end Binary

/-- A positive fraction of whole numbers with the value `significand * 2 ^ exponent`. -/
def fractionOf (significand : Nat) (exponent : Int) : Nat × Nat :=
  match exponent with
  | .ofNat n => (significand * twoTo n, 1)
  | .negSucc n => (significand, twoTo (n + 1))

end Breakthrough.Decimal
