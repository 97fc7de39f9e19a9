import Breakthrough.Decimal.Binary

/-!
# A fixed number of places

The exact value is rounded to a multiple of a power of ten; a value halfway between two multiples
goes to the even one.
-/

namespace Breakthrough.Decimal

/-- A quotient rounded to the nearest whole number, halves going to the even one. -/
def roundDiv (numerator denominator : Nat) : Nat :=
  let q := numerator / denominator
  let r := numerator % denominator
  if 2 * r < denominator then q
  else if 2 * r = denominator then q + q % 2
  else q + 1

/-- Digits with a point before the last `places` of them. -/
def pointBefore (places n : Nat) : String :=
  let whole := n / tenTo places
  if places = 0 then toString whole
  else
    let rest := Nat.toDigits 10 (n % tenTo places)
    s!"{whole}." ++ String.ofList (List.replicate (places - rest.length) '0' ++ rest)

def fixed (places : Nat) : Binary → String
  | .nan => "NaN"
  | .infinite negative => if negative then "-inf" else "inf"
  | .finite negative significand exponent _ =>
    let (n, d) := fractionOf significand exponent
    (if negative then "-" else "") ++ pointBefore places (roundDiv (n * tenTo places) d)

end Breakthrough.Decimal
