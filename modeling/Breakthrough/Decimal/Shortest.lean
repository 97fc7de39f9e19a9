import Breakthrough.Decimal.Binary

/-!
# The fewest digits that read back

The reals that round to a floating-point number form an interval around it, whose ends belong to it
when the significand is even. `shortest` looks for the coarsest decimal grid with a point in this
interval: of the two points next to the number it takes the one inside, the nearer one if both are,
and the even one if they are equally near. How digits and exponent become text is a `Layout`.
-/

namespace Breakthrough.Decimal

/-- Digits and the power of ten that the last of them stands for. -/
structure Digits where
  digits : Nat
  exponent : Int
  deriving DecidableEq, Repr

/-- The number of decimal digits of a whole number. -/
def digitCount (n : Nat) : Nat := (Nat.toDigits 10 n).length

/-- The power of ten that the first digit of a positive fraction stands for. -/
def leadingPower (numerator denominator : Nat) : Int :=
  if denominator ≤ numerator then digitCount (numerator / denominator) - 1
  else
    let n := digitCount (denominator / numerator)
    if numerator * tenTo (n - 1) = denominator then 1 - (n : Int) else -(n : Int)

/-- An interval `[low, high]` around `value`, all with one denominator. -/
structure Around where
  low : Nat
  value : Nat
  high : Nat
  denominator : Nat
  /-- Whether the ends belong to the interval. -/
  closed : Bool

namespace Around

/-- The reals that round to a number. -/
def ofParts (significand : Nat) (exponent : Int) (narrow : Bool) : Around :=
  let (unit, denominator) := fractionOf 1 (exponent - 2)
  { low := (4 * significand - if narrow then 1 else 2) * unit
    value := 4 * significand * unit
    high := (4 * significand + 2) * unit
    denominator
    closed := significand % 2 = 0 }

/-- The interval in units of a power of ten. -/
def scaled (a : Around) (power : Int) : Around :=
  match power with
  | .ofNat n => { a with denominator := a.denominator * tenTo n }
  | .negSucc n =>
    let f := tenTo (n + 1)
    { a with low := a.low * f, value := a.value * f, high := a.high * f }

def contains (a : Around) (n : Nat) : Bool :=
  let x := n * a.denominator
  if a.closed then a.low ≤ x && x ≤ a.high else a.low < x && x < a.high

/-- The whole number of the interval that is nearest to its value, if a neighbour of the value lies
in it. -/
def nearest? (a : Around) : Option Nat :=
  let below := a.value / a.denominator
  let rest := a.value % a.denominator
  match a.contains below, a.contains (below + 1) with
  | true, true =>
    if 2 * rest < a.denominator then some below
    else if 2 * rest = a.denominator then some (below + below % 2)
    else some (below + 1)
  | true, false => some below
  | false, true => some (below + 1)
  | false, false => none

end Around

/-- Drops the zeros at the end of a number, at most `limit` of them. -/
def dropZeros : (limit : Nat) → Digits → Digits
  | 0, d => d
  | limit + 1, d =>
    if d.digits ≠ 0 ∧ d.digits % 10 = 0 then dropZeros limit ⟨d.digits / 10, d.exponent + 1⟩ else d

/-- The first of `count`, `count + 1`, … digits that suffice, at most `tries` of them more. -/
def searchDigits (a : Around) (leading : Int) : (tries count : Nat) → Digits
  | 0, count =>
    let power := leading - count + 1
    let s := a.scaled power
    ⟨s.value / s.denominator, power⟩
  | tries + 1, count =>
    let power := leading - count + 1
    match (a.scaled power).nearest? with
    | some n => dropZeros 20 ⟨n, power⟩
    | none => searchDigits a leading tries (count + 1)

/-- The fewest digits that read back as a positive number; seventeen always suffice. -/
def shortest (significand : Nat) (exponent : Int) (narrow : Bool) : Digits :=
  let a := Around.ofParts significand exponent narrow
  searchDigits a (leadingPower a.value a.denominator) 17 1

structure Layout where
  /-- The least power of ten of the first digit that is written without an exponent. -/
  plainFrom : Int
  /-- The first power of ten of the first digit that is written with an exponent. -/
  plainBelow : Int
  /-- What stands before a positive exponent. -/
  plusSign : String
  nan : String
  infinity : String
  negativeInfinity : String

namespace Layout

/-- Digits without an exponent, with at least one place after the point. -/
def plain (digits : List Char) (leading : Int) : String :=
  match leading with
  | .ofNat n =>
    let whole := digits.take (n + 1)
    let rest := digits.drop (n + 1)
    let zeros := List.replicate (n + 1 - whole.length) '0'
    String.ofList (whole ++ zeros) ++ "." ++ (if rest.isEmpty then "0" else String.ofList rest)
  | .negSucc n => "0." ++ String.ofList (List.replicate n '0' ++ digits)

def scientific (layout : Layout) (digits : List Char) (leading : Int) : String :=
  let rest := digits.drop 1
  let sign := if 0 ≤ leading then layout.plusSign else "-"
  String.ofList (digits.take 1) ++ (if rest.isEmpty then "" else "." ++ String.ofList rest)
    ++ "e" ++ sign ++ toString leading.natAbs

def render (layout : Layout) : Binary → String
  | .nan => layout.nan
  | .infinite negative => if negative then layout.negativeInfinity else layout.infinity
  | .finite negative significand exponent narrow =>
    let sign := if negative then "-" else ""
    if significand = 0 then sign ++ "0.0"
    else
      let d := shortest significand exponent narrow
      let digits := Nat.toDigits 10 d.digits
      let leading := d.exponent + digits.length - 1
      sign ++ if layout.plainFrom ≤ leading ∧ leading < layout.plainBelow then plain digits leading
        else layout.scientific digits leading

end Layout

end Breakthrough.Decimal
