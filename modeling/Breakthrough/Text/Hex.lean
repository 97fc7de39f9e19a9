/-!
# Hexadecimal digits

Lower-case digits, either as many as the number needs or padded with zeros to a width.
-/

namespace Breakthrough.Text

def hex (n : Nat) : String :=
  String.ofList (Nat.toDigits 16 n)

/-- A number in lower-case hexadecimal digits, padded with zeros to a width. -/
def hexPadded (width n : Nat) : String :=
  let digits := Nat.toDigits 16 n
  String.ofList (List.replicate (width - digits.length) '0' ++ digits)

/-- A 64-bit word as sixteen hexadecimal digits. -/
def word64 (w : UInt64) : String :=
  hexPadded 16 w.toNat

end Breakthrough.Text
