/-!
# The numbers of rewards

Rewards, averages and evaluations are computed with a handful of operations. They are gathered in a
class, so that one definition serves floating-point numbers, which the program runs with, and exact
ones.
-/

namespace Breakthrough

/-- The arithmetic that rewards are computed in. -/
class Score (α : Type) extends Add α, Sub α, Mul α, Div α where
  ofNat : Nat → α
  lt : α → α → Bool

namespace Score

variable {α : Type} [Score α]

def zero : α := ofNat 0

def one : α := ofNat 1

/-- A fraction of two whole numbers, rounded once. -/
def ratio (numerator denominator : Nat) : α := ofNat numerator / ofNat denominator

/-- A number moved into the interval from 0 to 1; what compares with nothing stays. -/
def clamp (x : α) : α :=
  if lt x zero then zero else if lt one x then one else x

end Score

instance : Score Float where
  ofNat := Float.ofNat
  lt a b := a < b

end Breakthrough
