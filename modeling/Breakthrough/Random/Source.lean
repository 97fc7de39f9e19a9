/-!
# Random choices and random words

Whatever chooses at random draws from a `RandomSource`, which gives numbers below a bound. How a
source makes them is its own affair. A `WordSource` is a stream of 32-bit words. A 64-bit word takes
two of them, the first being the low half.
-/

namespace Breakthrough

/-- What random choices are drawn from. A short draw is one that a single word is enough for. -/
class RandomSource (σ : Type) where
  drawIndex (n : Nat) (h : 0 < n) (g : σ) : Fin n × σ
  drawShortIndex (n : Nat) (h : 0 < n) (g : σ) : Fin n × σ
  drawWord (g : σ) : UInt64 × σ

/-- A stream of random words: the next word and the rest of the stream. -/
class WordSource (σ : Type) where
  next32 : σ → UInt32 × σ

/-- The next two words as one, the first being the low half. -/
def WordSource.next64 {σ : Type} [WordSource σ] (g : σ) : UInt64 × σ :=
  let (low, g) := next32 g
  let (high, g) := next32 g
  (low.toUInt64 ||| (high.toUInt64 <<< 32), g)

/-- The next `n` double words, in order. -/
def WordSource.words64 {σ : Type} [WordSource σ] : (n : Nat) → σ → Vector UInt64 n × σ
  | 0, g => (#v[], g)
  | n + 1, g =>
    let (words, g) := words64 n g
    let (word, g) := next64 g
    (words.push word, g)

end Breakthrough
