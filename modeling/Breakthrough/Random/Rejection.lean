import Breakthrough.Random.ChaCha

/-!
# Draws from the ChaCha stream

A place in a list of `n` is drawn by scaling a word: the word times `n` is split into a high part,
which is the place, and a low part. Words whose low part lies beyond the largest multiple of the
scaled range are rejected, so every place is equally likely. Words are rejected without a limit. The
stream repeats itself after `ChaCha.period` words, so a draw that finds no word in a whole period
would never find one.
-/

namespace Breakthrough

/-- The first word of a stream that is accepted, or the one after `rejections` words that are not. -/
@[specialize] def firstAccepted {ω σ : Type} (word : σ → ω × σ) (accepts : ω → Bool) :
    (rejections : Nat) → σ → ω × σ
  | 0, g => word g
  | rejections + 1, g =>
    let (w, g) := word g
    if accepts w then (w, g) else firstAccepted word accepts rejections g

/-! ## Scaling words -/

/-- A double word scaled to a number below `n`, computed from its halves. -/
def scaleLong (w : UInt64) (n : Nat) : Nat :=
  ((w >>> 32).toNat * n + w.toUInt32.toNat * n / UInt32.size) / UInt32.size

theorem scaleLong_eq (w : UInt64) (n : Nat) : scaleLong w n = w.toNat * n / UInt64.size := by
  have hw : w.toNat = UInt32.size * (w >>> 32).toNat + w.toUInt32.toNat := by
    simp [Nat.shiftRight_eq_div_pow, UInt32.size]
    omega
  rw [scaleLong, hw, Nat.add_mul, Nat.mul_assoc,
    show UInt64.size = UInt32.size * UInt32.size from rfl, ← Nat.div_div_eq_div_mul,
    Nat.mul_add_div (by decide)]

theorem scaleLong_lt (w : UInt64) {n : Nat} (h : 0 < n) : scaleLong w n < n := by
  rw [scaleLong_eq]
  exact Nat.div_lt_of_lt_mul (Nat.mul_lt_mul_of_pos_right w.toNat_lt h)

/-- Whether a double word's low part is within the largest multiple of `n`. -/
def acceptsLong (n w : UInt64) : Bool := w * n ≤ n <<< (63 - n.log2) - 1

/-- A single word scaled to a number below `n`. -/
def scaleShort (w : UInt32) (n : Nat) : Nat := w.toNat * n / UInt32.size

theorem scaleShort_lt (w : UInt32) {n : Nat} (h : 0 < n) : scaleShort w n < n :=
  Nat.div_lt_of_lt_mul (Nat.mul_lt_mul_of_pos_right w.toNat_lt h)

/-- Whether a single word's low part is within the largest multiple of `n`. -/
def acceptsShort (n w : UInt32) : Bool := w * n ≤ n <<< (31 - n.log2) - 1

/-! ## Draws -/

namespace ChaCha

/-- How many words there are in all blocks of a key. -/
def period : Nat := 16 * UInt64.size

/-- How many words of the stream there are before it repeats itself. -/
def reach (g : ChaCha) : Nat := g.pending.length + period

instance : RandomSource ChaCha where
  drawIndex n h g :=
    let (w, g) := firstAccepted WordSource.next64 (acceptsLong n.toUInt64) g.reach g
    (⟨scaleLong w n, scaleLong_lt w h⟩, g)
  drawShortIndex n h g :=
    let (w, g) := firstAccepted WordSource.next32 (acceptsShort n.toUInt32) g.reach g
    (⟨scaleShort w n, scaleShort_lt w h⟩, g)
  drawWord := WordSource.next64

end ChaCha

end Breakthrough
