import Mathlib.Logic.Function.Iterate
import Breakthrough.Random.Rejection

/-!
# Draws never give up

The source of words that are drawn until one is accepted is a stream that comes round: after the words that are left of
a block, the blocks of the key follow each other, and their number wraps. So a word that is accepted anywhere in the
stream has one like it within `ChaCha.reach` words, and the limit of `firstAccepted` is never met by a draw that an
unlimited search would end (`firstAccepted_next64_of_isFirst`, `firstAccepted_next32_of_isFirst`).
-/

namespace Breakthrough

section Stream

variable {ω σ : Type} {word : σ → ω × σ} {accepts : ω → Bool} {g : σ}

/-- The word with a number in a stream, and what follows it. -/
def nth (word : σ → ω × σ) (k : Nat) (g : σ) : ω × σ := word ((fun g => (word g).2)^[k] g)

/-- `k` is the number of the first word that is accepted. -/
structure IsFirst (word : σ → ω × σ) (accepts : ω → Bool) (g : σ) (k : Nat) : Prop where
  accepted : accepts (nth word k g).1 = true
  rejected : ∀ i < k, accepts (nth word i g).1 = false

theorem firstAccepted_of_isFirst {k rejections : Nat} (h : IsFirst word accepts g k) (hk : k ≤ rejections) :
    firstAccepted word accepts rejections g = nth word k g := by
  induction rejections generalizing g k with
  | zero =>
    obtain rfl : k = 0 := Nat.le_zero.1 hk
    rfl
  | succ rejections ih =>
    rw [firstAccepted]
    cases k with
    | zero => exact if_pos h.accepted
    | succ k =>
      have hfirst : accepts (word g).1 = false := h.rejected 0 (Nat.succ_pos k)
      simp only [hfirst, Bool.false_eq_true, if_false]
      exact ih ⟨h.accepted, fun i hi => h.rejected (i + 1) (Nat.succ_lt_succ hi)⟩ (Nat.le_of_succ_le_succ hk)

/-- In a stream that comes round, the first word that is accepted comes before the stream repeats itself. -/
theorem IsFirst.lt_of_periodic {start period k : Nat} (h : IsFirst word accepts g k) (hperiod : 0 < period)
    (hround : ∀ i, start ≤ i → nth word (i + period) g = nth word i g) : k < start + period := by
  refine Nat.lt_of_not_le fun hle => ?_
  -- a whole period earlier the stream was at the same place, and the word there was rejected
  have hearlier := h.rejected (k - period) (by omega)
  rw [← hround (k - period) (by omega), Nat.sub_add_cancel (by omega), h.accepted] at hearlier
  cases hearlier

end Stream

namespace ChaCha

variable {key : Key} {number : UInt64} {pending : List UInt32}

theorem length_words (key : Key) (number : UInt64) : (key.words number).length = 16 := rfl

/-- The stream after its next word. -/
def rest (g : ChaCha) : ChaCha := g.next.2

theorem iterate_rest_pending : rest^[pending.length] ⟨key, number, pending⟩ = ⟨key, number, []⟩ := by
  induction pending with
  | nil => rfl
  | cons word pending ih => exact ih

theorem iterate_rest_block : rest^[16] ⟨key, number, []⟩ = ⟨key, number + 1, []⟩ := by
  cases hwords : key.words number with
  | nil =>
    have hlength := length_words key number
    rw [hwords] at hlength
    cases hlength
  | cons word pending =>
    have hlength := length_words key number
    rw [hwords, List.length_cons] at hlength
    have hrest : rest ⟨key, number, []⟩ = ⟨key, number + 1, pending⟩ := by
      simp only [rest, next, hwords]
    rw [Function.iterate_succ_apply, hrest, ← Nat.succ.inj hlength]
    exact iterate_rest_pending

theorem iterate_rest_blocks (n : Nat) : rest^[16 * n] ⟨key, number, []⟩ = ⟨key, number + .ofNat n, []⟩ := by
  induction n with
  | zero => simp
  | succ n ih =>
    rw [Nat.mul_succ, Nat.add_comm, Function.iterate_add_apply, ih, iterate_rest_block, UInt64.ofNat_add,
      UInt64.add_assoc]
    rfl

theorem period_pos : 0 < period := Nat.mul_pos (by decide) (by decide)

/-- All blocks of a key lead back to the first of them. -/
theorem iterate_rest_period (n : Nat) : rest^[period * n] ⟨key, number, []⟩ = ⟨key, number, []⟩ := by
  have hround : rest^[period] ⟨key, number, []⟩ = ⟨key, number, []⟩ := by
    rw [period, iterate_rest_blocks, show UInt64.ofNat UInt64.size = 0 from rfl, UInt64.add_zero]
  rw [Function.iterate_mul, Function.iterate_fixed hround]

/-- From the end of a block on, the stream comes round. -/
theorem iterate_rest_add_period (g : ChaCha) {i : Nat} (hi : g.pending.length ≤ i) (n : Nat) :
    rest^[i + period * n] g = rest^[i] g := by
  obtain ⟨k, rfl⟩ := Nat.exists_eq_add_of_le' hi
  have hend : rest^[g.pending.length] g = ⟨g.key, g.number, []⟩ := iterate_rest_pending
  rw [Nat.add_assoc, Nat.add_comm g.pending.length, Function.iterate_add_apply, Function.iterate_add_apply, hend,
    iterate_rest_period, Function.iterate_add_apply, hend]

theorem nth_next32_add_period (g : ChaCha) {i : Nat} (hi : g.pending.length ≤ i) :
    nth WordSource.next32 (i + period) g = nth WordSource.next32 i g := by
  have hone : ∀ k, (fun g : ChaCha => (WordSource.next32 g).2)^[k] g = rest^[k] g := fun _ => rfl
  have hround := iterate_rest_add_period g hi 1
  rw [Nat.mul_one] at hround
  rw [nth, nth, hone, hone, hround]

/-- A double word takes two words, so that a period of double words is two of words. -/
theorem nth_next64_add_period (g : ChaCha) {i : Nat} (hi : g.pending.length ≤ i) :
    nth WordSource.next64 (i + period) g = nth WordSource.next64 i g := by
  have htwo : ∀ k, (fun g : ChaCha => (WordSource.next64 g).2)^[k] g = rest^[2 * k] g := by
    intro k
    rw [Function.iterate_mul]
    rfl
  rw [nth, nth, htwo, htwo, Nat.mul_add, Nat.mul_comm 2 period, iterate_rest_add_period g (by omega)]

/-- **A draw of double words takes the first that is accepted**, however many are rejected before it. -/
theorem firstAccepted_next64_of_isFirst {accepts : UInt64 → Bool} {g : ChaCha} {k : Nat}
    (h : IsFirst WordSource.next64 accepts g k) :
    firstAccepted WordSource.next64 accepts g.reach g = nth WordSource.next64 k g :=
  firstAccepted_of_isFirst h (Nat.le_of_lt (h.lt_of_periodic period_pos fun _ => nth_next64_add_period g))

/-- **So does a draw of single words.** -/
theorem firstAccepted_next32_of_isFirst {accepts : UInt32 → Bool} {g : ChaCha} {k : Nat}
    (h : IsFirst WordSource.next32 accepts g k) :
    firstAccepted WordSource.next32 accepts g.reach g = nth WordSource.next32 k g :=
  firstAccepted_of_isFirst h (Nat.le_of_lt (h.lt_of_periodic period_pos fun _ => nth_next32_add_period g))

end ChaCha

end Breakthrough
