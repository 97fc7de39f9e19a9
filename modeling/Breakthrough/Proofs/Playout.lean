import Breakthrough.Playout
import Breakthrough.Proofs.Line

/-!
# Playouts leave no trace

A playout walks the position itself to the end of a game. On every stream, for every first move and on
every outcome the walk is a line of play from where it started, so taking back as many moves as were
played restores the position (`position_playout`).
-/

namespace Breakthrough

/-- A result after which the run can go on. -/
def Mild {β : Type} (result : Except Error β) : Prop := ∀ err, result = .error err → err.isFatal = false

theorem mild_ok {β : Type} (b : β) : Mild (.ok b) := nofun

theorem mild_error {β : Type} {err : Error} (h : err.isFatal = false) : Mild (.error err : Except Error β) := by
  intro err' heq
  cases heq
  exact h

theorem Mild.map {β γ : Type} {result : Except Error β} (h : Mild result) (f : β → γ) :
    Mild (result.map f) := by
  cases result with
  | ok b => exact mild_ok _
  | error err => exact mild_error (h err rfl)

variable {σ : Type} [RandomSource σ]

namespace Position

theorem Line.depth_le_depth {b p : Position} (h : Line b p) : b.depth ≤ p.depth := by
  induction h with
  | base => exact Nat.le_refl _
  | step _ _ ih => rw [depth_advance]; omega

/-- Taking back the moves of a line leads to where it began. -/
theorem Line.retractTimes_eq {b p : Position} (h : Line b p) :
    p.retractTimes (p.depth - b.depth) = b := by
  induction h with
  | base => rw [Nat.sub_self]; rfl
  | @step p m hp hm ih =>
    have hle := hp.depth_le_depth
    rw [depth_advance, show p.depth + 1 - b.depth = (p.depth - b.depth) + 1 by omega, retractTimes,
      retract_advance hm, ih]

theorem isFatal_of_refusal? {p : Position} {m : Move} {e : Error} (h : p.refusal? m = some e) :
    e.isFatal = false := by
  unfold refusal? at h
  split at h
  · cases h; rfl
  split at h
  · cases h; rfl
  split at h
  · cases h; rfl
  split at h
  · cases h; rfl
  split at h
  · cases h; rfl
  · cases h

end Position

open Position

theorem chooseMove_error {moves : List Move} {g g' : σ} {e : Error}
    (h : chooseMove moves g = (.error e, g')) : e = .noMoves ∧ moves = [] := by
  unfold chooseMove at h
  split at h
  · rw [Prod.mk.injEq] at h
    cases h.1
  · rename_i hlen
    rw [Prod.mk.injEq, Except.error.injEq] at h
    exact ⟨h.1.symm, List.eq_nil_of_length_eq_zero (by omega)⟩

theorem chooseMove_ok {moves : List Move} {g g' : σ} {m : Move}
    (h : chooseMove moves g = (.ok m, g')) : m ∈ moves := by
  unfold chooseMove at h
  split at h
  · rw [Prod.mk.injEq, Except.ok.injEq] at h
    rw [← h.1]
    exact List.get_mem _ _
  · rw [Prod.mk.injEq] at h
    cases h.1

/-- The walk to the end of a game is a line of play. -/
theorem line_playToEnd {b p : Position} (h : Line b p) (g : σ) : Line b (playToEnd p g).2.1 := by
  fun_induction playToEnd p g with
  | case1 => exact h
  | case2 => exact h
  | case3 => exact h
  | case4 p g _ m _ _ hm ih => exact ih (.step h ((refusal?_eq_none_iff p m).1 hm))

theorem mild_playToEnd (p : Position) (g : σ) : Mild (playToEnd p g).1 := by
  fun_induction playToEnd p g with
  | case1 => exact mild_ok ()
  | case2 p g _ e' g' hc =>
    rw [(chooseMove_error hc).1]
    exact mild_error rfl
  | case3 p g _ m g' _ e' he => exact mild_error (isFatal_of_refusal? he)
  | case4 p g _ m g' _ _ ih => exact ih

/-- **A playout restores the position**, history included, on every outcome. -/
theorem position_playout (p : Position) (first : Move) (g : σ) : (playout p first g).2.1 = p := by
  unfold playout
  split
  · rfl
  · rename_i hm
    have hline : Line p (p.advance first) := .step .base ((refusal?_eq_none_iff p first).1 hm)
    exact (line_playToEnd hline g).retractTimes_eq

theorem mild_playout (p : Position) (first : Move) (g : σ) : Mild (playout p first g).1 := by
  unfold playout
  split
  · rename_i he
    exact mild_error (isFatal_of_refusal? he)
  · exact (mild_playToEnd _ g).map _

theorem position_countWins (first : Move) (n wins : Nat) (p : Position) (g : σ) :
    (countWins first n wins p g).2.1 = p := by
  induction n generalizing wins g with
  | zero => rfl
  | succ n ih =>
    have hp := position_playout p first g
    unfold countWins
    split
    · rename_i hr; rw [hr] at hp; exact hp
    · rename_i hr
      rw [hr] at hp
      simp only at hp
      rw [hp]
      exact ih _ _

theorem mild_countWins (first : Move) (n wins : Nat) (p : Position) (g : σ) :
    Mild (countWins first n wins p g).1 := by
  induction n generalizing wins p g with
  | zero => exact mild_ok wins
  | succ n ih =>
    have hone := mild_playout p first g
    unfold countWins
    split
    · rename_i hr
      rw [hr] at hone
      exact mild_error (hone _ rfl)
    · exact ih _ _ _

/-- No more playouts are won than played. -/
theorem countWins_le {first : Move} {n wins total : Nat} {p q : Position} {g g' : σ}
    (h : countWins first n wins p g = (.ok total, q, g')) : total ≤ wins + n := by
  induction n generalizing wins p g with
  | zero =>
    cases h
    exact Nat.le_refl _
  | succ n ih =>
    unfold countWins at h
    split at h
    · cases h
    · have hrest := ih h
      split at hrest <;> omega

end Breakthrough
