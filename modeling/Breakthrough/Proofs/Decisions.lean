import Breakthrough.Proofs.Agents
import Breakthrough.Proofs.Endings

/-!
# What the greedy agent does at once

Two kinds of moves are played without sampling: a move onto the goal row, and the capture of an intruder, a
pawn that stands one step before the home row. The sets by which the agent finds them are shown to be the right
squares for both sides (`contains_threats`), and the first kind comes before the second.
-/

namespace Breakthrough

/-! ## Intruders -/

namespace Position

/-- The move captures a pawn that stands one row in front of the home row of the side to move. -/
def TakesIntruder (p : Position) (m : Move) : Prop :=
  p.cell m.target = some p.side.opponent ∧ (p.side.relativeRow m.target.row).val = 1

instance (p : Position) (m : Move) : Decidable (p.TakesIntruder m) := inferInstanceAs (Decidable (_ ∧ _))

end Position

variable {α σ : Type} [RandomSource σ] {p : Position}

/-- The row in front of the home row is the one that a step from there leads to. -/
theorem Bitboard.contains_forward_homeRow (c : Color) (t : Square) :
    ((Bitboard.row c.homeRow).forward c).contains t = decide ((c.relativeRow t.row).val = 1) := by
  have h : ∀ (c : Color) (i : Fin 64), ((Bitboard.row c.homeRow).forward c).contains ⟨i⟩ =
      decide ((c.relativeRow (Square.mk i).row).val = 1) := by
    intro c
    cases c <;> decide +kernel
  exact h c t.index

namespace Greedy

theorem contains_threats (hp : p.Consistent) (t : Square) :
    (threats p).contains t = true ↔ p.cell t = some p.side.opponent ∧ (p.side.relativeRow t.row).val = 1 := by
  rw [threats, Bitboard.contains_and, hp.pawns, Bitboard.contains_forward_homeRow, Bool.and_eq_true,
    decide_eq_true_iff, decide_eq_true_iff]

theorem mem_captures (hp : p.Consistent) (moves : List Move) (m : Move) :
    m ∈ captures p moves ↔ m ∈ moves ∧ p.TakesIntruder m := by
  rw [captures, List.mem_filter, contains_threats hp]
  rfl

/-! ## Shortcuts -/

theorem exists_pick?_of_ne_nil {β : Type} {items : List β} (h : items ≠ []) (g : σ) :
    ∃ item g', pick? items g = (some item, g') ∧ item ∈ items := by
  cases hpick : pick? items g with
  | mk result g' =>
    cases result with
    | some item => exact ⟨item, g', rfl, mem_of_pick? hpick⟩
    | none =>
      unfold pick? at hpick
      rw [dif_pos (List.length_pos_of_ne_nil h)] at hpick
      cases hpick

theorem winningMove?_eq_none_iff (moves : List Move) :
    winningMove? p moves = none ↔ ∀ w ∈ moves, w.target.row ≠ p.side.goalRow := by
  simp [winningMove?, List.find?_eq_none]

/-- The winning move is the first one in the order of the moves. -/
theorem exists_winningMove? {moves : List Move} (h : ∃ w ∈ moves, w.target.row = p.side.goalRow) :
    ∃ m before after, winningMove? p moves = some m ∧ moves = before ++ m :: after ∧
      m.target.row = p.side.goalRow ∧ ∀ w ∈ before, w.target.row ≠ p.side.goalRow := by
  cases hwin : winningMove? p moves with
  | none =>
    obtain ⟨w, hw, hrow⟩ := h
    exact absurd hrow ((winningMove?_eq_none_iff moves).1 hwin w hw)
  | some m =>
    obtain ⟨hrow, before, after, hsplit, hbefore⟩ := List.find?_eq_some_iff_append.1 hwin
    exact ⟨m, before, after, rfl, hsplit, by simpa using hrow, by simpa using hbefore⟩

variable [Score α]

theorem choose_of_winningMove? (a : Greedy α σ) (hlost : p.isLost = false) {m : Move}
    (h : winningMove? p p.moves = some m) : a.choose p = (.ok (m, .win), a, p) := by
  simp only [choose, hlost, Bool.false_eq_true, if_false, h]

theorem choose_of_captures (a : Greedy α σ) (hlost : p.isLost = false) (hwin : winningMove? p p.moves = none)
    (h : captures p p.moves ≠ []) :
    ∃ m a', a.choose p = (.ok (m, .capture), a', p) ∧ m ∈ captures p p.moves := by
  obtain ⟨m, g, hpick, hm⟩ := exists_pick?_of_ne_nil h a.source
  refine ⟨m, { a with source := g }, ?_, hm⟩
  simp only [choose, hlost, Bool.false_eq_true, if_false, hwin, hpick]

theorem choose_of_quiet (a : Greedy α σ) (hlost : p.isLost = false) (hwin : winningMove? p p.moves = none)
    (h : captures p p.moves = []) : a.choose p = sample a p p.moves a.source := by
  simp only [choose, hlost, Bool.false_eq_true, if_false, hwin, h]
  rfl

/-- **The greedy agent wins when it can, and else takes an intruder when it can.** In every unfinished game, on
every stream and with every setting that is a number, it answers with a legal move and gives the position back.
If a legal move lands on the goal row, the answer is the first such move in the order of generation. Otherwise,
if a legal move captures a pawn one row in front of the home row, so does the answer. -/
theorem choose_tactical (a : Greedy α σ) (h : p.Game) (hlost : p.isLost = false)
    (hepsilon : a.config.epsilon.isNaN = false) :
    ∃ m reason a', a.choose p = (.ok (m, reason), a', p) ∧ p.isLegal m = true ∧
      ((∃ w, p.isLegal w = true ∧ w.target.row = p.side.goalRow) →
        ∃ before after, p.moves = before ++ m :: after ∧ m.target.row = p.side.goalRow ∧
          ∀ w ∈ before, w.target.row ≠ p.side.goalRow) ∧
      ((∀ w, p.isLegal w = true → w.target.row ≠ p.side.goalRow) →
        (∃ c, p.isLegal c = true ∧ p.TakesIntruder c) → p.TakesIntruder m) := by
  have hcons := h.consistent
  have hlegal : ∀ w, p.isLegal w = true ↔ w ∈ p.moves := fun w => by
    rw [hcons.isLegal_iff, hlost]
    exact and_iff_right rfl
  simp only [hlegal]
  by_cases hwin : ∃ w ∈ p.moves, w.target.row = p.side.goalRow
  · obtain ⟨m, before, after, hfind, hsplit, hrow, hbefore⟩ := exists_winningMove? hwin
    refine ⟨m, .win, a, a.choose_of_winningMove? hlost hfind, List.mem_of_find?_eq_some hfind, ?_, ?_⟩
    · exact fun _ => ⟨before, after, hsplit, hrow, hbefore⟩
    · exact fun hnone => absurd hrow (hnone m (List.mem_of_find?_eq_some hfind))
  · have hnone : winningMove? p p.moves = none :=
      (winningMove?_eq_none_iff p.moves).2 fun w hw hrow => hwin ⟨w, hw, hrow⟩
    by_cases hcapture : captures p p.moves = []
    · obtain ⟨m, reason, a', heq, hm, _⟩ := a.choose_of_game h hlost hepsilon
      refine ⟨m, reason, a', heq, (hlegal m).1 hm, fun hsome => absurd hsome hwin, ?_⟩
      rintro _ ⟨c, hc, htakes⟩
      have hmem := (mem_captures hcons p.moves c).2 ⟨hc, htakes⟩
      rw [hcapture] at hmem
      cases hmem
    · obtain ⟨m, a', heq, hm⟩ := a.choose_of_captures hlost hnone hcapture
      obtain ⟨hmem, htakes⟩ := (mem_captures hcons p.moves m).1 hm
      exact ⟨m, .capture, a', heq, hmem, fun hsome => absurd hsome hwin, fun _ _ => htakes⟩

/-- Black has captured its way to g2; White takes back with one of two pawns, whatever the seed is. -/
theorem choose_tactical_capture :
    let line : List Move := [⟨⟨8⟩, ⟨16⟩⟩, ⟨⟨55⟩, ⟨47⟩⟩, ⟨⟨16⟩, ⟨24⟩⟩, ⟨⟨47⟩, ⟨39⟩⟩, ⟨⟨24⟩, ⟨32⟩⟩, ⟨⟨39⟩, ⟨31⟩⟩,
      ⟨⟨9⟩, ⟨17⟩⟩, ⟨⟨31⟩, ⟨23⟩⟩, ⟨⟨17⟩, ⟨25⟩⟩, ⟨⟨23⟩, ⟨14⟩⟩]
    let p := line.foldl Position.advance Position.start
    p.Game ∧ p.isLost = false ∧ ∀ seed : UInt64, ∃ m reason a',
      (new .default (ChaCha.ofSeed seed) : Greedy Float ChaCha).choose p = (.ok (m, reason), a', p) ∧
        m.target = ⟨14⟩ := by
  intro line p
  have hline : Position.start.isLegalLine line = true := by decide +kernel
  have hgame : p.Game := (Position.Game.start .shared).foldl_advance hline
  have hlost : p.isLost = false := by decide +kernel
  have hnone : ∀ w ∈ p.moves, w.target.row ≠ p.side.goalRow := by decide +kernel
  have hsome : p.isLegal ⟨⟨5⟩, ⟨14⟩⟩ = true ∧ p.TakesIntruder ⟨⟨5⟩, ⟨14⟩⟩ := by decide +kernel
  have honly : ∀ m ∈ p.moves, p.TakesIntruder m → m.target = ⟨14⟩ := by decide +kernel
  have hepsilon : Config.default.epsilon.isNaN = false := by decide
  have hmem : ∀ w, p.isLegal w = true → w ∈ p.moves := fun w hw => ((hgame.consistent.isLegal_iff w).1 hw).2
  refine ⟨hgame, hlost, fun seed => ?_⟩
  obtain ⟨m, reason, a', heq, hm, _, htakes⟩ :=
    choose_tactical (new .default (ChaCha.ofSeed seed) : Greedy Float ChaCha) hgame hlost hepsilon
  exact ⟨m, reason, a', heq, honly m (hmem m hm) (htakes (fun w hw => hnone w (hmem w hw)) ⟨_, hsome⟩)⟩

end Greedy

end Breakthrough
