import Breakthrough.Proofs.Endings
import Breakthrough.Proofs.Runners

/-!
# Threats to win

A pawn one row from its goal always has a diagonal to go, so its side wins unless it is stopped at once
(`Consistent.canFinish_iff`). The evaluation declares a loss when the opponent has such a pawn and it is a runner.
Being a runner does not make it safe, and the side to move may have such a pawn that is none: the loss is forced
exactly when the side to move can neither finish first nor take the only threat (`verdict_loss_forced_iff`).
-/

namespace Breakthrough.Position

variable {p : Position} {m : Move} {s : Square}

/-- No pawn stands on the goal row of its side. -/
def NoneArrived (p : Position) : Prop := ∀ s c, p.cell s = some c → s.row ≠ c.goalRow

instance (p : Position) : Decidable p.NoneArrived :=
  decidable_of_iff (∀ s ∈ Square.all, ∀ c ∈ p.cell s, s.row ≠ c.goalRow) <| by
    simp only [NoneArrived, Square.mem_all, forall_const, Option.mem_def]

/-- A pawn of a side stands on the square and has one row to go. -/
def Threat (p : Position) (c : Color) (s : Square) : Prop := p.cell s = some c ∧ c.rowsLeft s.row = 1

instance (p : Position) (c : Color) (s : Square) : Decidable (p.Threat c s) := inferInstanceAs (Decidable (_ ∧ _))

/-- A pawn of the side to move stands diagonally before the square. -/
def Attacked (p : Position) (s : Square) : Prop :=
  ∃ r, p.cell r = some p.side ∧ (p.side.aheadLeft.Leads r s ∨ p.side.aheadRight.Leads r s)

/-- The side to move has a legal move onto its goal row. -/
def CanFinish (p : Position) : Prop := ∃ m, p.isLegal m = true ∧ m.target.row = p.side.goalRow

theorem CanFinish.isLost_eq_false (hp : p.Consistent) (h : p.CanFinish) : p.isLost = false := by
  obtain ⟨m, hm, _⟩ := h
  exact ((hp.isLegal_iff m).1 hm).1

/-- Without arrived pawns, to have a threat is to be able to carry it out. -/
theorem Consistent.canFinish_iff (hp : p.Consistent) (hnone : p.NoneArrived) :
    p.CanFinish ↔ ∃ s, p.Threat p.side s := by
  constructor
  · rintro ⟨m, hm, hgoal⟩
    have hstep := (hp.mem_moves m).1 ((hp.isLegal_iff m).1 hm).2
    have hrows := hstep.rowsLeft_eq
    rw [(p.side.rowsLeft_eq_zero m.target.row).2 hgoal] at hrows
    exact ⟨m.source, hstep.source, hrows⟩
  · rintro ⟨s, hs, hrow⟩
    obtain ⟨t, hst⟩ := Mailbox.exists_diagonal (hnone s p.side hs)
    have hgoal : t.row = p.side.goalRow := by
      rw [← Color.rowsLeft_eq_zero]
      have := Color.rowsLeft_of_diagonal hst
      omega
    have hmem : ⟨s, t⟩ ∈ p.moves :=
      (hp.mem_moves _).2 ⟨hs, .inr ⟨hst, fun ht => hnone t p.side ht hgoal⟩⟩
    have hlost : p.isLost = false := by
      rw [← Bool.not_eq_true, hp.isLost_iff]
      rintro (⟨u, hu, hcell⟩ | hnil)
      · refine hnone u _ hcell ?_
        rw [hu, Color.goalRow, Color.opponent_opponent]
      · rw [hnil] at hmem
        cases hmem
    exact ⟨⟨s, t⟩, (hp.isLegal_iff _).2 ⟨hlost, hmem⟩, hgoal⟩

/-! ## After a move -/

theorem cell_advance_eq_opponent_iff (hsource : p.cell m.source = some p.side) (s : Square) :
    (p.advance m).cell s = some p.side.opponent ↔ p.cell s = some p.side.opponent ∧ s ≠ m.target := by
  rw [cell_advance]
  by_cases ht : s = m.target
  · simp [ht, p.side.opponent_ne.symm]
  · by_cases hs : s = m.source
    · subst hs
      simp [ht, hsource, p.side.opponent_ne.symm]
    · simp [ht, hs]

/-- Of the threats against the side to move only the one that it takes is gone. -/
theorem threat_advance_iff (hsource : p.cell m.source = some p.side) (s : Square) :
    (p.advance m).Threat p.side.opponent s ↔ p.Threat p.side.opponent s ∧ s ≠ m.target := by
  rw [Threat, Threat, cell_advance_eq_opponent_iff hsource, and_right_comm]

theorem NoneArrived.advance (hnone : p.NoneArrived) (hgoal : m.target.row ≠ p.side.goalRow) :
    (p.advance m).NoneArrived := by
  intro s c hs
  rw [cell_advance] at hs
  split at hs
  · rename_i ht
    rw [ht, ← Option.some.inj hs]
    exact hgoal
  · split at hs
    · cases hs
    · exact hnone s c hs

/-- **A threat is carried out unless the move before wins or takes the pawn.** -/
theorem Consistent.canFinish_advance_iff (hp : p.Consistent) (hnone : p.NoneArrived)
    (hm : p.isLegal m = true) :
    (p.advance m).CanFinish ↔
      m.target.row ≠ p.side.goalRow ∧ ∃ s, p.Threat p.side.opponent s ∧ s ≠ m.target := by
  have hstep := (hp.mem_moves m).1 ((hp.isLegal_iff m).1 hm).2
  have hnext : (p.advance m).Consistent := hp.advance_of_target_ne hstep.source hstep.target_ne
  have hside : (p.advance m).side = p.side.opponent := side_advance p m
  by_cases hgoal : m.target.row = p.side.goalRow
  · -- the pawn that has arrived ends the game
    refine iff_of_false (fun h => ?_) (fun h => h.1 hgoal)
    have hlost : (p.advance m).isLost = true := by
      rw [hnext.isLost_iff, hside, Color.opponent_opponent]
      exact .inl ⟨m.target, hgoal, by rw [cell_advance, if_pos rfl]⟩
    rw [h.isLost_eq_false hnext] at hlost
    cases hlost
  · rw [hnext.canFinish_iff (hnone.advance hgoal), hside]
    simp only [threat_advance_iff hstep.source]
    exact (and_iff_right hgoal).symm

theorem Attacked.exists_isLegal (hp : p.Consistent) (hlost : p.isLost = false) (h : p.Attacked s)
    (hs : p.cell s ≠ some p.side) : ∃ m, p.isLegal m = true ∧ m.target = s := by
  obtain ⟨r, hr, hrs⟩ := h
  exact ⟨⟨r, s⟩, (hp.isLegal_iff _).2 ⟨hlost, (hp.mem_moves _).2 ⟨hr, .inr ⟨hrs, hs⟩⟩⟩, rfl⟩

/-- Only a diagonal step takes. -/
theorem Consistent.attacked_of_isLegal (hp : p.Consistent) (hm : p.isLegal m = true)
    (htarget : p.cell m.target ≠ none) : p.Attacked m.target := by
  have hstep := (hp.mem_moves m).1 ((hp.isLegal_iff m).1 hm).2
  rcases hstep.way with ⟨_, hempty⟩ | ⟨hdiagonal, _⟩
  · exact absurd hempty htarget
  · exact ⟨m.source, hstep.source, hdiagonal⟩

/-! ## The verdict -/

/-- **When a declared loss is forced.** On every position that calls lead to in which the game goes on, no pawn
has arrived and a loss is declared: whatever the side to move does, the opponent can finish next, exactly when the
side to move has no pawn one row from its goal and does not attack the only pawn of the opponent that is one row
from its goal. -/
theorem verdict_loss_forced_iff {b : Position} (hb : Origin b) (calls : List Call)
    (hlost : (b.run calls).isLost = false) (hnone : (b.run calls).NoneArrived)
    (hloss : (b.run calls).verdict = .loss) :
    let p := b.run calls
    (∀ m, p.isLegal m = true → (p.advance m).isLost = false ∧ (p.advance m).CanFinish) ↔
      (¬ ∃ s, p.Threat p.side s) ∧
      ¬ ∃ s, p.Threat p.side.opponent s ∧ (∀ t, p.Threat p.side.opponent t → t = s) ∧ p.Attacked s := by
  intro p
  have hp : p.Consistent := hb.consistent_run calls
  constructor
  · intro hforced
    constructor
    · -- a pawn of one's own that arrives leaves no reply
      rintro hthreat
      obtain ⟨m, hm, hgoal⟩ := (hp.canFinish_iff hnone).2 hthreat
      exact ((hp.canFinish_advance_iff hnone hm).1 (hforced m hm).2).1 hgoal
    · rintro ⟨s, hs, honly, hattacked⟩
      have hother : p.cell s ≠ some p.side := by
        rw [hs.1]
        exact fun h => p.side.opponent_ne (Option.some.inj h)
      obtain ⟨m, hm, rfl⟩ := hattacked.exists_isLegal hp hlost hother
      obtain ⟨_, t, ht, hne⟩ := (hp.canFinish_advance_iff hnone hm).1 (hforced m hm).2
      exact hne (honly t ht)
  · rintro ⟨hquiet, hsafe⟩ m hm
    have hstep := (hp.mem_moves m).1 ((hp.isLegal_iff m).1 hm).2
    have hfinish : (p.advance m).CanFinish := by
      refine (hp.canFinish_advance_iff hnone hm).2 ⟨fun hgoal => ?_, ?_⟩
      · exact hquiet ((hp.canFinish_iff hnone).1 ⟨m, hm, hgoal⟩)
      · by_contra hgone
        have honly : ∀ t, p.Threat p.side.opponent t → t = m.target := fun t ht =>
          by_contra fun hne => hgone ⟨t, ht, hne⟩
        obtain ⟨_, ⟨s, hrunner, hrow⟩, _⟩ := hp.verdict_eq_loss_iff.1 hloss
        have hs : p.Threat p.side.opponent s := ⟨hrunner.1, hrow⟩
        obtain rfl := honly s hs
        refine hsafe ⟨m.target, hs, honly, hp.attacked_of_isLegal hm ?_⟩
        rw [hs.1]
        exact Option.some_ne_none _
    have hnext := hp.advance_of_target_ne hstep.source hstep.target_ne
    exact ⟨hfinish.isLost_eq_false hnext, hfinish⟩

/-- White can take one of the two pawns that are one row from their goal, but not both. -/
theorem verdict_loss_forced_iff_two_threats :
    let text := "........\n........\n........\n........\n........\n....W...\n.B....B.\nW.......\n"
    ∃ p, ofDiagram text .white = .ok p ∧ p.isLost = false ∧ p.NoneArrived ∧ p.verdict = .loss ∧
      p.Attacked ⟨9⟩ ∧
      ∀ m, p.isLegal m = true → (p.advance m).isLost = false ∧ (p.advance m).CanFinish := by
  intro text
  obtain ⟨p, hp⟩ : ∃ p, p = ofBoard (.ofFn fun i =>
    if i = 0 ∨ i = 20 then some .white else if i = 9 ∨ i = 14 then some .black else none) .white .shared :=
    ⟨_, rfl⟩
  have horigin : ofDiagram text .white = .ok p := by
    rw [hp]
    exact ofDiagram_of_rows .white (by decide +kernel)
  have hstate : p.isLost = false ∧ p.NoneArrived ∧ p.verdict = .loss := by
    rw [hp]
    decide +kernel
  have hthreats : (∀ s ∈ Square.all, ¬ p.Threat p.side s) ∧ p.Threat p.side.opponent ⟨9⟩ ∧
      p.Threat p.side.opponent ⟨14⟩ ∧ p.cell ⟨0⟩ = some p.side ∧ p.side.aheadRight.Leads ⟨0⟩ ⟨9⟩ := by
    rw [hp]
    decide +kernel
  obtain ⟨hlost, hnone, hloss⟩ := hstate
  obtain ⟨hquiet, hleft, hright, hpawn, hleads⟩ := hthreats
  refine ⟨p, horigin, hlost, hnone, hloss, ⟨⟨0⟩, hpawn, .inr hleads⟩, ?_⟩
  refine (verdict_loss_forced_iff (.diagram horigin) [] hlost hnone hloss).2 ⟨?_, ?_⟩
  · rintro ⟨s, hs⟩
    exact hquiet s (Square.mem_all s) hs
  · rintro ⟨s, _, honly, _⟩
    have hsame : (⟨9⟩ : Square) = ⟨14⟩ := (honly _ hleft).trans (honly _ hright).symm
    exact absurd hsame (by decide)

/-- A declared loss that is none. The pawn on a1 takes the runner on b2; the pawn on b7, which is no runner, takes
on a8 and has arrived. -/
theorem verdict_loss_not_forced :
    let runner := "........\n........\n........\n........\n........\n........\n.B......\nW.......\n"
    let blocked := "B.B.....\n.W......\n........\n........\n........\n........\n.......B\n........\n"
    (∃ p, ofDiagram runner .white = .ok p ∧ p.isLost = false ∧ p.NoneArrived ∧ p.verdict = .loss ∧
      p.isLegal ⟨⟨0⟩, ⟨9⟩⟩ = true ∧ (p.advance ⟨⟨0⟩, ⟨9⟩⟩).isLost = true) ∧
    ∃ p, ofDiagram blocked .white = .ok p ∧ p.isLost = false ∧ p.NoneArrived ∧ p.verdict = .loss ∧
      p.isLegal ⟨⟨49⟩, ⟨56⟩⟩ = true ∧ (p.advance ⟨⟨49⟩, ⟨56⟩⟩).isLost = true := by
  intro runner blocked
  constructor
  · refine ⟨ofBoard (.ofFn fun i =>
      if i = 0 then some .white else if i = 9 then some .black else none) .white .shared, ?_, ?_⟩
    · exact ofDiagram_of_rows .white (by decide +kernel)
    · decide +kernel
  · refine ⟨ofBoard (.ofFn fun i =>
      if i = 49 then some .white else if i = 15 ∨ i = 56 ∨ i = 58 then some .black else none) .white .shared, ?_, ?_⟩
    · exact ofDiagram_of_rows .white (by decide +kernel)
    · decide +kernel

end Breakthrough.Position
