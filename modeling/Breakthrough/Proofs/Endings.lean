import Mathlib.Data.Finset.Max
import Breakthrough.Proofs.Games
import Breakthrough.Random.Rejection

/-!
# When a game can end

No game of legal moves is longer than 208 moves, because the pawns have no more rows to go, and none is lost
before the eleventh. There are two ways to lose. The opponent can arrive on the home row: a pawn starts at
least six rows from its goal and each side moves every other time. Or the side to move can be without a move,
but only if it has no pawn at all or one that has arrived: the foremost pawn of a side always has a diagonal
ahead on which none of its own stands. From the start layout no side comes to move when it has arrived, even if
pawns are moved against the rules, so that nobody is ever stalemated (`run_never_stalemates`).
-/

namespace Breakthrough

namespace Color

theorem rowsLeft_eq_zero (c : Color) (row : Fin 8) : c.rowsLeft row = 0 ↔ row = c.goalRow := by
  cases c <;> revert row <;> decide

/-- The moves that a side has made when `n` have been played, White having begun. -/
def turns : Color → Nat → Nat
  | white, n => (n + 1) / 2
  | black, n => n / 2

theorem turns_le_succ (c : Color) (n : Nat) : c.turns n ≤ c.turns (n + 1) := by
  cases c <;> simp only [turns] <;> omega

theorem turns_lt_six (c : Color) {n : Nat} (h : n < 11) : c.turns n < 6 := by
  cases c <;> simp only [turns] <;> omega

end Color

namespace Mailbox

variable {board : Vector Cell 64} {side : Color}

/-! ## The foremost pawn -/

theorem exists_diagonal {s : Square} (h : s.row ≠ side.goalRow) :
    ∃ t, side.aheadLeft.Leads s t ∨ side.aheadRight.Leads s t := by
  have hsteps : ∀ (c : Color) (i : Fin 64), (Square.mk i).row ≠ c.goalRow →
      (Square.step? ⟨i⟩ c.aheadLeft).isSome ∨ (Square.step? ⟨i⟩ c.aheadRight).isSome := by
    intro c
    cases c <;> decide +kernel
  rcases hsteps side s.index h with hd | hd
  · obtain ⟨t, ht⟩ := Option.isSome_iff_exists.1 hd
    exact ⟨t, .inl ((Square.step?_eq_some_iff s t _).1 ht)⟩
  · obtain ⟨t, ht⟩ := Option.isSome_iff_exists.1 hd
    exact ⟨t, .inr ((Square.step?_eq_some_iff s t _).1 ht)⟩

theorem exists_foremost (h : ∃ s : Square, board.get s.index = some side) :
    ∃ s : Square, board.get s.index = some side ∧
      ∀ t : Square, board.get t.index = some side → side.rowsLeft s.row ≤ side.rowsLeft t.row := by
  obtain ⟨s, hs⟩ := h
  obtain ⟨i, hi, hmin⟩ := Finset.exists_min_image (Finset.univ.filter fun i => board.get i = some side)
    (fun i => side.rowsLeft (Square.mk i).row) ⟨s.index, by simpa using hs⟩
  refine ⟨⟨i⟩, by simpa using hi, fun t ht => ?_⟩
  exact hmin t.index (by simpa using ht)

/-- **Pawns that have not arrived do not block each other.** A side with a pawn, but none on its goal row, has
a move. -/
theorem exists_step (hpawn : ∃ s : Square, board.get s.index = some side)
    (hgoal : ∀ s : Square, board.get s.index = some side → s.row ≠ side.goalRow) :
    ∃ m, Step board side m := by
  obtain ⟨s, hs, hforemost⟩ := exists_foremost hpawn
  obtain ⟨t, hst⟩ := exists_diagonal (hgoal s hs)
  have hcloser := Color.rowsLeft_of_diagonal hst
  refine ⟨⟨s, t⟩, hs, .inr ⟨hst, fun ht => ?_⟩⟩
  have := hforemost t ht
  omega

/-! ## Counting pawns -/

/-- How many pawns of a side stand on a board. -/
def pawnCount (board : Vector Cell 64) (c : Color) : Nat :=
  (Finset.univ.filter fun i => board.get i = some c).card

theorem exists_pawn_of_pawnCount_pos {c : Color} (h : 0 < pawnCount board c) :
    ∃ s : Square, board.get s.index = some c := by
  obtain ⟨i, hi⟩ := Finset.card_pos.1 h
  exact ⟨⟨i⟩, by simpa using hi⟩

end Mailbox

namespace Position

variable {p : Position} {m : Move}

/-- A move takes one pawn of each side off its square at most: the one that moves and the one it captures. -/
theorem pawnCount_le_advance (h : p.cell m.source = some p.side) (c : Color) :
    Mailbox.pawnCount p.board c ≤ Mailbox.pawnCount (p.advance m).board c + 1 := by
  have hkeep : ∀ s, p.cell s = some c → s ≠ (if c = p.side then m.source else m.target) →
      (p.advance m).cell s = some c := by
    intro s hs hne
    rw [cell_advance]
    by_cases hc : c = p.side
    · rw [if_pos hc] at hne
      rw [if_neg hne, hs, hc, ite_self]
    · rw [if_neg hc] at hne
      have hsource : s ≠ m.source := by
        rintro rfl
        exact hc (Option.some.inj (hs.symm.trans h))
      rw [if_neg hne, if_neg hsource, hs]
  refine le_trans (Finset.card_le_card fun i hi => ?_)
    (Finset.card_insert_le (if c = p.side then m.source else m.target).index _)
  rw [Finset.mem_filter] at hi
  rw [Finset.mem_insert, Finset.mem_filter]
  by_cases hgone : (⟨i⟩ : Square) = if c = p.side then m.source else m.target
  · exact .inl (congrArg Square.index hgone)
  · exact .inr ⟨Finset.mem_univ i, hkeep ⟨i⟩ hi.2 hgone⟩

/-! ## The pace of a game -/

theorem Game.line (h : Game p) : ∃ keys, Line (startWith keys) p := by
  induction h with
  | start keys => exact ⟨keys, .base⟩
  | @step p m hp hm ih =>
    obtain ⟨keys, hline⟩ := ih
    exact ⟨keys, hline.step (hp.accepts hm)⟩

theorem Game.ply_eq (h : Game p) : p.ply = p.depth := by
  obtain ⟨keys, hline⟩ := h.line
  exact hline.ply_eq rfl

/-- The sides take turns. -/
theorem Line.side_eq_of_start {keys : KeyTable} (h : Line (startWith keys) p) :
    p.side = if p.ply % 2 = 0 then .white else .black := by
  rw [h.ply_eq rfl]
  exact h.side_eq rfl

/-- The side to move has one more turn, the other one none. -/
theorem Line.turns_advance {keys : KeyTable} (h : Line (startWith keys) p) (m : Move) (c : Color) :
    c.turns (p.advance m).ply = c.turns p.ply + if c = p.side then 1 else 0 := by
  rw [ply_advance, h.side_eq_of_start]
  cases c <;> split <;> simp only [Color.turns, reduceCtorEq, if_true, if_false] <;> omega

theorem Game.turns_advance (h : Game p) (m : Move) :
    p.side.turns (p.advance m).ply = p.side.turns p.ply + 1 ∧
      p.side.opponent.turns (p.advance m).ply = p.side.opponent.turns p.ply := by
  obtain ⟨keys, hline⟩ := h.line
  rw [hline.turns_advance, hline.turns_advance, if_pos rfl, if_neg p.side.opponent_ne]
  exact ⟨rfl, rfl⟩

/-- What a game has done after `p.ply` moves: every pawn has gone one row at most for each turn of its side,
and every side has lost one pawn at most for each move. -/
theorem Game.pace (h : Game p) :
    (∀ c s, p.cell s = some c → 6 ≤ c.rowsLeft s.row + c.turns p.ply) ∧
      ∀ c, 16 ≤ Mailbox.pawnCount p.board c + p.ply := by
  induction h with
  | start keys =>
    have hrows : ∀ (c : Color) (i : Fin 64), startBoard.get i = some c →
        6 ≤ c.rowsLeft (Square.mk i).row := by
      intro c
      cases c <;> decide +kernel
    have hcount : ∀ c, Mailbox.pawnCount startBoard c = 16 := by
      intro c
      cases c <;> decide +kernel
    refine ⟨fun c s hs => le_trans (hrows c s.index hs) (Nat.le_add_right _ _), fun c => ?_⟩
    exact le_trans (hcount c).ge (Nat.le_add_right _ _)
  | @step p m hp hm ih =>
    obtain ⟨hrows, hcount⟩ := ih
    have hstep := (hp.consistent.mem_moves m).1 ((hp.consistent.isLegal_iff m).1 hm).2
    obtain ⟨hown, hother⟩ := hp.turns_advance m
    refine ⟨fun c s hs => ?_, fun c => ?_⟩
    · rw [cell_advance] at hs
      split at hs
      · -- the pawn that moved
        rename_i htarget
        subst htarget
        cases hs
        have hbefore := hrows p.side m.source hstep.source
        rw [hstep.rowsLeft_eq] at hbefore
        omega
      · split at hs
        · cases hs
        · exact le_trans (hrows c s hs) (Nat.add_le_add_left (c.turns_le_succ _) _)
    · have hlost := pawnCount_le_advance (c := c) hstep.source
      rw [ply_advance]
      have := hcount c
      omega

/-- **No game is lost before its eleventh move.** -/
theorem Game.ply_of_isLost (h : Game p) (hlost : p.isLost = true) : 11 ≤ p.ply := by
  by_contra hearly
  obtain ⟨hrows, hcount⟩ := h.pace
  -- nobody has arrived yet
  have hgoal : ∀ c s, p.cell s = some c → s.row ≠ c.goalRow := by
    intro c s hs harrived
    have hfar := hrows c s hs
    have hturns := c.turns_lt_six (n := p.ply) (by omega)
    rw [(c.rowsLeft_eq_zero s.row).2 harrived] at hfar
    omega
  rcases h.consistent.isLost_iff.1 hlost with ⟨s, hrow, hs⟩ | hmoves
  · refine hgoal _ s hs ?_
    rw [hrow, Color.goalRow, Color.opponent_opponent]
  · have hsome : 0 < Mailbox.pawnCount p.board p.side := by
      have := hcount p.side
      omega
    have hpawn := Mailbox.exists_pawn_of_pawnCount_pos hsome
    obtain ⟨m, hm⟩ := Mailbox.exists_step hpawn (hgoal p.side)
    have hmem := (h.consistent.mem_moves m).2 hm
    rw [hmoves] at hmem
    cases hmem

/-! ## Every game -/

/-- Whether moves are legal when they are played one after the other. -/
def isLegalLine (p : Position) : List Move → Bool
  | [] => true
  | m :: moves => p.isLegal m && (p.advance m).isLegalLine moves

theorem isLegalLine_append (p : Position) (before after : List Move) :
    p.isLegalLine (before ++ after) = (p.isLegalLine before && (before.foldl advance p).isLegalLine after) := by
  induction before generalizing p with
  | nil => rfl
  | cons m before ih => rw [List.cons_append, isLegalLine, isLegalLine, ih, Bool.and_assoc, List.foldl_cons]

theorem moves_foldl_advance (p : Position) (moves : List Move) :
    (moves.foldl advance p).history.moves = p.history.moves ++ moves := by
  induction moves generalizing p with
  | nil => exact (List.append_nil _).symm
  | cons m moves ih => rw [List.foldl_cons, ih, moves_advance, List.append_assoc, List.singleton_append]

theorem Game.foldl_advance (h : Game p) {moves : List Move} (hmoves : p.isLegalLine moves = true) :
    Game (moves.foldl advance p) := by
  induction moves generalizing p with
  | nil => exact h
  | cons m moves ih =>
    rw [isLegalLine, Bool.and_eq_true] at hmoves
    exact ih (h.step hmoves.1) hmoves.2

theorem ply_foldl_advance (p : Position) (moves : List Move) :
    (moves.foldl advance p).ply = p.ply + moves.length := by
  induction moves generalizing p with
  | nil => rfl
  | cons m moves ih => rw [List.foldl_cons, ih, ply_advance, List.length_cons, Nat.add_right_comm]; rfl

theorem Game.play_eq (h : Game p) (hm : p.isLegal m = true) : p.play m = .ok (p.advance m) := by
  rw [play, (refusal?_eq_none_iff p m).2 (h.accepts hm)]

theorem Game.foldlM_play (h : Game p) {moves : List Move} (hmoves : p.isLegalLine moves = true) :
    moves.foldlM play p = .ok (moves.foldl advance p) := by
  induction moves generalizing p with
  | nil => rfl
  | cons m moves ih =>
    rw [isLegalLine, Bool.and_eq_true] at hmoves
    rw [List.foldlM_cons, h.play_eq hmoves.1]
    exact ih (h.step hmoves.1) hmoves.2

/-- **Games are finite and fit into the history.** Legal moves from the start layout can be played one after the
other. At any time the moves played and the rows left to go come to 208 at most, and nobody has lost before
the eleventh move. Every further legal move can be played, too, and a random playout that begins with it ends
with a winner, whatever the random stream is. -/
theorem legalLine_bounded {σ : Type} [RandomSource σ] (keys : KeyTable) (moves : List Move)
    (h : (startWith keys).isLegalLine moves = true) :
    ∃ p, moves.foldlM play (startWith keys) = .ok p ∧
      p.ply = moves.length ∧ p.ply ≤ 208 ∧ p.ply + p.distance ≤ 208 ∧
      (p.isLost = true → 11 ≤ p.ply) ∧
      ∀ m, p.isLegal m = true →
        p.play m = .ok (p.advance m) ∧ ∀ g : σ, ∃ winner, (playout p m g).1 = .ok winner := by
  have hgame := (Game.start keys).foldl_advance h
  have hbound := hgame.consistent_and_depth_le.2
  rw [← hgame.ply_eq] at hbound
  refine ⟨_, (Game.start keys).foldlM_play h, ?_, by omega, hbound, hgame.ply_of_isLost, ?_⟩
  · rw [ply_foldl_advance]
    exact Nat.zero_add _
  · exact fun m hm => ⟨hgame.play_eq hm, fun g => playout_of_game hgame hm g⟩

/-- A shortest game: White's pawn on the edge walks up and captures its way to the last row, while Black moves
elsewhere. -/
theorem legalLine_bounded_shortest :
    let moves : List Move := [⟨⟨8⟩, ⟨16⟩⟩, ⟨⟨55⟩, ⟨47⟩⟩, ⟨⟨16⟩, ⟨24⟩⟩, ⟨⟨47⟩, ⟨39⟩⟩, ⟨⟨24⟩, ⟨32⟩⟩, ⟨⟨39⟩, ⟨31⟩⟩,
      ⟨⟨32⟩, ⟨40⟩⟩, ⟨⟨31⟩, ⟨23⟩⟩, ⟨⟨40⟩, ⟨49⟩⟩, ⟨⟨54⟩, ⟨46⟩⟩, ⟨⟨49⟩, ⟨56⟩⟩]
    start.isLegalLine moves = true ∧ (moves.foldl advance start).isLost = true ∧
      ∃ p, moves.foldlM play start = .ok p ∧ p.ply = 11 ∧ p.ply + p.distance ≤ 208 := by
  intro moves
  have hlegal : start.isLegalLine moves = true := by decide +kernel
  obtain ⟨p, hplay, hply, _, hbound, _⟩ := legalLine_bounded (σ := ChaCha) .shared moves hlegal
  exact ⟨hlegal, by decide +kernel, p, hplay, hply, hbound⟩

/-! ## Every run from the start -/

theorem baseAfter_startWith (keys : KeyTable) (calls : List Call) :
    (startWith keys).baseAfter calls = startWith keys := by
  induction calls with
  | nil => rfl
  | cons c calls ih => cases c <;> exact ih

/-- Nobody moves while the opponent stands on the home row. So a side that has arrived does not come to move. -/
theorem Line.row_ne_goalRow {keys : KeyTable} (h : Line (startWith keys) p) {s : Square}
    (hs : p.cell s = some p.side) : s.row ≠ p.side.goalRow := by
  cases h with
  | base =>
    have hstart : ∀ i : Fin 64, startBoard.get i = some .white →
        (Square.mk i).row ≠ Color.goalRow .white := by
      decide +kernel
    exact hstart s.index hs
  | @step q m hq hm =>
    intro hrow
    have hlost : q.isLost = true := by
      rw [cell_advance, side_advance] at hs
      split at hs
      · exact absurd (Option.some.inj hs).symm q.side.opponent_ne
      · split at hs
        · cases hs
        · refine (hq.consistent (consistent_ofBoard _ _ _)).isLost_iff.2 (.inl ⟨s, ?_, hs⟩)
          rw [hrow, side_advance, Color.goalRow, Color.opponent_opponent]
    rw [hm.notLost] at hlost
    cases hlost

/-- So the pawns of a side cannot all be blocked when it comes to move. -/
theorem Line.moves_eq_nil_iff {keys : KeyTable} (h : Line (startWith keys) p) :
    p.moves = [] ↔ ∀ s, p.cell s ≠ some p.side := by
  have hcons : p.Consistent := h.consistent (consistent_ofBoard _ _ _)
  constructor
  · intro hnone s hs
    obtain ⟨m, hm⟩ := Mailbox.exists_step ⟨s, hs⟩ fun _ => h.row_ne_goalRow
    have hmem := (hcons.mem_moves m).2 hm
    rw [hnone] at hmem
    cases hmem
  · intro hnone
    refine List.eq_nil_iff_forall_not_mem.2 fun m hm => ?_
    exact hnone m.source ((hcons.mem_moves m).1 hm).source

theorem Consistent.exists_isLegal_iff (h : p.Consistent) : (∃ m, p.isLegal m = true) ↔ ¬ p.isLost = true := by
  simp only [← h.mem_legalMoves, ← h.legalMoves_eq_nil, List.eq_nil_iff_forall_not_mem, not_forall, not_not]

/-- **Nobody is ever stalemated.** Whatever is called on a position from the start layout, with any moves that it
accepts, the side to move has not arrived on its goal row. It has lost exactly when the opponent stands on its
home row or it has no pawn left, and in all other cases it has a legal move. -/
theorem run_never_stalemates (keys : KeyTable) (calls : List Call) :
    let p := (startWith keys).run calls
    (∀ s, p.cell s = some p.side → s.row ≠ p.side.goalRow) ∧
    (p.isLost = true ↔
      (∃ s, s.row = p.side.homeRow ∧ p.cell s = some p.side.opponent) ∨ ∀ s, p.cell s ≠ some p.side) ∧
    ((∃ m, p.isLegal m = true) ↔
      (∃ s, p.cell s = some p.side) ∧ ∀ s, s.row = p.side.homeRow → p.cell s ≠ some p.side.opponent) := by
  intro p
  have hline : Line (startWith keys) p := by
    have hrun := (Origin.start keys).line_run calls
    rwa [baseAfter_startWith] at hrun
  have hcons : p.Consistent := hline.consistent (consistent_ofBoard _ _ _)
  have hlost := hcons.isLost_iff
  rw [hline.moves_eq_nil_iff] at hlost
  refine ⟨fun _ => hline.row_ne_goalRow, hlost, ?_⟩
  rw [hcons.exists_isLegal_iff, hlost]
  push Not
  exact and_comm

/-- What no run leads to can be set up: White has arrived, it is White's turn and nothing can move. -/
example :
    let p := ofBoard (.ofFn fun i => if i = 56 then some .white else if i = 55 then some .black else none)
      .white .shared
    p.isLost = true ∧ p.intruders.isEmpty = true ∧ p.pawns .white ≠ .empty := by
  decide +kernel

end Position

end Breakthrough
