import Breakthrough.Proofs.Consistency

/-!
# The rules on the bare board

The rules of the game written for a board of cells: what a pawn can enter, square by square, with
coordinates instead of words. On consistent positions the moves that the sets generate are exactly
these, in the same order (`moves_eq_mailbox`), and the tests for a lost position and for a legal move
agree with them. So both depend on the board and the side to move only.
-/

namespace Breakthrough

/-! ## Steps of a pawn -/

namespace Square

/-- The square one step away, if it is on the board. -/
def step? (s : Square) (d : Direction) : Option Square :=
  let column := s.column.val + d.columnStep
  let row := s.row.val + d.rowStep
  if h : (0 ≤ column ∧ column < 8) ∧ 0 ≤ row ∧ row < 8 then
    some (of ⟨column.toNat, by omega⟩ ⟨row.toNat, by omega⟩)
  else none

theorem eq_of_column_row {s t : Square} (hc : s.column = t.column) (hr : s.row = t.row) : s = t := by
  rw [← of_column_row s, ← of_column_row t, hc, hr]

theorem step?_eq_some_iff (s t : Square) (d : Direction) : s.step? d = some t ↔ d.Leads s t := by
  have htc := t.column.isLt
  have htr := t.row.isLt
  simp only [step?, Direction.Leads]
  split
  · rename_i h
    simp only [Option.some.injEq]
    constructor
    · rintro rfl
      rw [column_of, row_of]
      simp only [Int.toNat_of_nonneg h.1.1, Int.toNat_of_nonneg h.2.1, and_self]
    · rintro ⟨hc, hr⟩
      apply eq_of_column_row
      · rw [column_of]; apply Fin.ext; simp only; omega
      · rw [row_of]; apply Fin.ext; simp only; omega
  · rename_i h
    simp only [reduceCtorEq, false_iff]
    rintro ⟨hc, hr⟩
    exact h (by omega)

end Square

namespace Color

/-- The direction straight ahead. -/
def ahead : Color → Direction
  | white => .up
  | black => .down

/-- The diagonal ahead towards column a. -/
def aheadLeft : Color → Direction
  | white => .upLeft
  | black => .downLeft

/-- The diagonal ahead towards column h. -/
def aheadRight : Color → Direction
  | white => .upRight
  | black => .downRight

end Color

namespace Mailbox

/-- The squares that the pawn on `s` can enter: straight ahead if empty, diagonally ahead if not
occupied by its own side. -/
def targetsFrom (board : Vector Cell 64) (side : Color) (s : Square) : List Square :=
  (s.step? side.ahead).toList.filter (fun t => board.get t.index = none)
    ++ ((s.step? side.aheadLeft).toList ++ (s.step? side.aheadRight).toList).filter
      (fun t => board.get t.index ≠ some side)

/-- The moves of a side, its pawns taken in the order of the squares. -/
def moves (board : Vector Cell 64) (side : Color) : List Move :=
  (Square.all.filter fun s => board.get s.index = some side).flatMap fun s =>
    (targetsFrom board side s).map (Move.mk s)

/-- A side to move has lost when the opponent stands on its home row or when it has no move. -/
def isLost (board : Vector Cell 64) (side : Color) : Bool :=
  Square.all.any (fun s => s.row = side.homeRow ∧ board.get s.index = some side.opponent)
    || (moves board side).isEmpty

/-- A move of `side` that follows the rules. -/
structure Step (board : Vector Cell 64) (side : Color) (m : Move) : Prop where
  source : board.get m.source.index = some side
  way : (side.ahead.Leads m.source m.target ∧ board.get m.target.index = none) ∨
    ((side.aheadLeft.Leads m.source m.target ∨ side.aheadRight.Leads m.source m.target) ∧
      board.get m.target.index ≠ some side)

theorem Step.target_ne {board : Vector Cell 64} {side : Color} {m : Move} (h : Step board side m) :
    board.get m.target.index ≠ some side := by
  rcases h.way with ⟨_, ht⟩ | ⟨_, ht⟩
  · rw [ht]; simp
  · exact ht

theorem Step.target_eq_none {board : Vector Cell 64} {side : Color} {m : Move} (h : Step board side m)
    (hstraight : m.isStraight = true) : board.get m.target.index = none := by
  rcases h.way with ⟨_, ht⟩ | ⟨hd, _⟩
  · exact ht
  · -- a diagonal step changes the column
    exfalso
    have hcol : m.source.column = m.target.column := by simpa [Move.isStraight] using hstraight
    rcases hd with hd | hd
    all_goals
      have hstep := hd.1
      rw [hcol] at hstep
      cases side <;>
        simp only [Color.aheadLeft, Color.aheadRight, Direction.columnStep] at hstep <;> omega

theorem mem_targetsFrom (board : Vector Cell 64) (side : Color) (s t : Square) :
    t ∈ targetsFrom board side s ↔
      (side.ahead.Leads s t ∧ board.get t.index = none) ∨
        ((side.aheadLeft.Leads s t ∨ side.aheadRight.Leads s t) ∧ board.get t.index ≠ some side) := by
  simp only [targetsFrom, List.mem_append, List.mem_filter, Option.mem_toList,
    Square.step?_eq_some_iff, decide_eq_true_eq]

theorem mem_moves (board : Vector Cell 64) (side : Color) (m : Move) :
    m ∈ moves board side ↔ Step board side m := by
  simp only [moves, List.mem_flatMap, List.mem_filter, List.mem_map, mem_targetsFrom,
    decide_eq_true_eq]
  constructor
  · rintro ⟨s, ⟨_, hs⟩, t, ht, rfl⟩
    exact ⟨hs, ht⟩
  · rintro ⟨hs, hway⟩
    exact ⟨m.source, ⟨Square.mem_all _, hs⟩, m.target, hway, rfl⟩

theorem nodup_targetsFrom (board : Vector Cell 64) (side : Color) (s : Square) :
    (targetsFrom board side s).Nodup := by
  have hsteps : ∀ (c : Color) (i : Fin 64), ((Square.step? ⟨i⟩ c.ahead).toList ++
      ((Square.step? ⟨i⟩ c.aheadLeft).toList ++ (Square.step? ⟨i⟩ c.aheadRight).toList)).Nodup := by
    intro c
    cases c <;> decide +kernel
  have hsub : (targetsFrom board side s).Sublist ((s.step? side.ahead).toList ++
      ((s.step? side.aheadLeft).toList ++ (s.step? side.aheadRight).toList)) :=
    List.filter_sublist.append List.filter_sublist
  exact hsub.nodup (hsteps side s.index)

theorem nodup_moves (board : Vector Cell 64) (side : Color) : (moves board side).Nodup := by
  rw [moves, List.nodup_flatMap]
  refine ⟨fun s _ => ?_, ?_⟩
  · exact (nodup_targetsFrom board side s).map fun t u h => congrArg Move.target h
  · refine (Square.nodup_all.filter _).imp fun {s t} hst => ?_
    simp only [Function.onFun, List.disjoint_left, List.mem_map]
    rintro m ⟨u, _, rfl⟩ ⟨v, _, hv⟩
    exact hst (congrArg Move.source hv).symm

end Mailbox

/-! ## The sets follow the rules -/

namespace Bitboard

theorem squares_forward_single (c : Color) (s : Square) :
    ((single s).forward c).squares = (s.step? c.ahead).toList := by
  have h : ∀ i : Fin 64, ((single ⟨i⟩).forward c).squares = (Square.step? ⟨i⟩ c.ahead).toList := by
    cases c <;> decide +kernel
  exact h s.index

/-- The diagonals come in ascending order, which is from left to right for both sides. -/
theorem squares_attacks_single (c : Color) (s : Square) :
    ((single s).attacks c).squares =
      (s.step? c.aheadLeft).toList ++ (s.step? c.aheadRight).toList := by
  have h : ∀ i : Fin 64, ((single ⟨i⟩).attacks c).squares =
      (Square.step? ⟨i⟩ c.aheadLeft).toList ++ (Square.step? ⟨i⟩ c.aheadRight).toList := by
    cases c <;> decide +kernel
  exact h s.index

theorem contains_forward (b : Bitboard) (c : Color) (t : Square) :
    (b.forward c).contains t = true ↔ ∃ s, b.contains s = true ∧ c.ahead.Leads s t := by
  cases c <;> exact contains_shift _ _ _

theorem contains_attacks (b : Bitboard) (c : Color) (t : Square) :
    (b.attacks c).contains t = true ↔
      ∃ s, b.contains s = true ∧ (c.aheadLeft.Leads s t ∨ c.aheadRight.Leads s t) := by
  cases c
  all_goals
    simp only [attacks, contains_or, Bool.or_eq_true, contains_shift, ← exists_or, ← and_or_left,
      Color.aheadLeft, Color.aheadRight]

end Bitboard

namespace Position

variable {p q : Position}

theorem Consistent.movesFrom_eq (hp : p.Consistent) (s : Square) :
    p.movesFrom s = (Mailbox.targetsFrom p.board p.side s).map (Move.mk s) := by
  have hvacant : ∀ t, p.vacant.contains t = decide (p.board.get t.index = none) := fun t => by
    rw [Bool.eq_iff_iff, hp.contains_vacant, decide_eq_true_iff]; rfl
  have hown : ∀ t, (~~~p.pawns p.side).contains t = decide (p.board.get t.index ≠ some p.side) :=
    fun t => by rw [Bitboard.contains_not, hp.pawns, decide_not]; rfl
  have hahead : ((Bitboard.single s).forward p.side &&& p.vacant).squares =
      (s.step? p.side.ahead).toList.filter fun t => p.board.get t.index = none := by
    rw [Bitboard.squares_and, Bitboard.squares_forward_single, funext hvacant]
  -- there is one square ahead at most, so the lowest one is all of them
  have hlowest : ((Bitboard.single s).forward p.side &&& p.vacant).lowest?.toList =
      (s.step? p.side.ahead).toList.filter fun t => p.board.get t.index = none := by
    rw [← Bitboard.head?_squares, hahead]
    cases s.step? p.side.ahead with
    | none => rfl
    | some t => by_cases ht : p.board.get t.index = none <;> simp [ht]
  simp only [movesFrom, hlowest, Bitboard.squares_and, Bitboard.squares_attacks_single,
    Mailbox.targetsFrom, funext hown]

/-- The sets generate the moves of the rules, in the order of the squares. -/
theorem Consistent.moves_eq_mailbox (hp : p.Consistent) :
    p.moves = Mailbox.moves p.board p.side := by
  have hsources : (p.pawns p.side).squares =
      Square.all.filter fun s => p.board.get s.index = some p.side := by
    rw [Bitboard.squares_eq_filter]
    apply List.filter_congr
    intro s _
    exact hp.pawns p.side s
  rw [moves_eq, hsources, Mailbox.moves]
  apply List.flatMap_congr
  intro s _
  exact hp.movesFrom_eq s

theorem Consistent.mem_moves (hp : p.Consistent) (m : Move) :
    m ∈ p.moves ↔ Mailbox.Step p.board p.side m := by
  rw [hp.moves_eq_mailbox, Mailbox.mem_moves]

theorem Consistent.nodup_moves (hp : p.Consistent) : p.moves.Nodup := by
  rw [hp.moves_eq_mailbox]
  exact Mailbox.nodup_moves _ _

/-- The test on whole sets finds a pawn that can move exactly when there is a move. -/
theorem Consistent.canMove_iff (hp : p.Consistent) : p.canMove = true ↔ p.moves ≠ [] := by
  have hmem : p.canMove = true ↔ ∃ m, Mailbox.Step p.board p.side m := by
    simp only [canMove, Bool.or_eq_true, Bitboard.isNonempty_iff, Bitboard.contains_and,
      Bool.and_eq_true, Bitboard.contains_forward, Bitboard.contains_attacks,
      Bitboard.contains_not, hp.contains_vacant, hp.pawns, decide_eq_true_eq, Bool.not_eq_true',
      decide_eq_false_iff_not]
    constructor
    · rintro (⟨t, ⟨s, hs, hst⟩, ht⟩ | ⟨t, ⟨s, hs, hst⟩, ht⟩)
      · exact ⟨⟨s, t⟩, hs, Or.inl ⟨hst, ht⟩⟩
      · exact ⟨⟨s, t⟩, hs, Or.inr ⟨hst, ht⟩⟩
    · rintro ⟨m, hs, ⟨hst, ht⟩ | ⟨hst, ht⟩⟩
      · exact Or.inl ⟨m.target, ⟨m.source, hs, hst⟩, ht⟩
      · exact Or.inr ⟨m.target, ⟨m.source, hs, hst⟩, ht⟩
  simp only [hmem, ← hp.mem_moves]
  constructor
  · rintro ⟨m, hm⟩; exact List.ne_nil_of_mem hm
  · intro h; exact List.exists_mem_of_ne_nil _ h

theorem Consistent.isLost_eq_mailbox (hp : p.Consistent) :
    p.isLost = Mailbox.isLost p.board p.side := by
  have hintruders : p.intruders.isNonempty =
      Square.all.any fun s => s.row = p.side.homeRow ∧ p.board.get s.index = some p.side.opponent := by
    rw [Bool.eq_iff_iff, Bitboard.isNonempty_iff, List.any_eq_true]
    simp only [intruders, Bitboard.contains_and, Bitboard.contains_row, hp.pawns, Bool.and_eq_true,
      decide_eq_true_eq]
    constructor
    · rintro ⟨s, hs, hr⟩; exact ⟨s, Square.mem_all s, hr, hs⟩
    · rintro ⟨s, _, hr, hs⟩; exact ⟨s, hs, hr⟩
  have hmoves : (!p.canMove) = (Mailbox.moves p.board p.side).isEmpty := by
    rw [← hp.moves_eq_mailbox, Bool.eq_iff_iff, List.isEmpty_iff, Bool.not_eq_true',
      ← Bool.not_eq_true, hp.canMove_iff, not_not]
  rw [isLost, hintruders, hmoves, Mailbox.isLost]

theorem Consistent.isLegal_iff (hp : p.Consistent) (m : Move) :
    p.isLegal m = true ↔ p.isLost = false ∧ m ∈ p.moves := by
  have htargets : (p.targets (.single m.source)).contains m.target = true ↔
      (p.side.ahead.Leads m.source m.target ∧ p.cell m.target = none) ∨
        ((p.side.aheadLeft.Leads m.source m.target ∨ p.side.aheadRight.Leads m.source m.target) ∧
          p.cell m.target ≠ some p.side) := by
    simp only [targets, Bitboard.contains_or, Bitboard.contains_and, Bool.or_eq_true,
      Bool.and_eq_true, Bitboard.contains_forward, Bitboard.contains_attacks,
      Bitboard.contains_single, Bitboard.contains_not, hp.contains_vacant, hp.pawns,
      decide_eq_true_eq, exists_eq_left', Bool.not_eq_true', decide_eq_false_iff_not]
  rw [hp.mem_moves, isLegal, Bool.and_eq_true, Bool.and_eq_true, htargets]
  simp only [beq_iff_eq, Bool.not_eq_true']
  constructor
  · rintro ⟨⟨hs, hl⟩, hway⟩; exact ⟨hl, hs, hway⟩
  · rintro ⟨hl, hs, hway⟩; exact ⟨⟨hs, hl⟩, hway⟩

/-- A generated move is accepted while the game goes on and the history has room. -/
theorem Consistent.accepts (hp : p.Consistent) {m : Move} (hlost : p.isLost = false)
    (hm : m ∈ p.moves) (hroom : p.depth < maxPly) : p.Accepts m := by
  have hstep := (hp.mem_moves m).1 hm
  exact ⟨hlost, hstep.source, hstep.target_ne, hstep.target_eq_none, hroom⟩

/-- In a full history it is refused for want of room and for nothing else. -/
theorem Consistent.refusal?_of_full (hp : p.Consistent) {m : Move} (hlost : p.isLost = false)
    (hm : m ∈ p.moves) (hfull : maxPly ≤ p.depth) : p.refusal? m = some (.plyLimit maxPly) := by
  have hstep := (hp.mem_moves m).1 hm
  have hsource : p.cell m.source = some p.side := hstep.source
  have htarget : p.cell m.target ≠ some p.side := hstep.target_ne
  have hstraight : (p.cell m.target != none && m.isStraight) = false := by
    cases hs : m.isStraight with
    | false => simp
    | true => simp [cell, hstep.target_eq_none hs]
  simp [refusal?, hlost, hsource, htarget, hstraight, hfull]

/-- The legal moves: all generated ones, but none in a lost position. -/
def legalMoves (p : Position) : List Move := if p.isLost then [] else p.moves

theorem Consistent.mem_legalMoves (hp : p.Consistent) (m : Move) :
    m ∈ p.legalMoves ↔ p.isLegal m = true := by
  rw [hp.isLegal_iff, legalMoves]
  cases p.isLost <;> simp

theorem Consistent.nodup_legalMoves (hp : p.Consistent) : p.legalMoves.Nodup := by
  rw [legalMoves]
  split
  · exact List.nodup_nil
  · exact hp.nodup_moves

/-- A position is lost exactly when it has no legal move. -/
theorem Consistent.legalMoves_eq_nil (hp : p.Consistent) : p.legalMoves = [] ↔ p.isLost = true := by
  rw [legalMoves]
  split
  · rename_i hlost; simp [hlost]
  · rename_i hlost
    have hmove : p.canMove = true := by
      rw [isLost, Bool.or_eq_true, not_or, Bool.not_eq_true', Bool.not_eq_false] at hlost
      exact hlost.2
    simp [hlost, hp.canMove_iff.1 hmove]

theorem Consistent.isLost_iff (hp : p.Consistent) :
    p.isLost = true ↔
      (∃ s : Square, s.row = p.side.homeRow ∧ p.cell s = some p.side.opponent) ∨ p.moves = [] := by
  rw [hp.isLost_eq_mailbox, hp.moves_eq_mailbox, Mailbox.isLost, Bool.or_eq_true, List.any_eq_true,
    List.isEmpty_iff]
  simp only [Square.mem_all, true_and, decide_eq_true_eq, cell]

/-! ## Every run -/

/-- **The sets follow the rules on every position that calls lead to.** The moves are those of the bare
board in the order of its squares, whatever the buffer held that they are put into, and none comes
twice. A position is lost when the opponent stands on the home row or there is no move; a move is
legal when it is one of them and the position is not lost, and then it can be played as long as the
history has room. -/
theorem run_follows_rules {b : Position} (hb : Origin b) (calls : List Call) :
    let p := b.run calls
    p.moves = Mailbox.moves p.board p.side ∧
    (∀ buffer, (p.fillMoves buffer).toList = Mailbox.moves p.board p.side) ∧
    p.moves.Nodup ∧
    (p.isLost = true ↔
      (∃ s : Square, s.row = p.side.homeRow ∧ p.cell s = some p.side.opponent) ∨ p.moves = []) ∧
    (∀ m, p.isLegal m = true ↔ p.isLost = false ∧ m ∈ p.moves) ∧
    ∀ m, p.isLegal m = true → p.depth < 256 → p.play m = .ok (p.advance m) := by
  intro p
  have hp : p.Consistent := hb.consistent_run calls
  refine ⟨hp.moves_eq_mailbox, fun buffer => ?_, hp.nodup_moves, hp.isLost_iff, hp.isLegal_iff, ?_⟩
  · rw [fillMoves_eq, hp.moves_eq_mailbox]
  · intro m hm hroom
    obtain ⟨hlost, hmem⟩ := (hp.isLegal_iff m).1 hm
    rw [play, (refusal?_eq_none_iff p m).2 (hp.accepts hlost hmem hroom)]

/-- Black to move after one move on a diagram with pawns at both edges, two of which are blocked, and a
buffer that was used before. -/
theorem run_follows_rules_blocked :
    let text := "........\n........\n........\nB......B\nWB.W...W\n..W.B.W.\n........\n........\n"
    ∃ b, ofDiagram text .white = .ok b ∧
      ((b.run [.play ⟨⟨27⟩, ⟨35⟩⟩]).fillMoves #[⟨⟨27⟩, ⟨35⟩⟩]).toList =
        [⟨⟨20⟩, ⟨12⟩⟩, ⟨⟨20⟩, ⟨11⟩⟩, ⟨⟨20⟩, ⟨13⟩⟩, ⟨⟨25⟩, ⟨17⟩⟩, ⟨⟨25⟩, ⟨16⟩⟩, ⟨⟨25⟩, ⟨18⟩⟩, ⟨⟨39⟩, ⟨30⟩⟩] := by
  intro text
  have hrows : (diagramRows text).length = 8 ∧ unevenRow? (diagramRows text) = none := by
    decide +kernel
  have hb : ofDiagram text .white = .ok (ofBoard (boardOfRows (diagramRows text)) .white .shared) := by
    simp only [ofDiagram, hrows, ne_eq, not_true, if_false]
  refine ⟨_, hb, ?_⟩
  rw [(run_follows_rules (.diagram hb) _).2.1]
  decide +kernel

end Position

end Breakthrough
