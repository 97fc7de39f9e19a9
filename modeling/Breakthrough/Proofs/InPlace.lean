import Breakthrough.Position.InPlace

/-!
# Changes in place are changes of values

Playing and taking back change a position step by step (`InPlace`), and a refusal in the middle would leave it
half changed. It does not come to that: whether a move is played or refused, the steps end with the position
that `advance` gives or with the one they began with (`on_play`), and so it is with moves that are taken back.
-/

namespace Breakthrough.Position.InPlace

variable {β γ : Type}

/-! ## Single steps -/

/-- Goes on with the answer of earlier steps, unless they were refused. -/
def andThen (k : γ → InPlace β) : Except Error γ × Position → Except Error β × Position
  | (.ok c, p) => (k c).on p
  | (.error e, p) => (.error e, p)

theorem on_bind (x : InPlace γ) (k : γ → InPlace β) (p : Position) : (x >>= k).on p = andThen k (x.on p) := by
  change (ExceptT.bindCont (m := StateM Position) k (x p).1) (x p).2 = andThen k (x p)
  rcases x p with ⟨_ | _, _⟩ <;> rfl

theorem on_get_bind (k : Position → InPlace β) (p : Position) : (get >>= k).on p = (k p).on p := rfl

theorem on_check_bind (condition : Bool) (e : Error) (k : Unit → InPlace β) (p : Position) :
    (check condition e >>= k).on p = if condition then (k ()).on p else (.error e, p) := by
  cases condition <;> rfl

/-- A full history refuses a delta, and nothing has changed by then. -/
theorem on_pushDelta_bind (d : Delta) (k : Unit → InPlace β) (p : Position) :
    (pushDelta d >>= k).on p =
      if p.depth < maxPly then (k ()).on { p with history := p.history.add d }
      else (.error (.plyLimit maxPly), p) := by
  have hstep : (pushDelta d >>= k).on p = andThen k (andThen
      (fun history => modify fun p => { p with history }) (p.history.push d, p)) := by
    rw [on_bind, pushDelta, on_get_bind, on_bind]
    rfl
  by_cases h : p.depth < maxPly
  · have hpush : p.history.push d = .ok (p.history.add d) := if_pos h
    rw [hstep, hpush, if_pos h]
    rfl
  · have hpush : p.history.push d = .error (.plyLimit maxPly) := if_neg h
    rw [hstep, hpush, if_neg h]
    rfl

theorem on_popDelta_bind (k : Delta → InPlace β) {p : Position} (h : 0 < p.depth) :
    (popDelta >>= k).on p = (k p.history.newest).on { p with history := p.history.dropNewest } := by
  have hpop : p.history.pop = .ok (p.history.newest, p.history.dropNewest) := if_pos h
  rw [on_bind, popDelta, on_get_bind, on_bind]
  change andThen k (andThen _ (p.history.pop, p)) = _
  rw [hpop]
  rfl

/-! ## Whole moves -/

/-- A cell that is set before and after another one holds what was set last. -/
theorem set_set_set (board : Vector Cell 64) (s t : Square) (c : Cell) :
    ((board.set t.index none t.index.isLt).set s.index none s.index.isLt).set t.index c t.index.isLt =
      (board.set s.index none s.index.isLt).set t.index c t.index.isLt := by
  refine Vector.ext fun i hi => ?_
  simp only [Vector.getElem_set]
  split
  · rfl
  · split <;> simp_all

/-- Behind its checks, the steps of a move lead to the position after it. -/
theorem on_moved (p : Position) (m : Move) :
    let capture := p.cell m.target == some p.side.opponent
    (do
      if capture then removePawn p.side.opponent m.target
      movePawn p.side m.source m.target
      modify fun q => { q with ply := q.ply + 1 }
      modify fun q => { q with side := p.side.opponent } : InPlace Unit).on
        { p with history := p.history.add ⟨p.hashAfter m capture, capture, m⟩ } = (.ok (), p.advance m) := by
  intro capture
  rcases p with ⟨board, white, black, side, ply, history, keys⟩
  cases hcapture : capture with
  | false => cases side <;> simp only [advance, capture, hcapture] <;> rfl
  | true =>
    -- the captured pawn is taken off before its square is set again
    have hboard := set_set_set board m.source m.target (some side)
    cases side <;> simp only [advance, capture, hcapture, if_true, ← hboard] <;> rfl

/-- **A move is played as a whole or not at all.** -/
theorem on_play (m : Move) (p : Position) :
    (play m).on p =
      match p.refusal? m with
      | some e => (.error e, p)
      | none => (.ok (), p.advance m) := by
  rw [play, on_get_bind]
  simp only [on_check_bind, on_pushDelta_bind, on_moved, refusal?]
  by_cases hlost : p.isLost
  · simp [hlost]
  by_cases hsource : p.cell m.source = some p.side
  case neg => simp [hlost, hsource]
  by_cases htarget : p.cell m.target = some p.side
  · simp [hlost, hsource, htarget]
  by_cases hempty : p.cell m.target = none
  · by_cases hroom : p.depth < maxPly
    · simp [hlost, hsource, hempty, hroom, Nat.not_le.2 hroom]
    · simp [hlost, hsource, hempty, hroom, Nat.not_lt.1 hroom]
  · by_cases hroom : p.depth < maxPly
    · cases m.isStraight <;> simp [hlost, hsource, htarget, hempty, hroom, Nat.not_le.2 hroom]
    · cases m.isStraight <;> simp [hlost, hsource, htarget, hempty, hroom, Nat.not_lt.1 hroom]

/-- Behind its checks, the steps that take the newest move back lead to the position before it. -/
theorem on_movedBack {p : Position} {d : Delta} (hd : p.history.deltas.back? = some d) :
    (do
      modify fun q => { q with ply := q.ply - 1 }
      modify fun q => { q with side := q.side.opponent }
      let us := (← get).side
      movePawn us d.move.target d.move.source
      if d.capture then putPawn us.opponent d.move.target : InPlace Unit).on
        { p with history := p.history.dropNewest } = (.ok (), p.retract) := by
  rcases p with ⟨board, white, black, side, ply, history, keys⟩
  rcases d with ⟨key, capture, m⟩
  simp only [retract, hd]
  cases side <;> cases capture <;> rfl

/-- **A move is taken back as a whole or not at all.** -/
theorem on_takeBack (m : Move) (p : Position) :
    (takeBack m).on p =
      match p.takeBackRefusal? m with
      | some e => (.error e, p)
      | none => (.ok (), p.retract) := by
  rw [takeBack, on_get_bind]
  simp only [on_check_bind, takeBackRefusal?]
  by_cases hdepth : 0 < p.depth
  case neg => simp [Nat.eq_zero_of_not_pos hdepth]
  by_cases hnewest : p.history.newest.move = m
  case neg => simp [hdepth, hnewest, Nat.ne_of_gt hdepth]
  subst hnewest
  cases hback : p.history.deltas.back? with
  | none =>
    rw [depth, History.depth, Array.back?_eq_none_iff.1 hback] at hdepth
    cases hdepth
  | some d =>
    have hlast : p.history.newest = d := by rw [History.newest, hback, Option.getD_some]
    simp only [hdepth, Nat.ne_of_gt hdepth, hlast, on_popDelta_bind _ hdepth, on_movedBack hback, decide_true,
      beq_self_eq_true, ne_eq, not_true, if_true, if_false]

theorem on_takeBackNewest (p : Position) :
    takeBackNewest.on p =
      match p.takeBackNewest with
      | .error e => (.error e, p)
      | .ok (m, q) => (.ok m, q) := by
  rw [InPlace.takeBackNewest, on_get_bind, on_check_bind, Position.takeBackNewest, Position.takeBack]
  by_cases hdepth : 0 < p.depth
  · rw [if_pos (decide_eq_true hdepth), on_bind, on_takeBack]
    cases p.takeBackRefusal? p.history.newest.move <;> rfl
  · rw [if_neg (by simpa using hdepth), takeBackRefusal?, if_pos (Nat.eq_zero_of_not_pos hdepth)]
    rfl

/-- Moves that can be played one after the other can be played so in place. -/
theorem on_forM_play {moves : List Move} {p q : Position} (h : moves.foldlM Position.play p = .ok q) :
    (moves.forM play).on p = (.ok (), q) := by
  induction moves generalizing p with
  | nil =>
    cases h
    rfl
  | cons m moves ih =>
    rw [List.forM_eq_forM, List.forM_cons, on_bind, on_play]
    rw [List.foldlM_cons, Position.play] at h
    cases hm : p.refusal? m with
    | some e =>
      rw [hm] at h
      cases h
    | none =>
      rw [hm] at h
      exact ih h

end Breakthrough.Position.InPlace
