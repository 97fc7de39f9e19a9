import Breakthrough.Proofs.Endings

/-!
# The reward of a playout

The winner of a playout can be read off the position in which it ends. It can also be found on the way back, as
a reward for the side that has moved last, which changes sides with every move that is taken back: `rewind` walks
back like this, and `rewound` is a playout that ends so. Both ways come to the same (`rewound_eq`), whatever the
length of the game is, also when the game was cut short because the history was full.
-/

namespace Breakthrough

namespace Position

variable {p q : Position} {m : Move}

theorem depth_lt_of_takeBackNewest (h : p.takeBackNewest = .ok (m, q)) : q.depth < p.depth := by
  have hdepth : p.retract.depth = p.depth - 1 := by
    unfold retract
    split
    · rename_i hnone
      simp [depth, History.depth, Array.back?_eq_none_iff.1 hnone]
    · simp [depth, History.depth, History.dropNewest]
  unfold takeBackNewest takeBack takeBackRefusal? at h
  grind [Except.map]

end Position

open Position

variable {σ : Type} [RandomSource σ]

/-- Takes moves back until `depth` of them are left. The reward changes sides with each of them. -/
def rewind (depth : Nat) (reward : Float) (p : Position) : Except Error Float × Position :=
  if depth < p.depth then
    match _ : p.takeBackNewest with
    | .error e => (.error e, p)
    | .ok (_, q) => rewind depth (1.0 - reward) q
  else (.ok reward, p)
termination_by p.depth
decreasing_by exact depth_lt_of_takeBackNewest ‹_›

/-- A playout whose reward is found on the way back. The side that moved last has won. -/
def rewound (p : Position) (first : Move) (g : σ) : Except Error Float × Position × σ :=
  match p.play first with
  | .error e => (.error e, p, g)
  | .ok q =>
    let (outcome, q, g) := playToEnd q g
    match rewind (p.depth + 1) 1.0 q with
    | (.error e, q) => (.error e, q, g)
    | (.ok reward, q) =>
      match q.takeBack first with
      | .error e => (.error e, q, g)
      | .ok q => (outcome.map fun _ => reward, q, g)

/-- What a side gets from a playout that `winner` wins. -/
def rewardFor (side winner : Color) : Float := if winner = side then 1.0 else 0.0

/-! ## The way back -/

namespace Position

variable {b p : Position} {m : Move}

theorem takeBackNewest_advance (h : p.Accepts m) : (p.advance m).takeBackNewest = .ok (m, p) := by
  have hnewest : (p.advance m).history.newest.move = m := by rw [newest_advance]
  rw [takeBackNewest, hnewest, takeBack_advance h, if_pos rfl]
  rfl

/-- **Walking back a line never fails** and ends where the line began. The reward has changed sides as often as
the sides have taken turns. -/
theorem Line.rewind_eq (h : Line b p) (reward : Float) (hreward : reward = 0.0 ∨ reward = 1.0) :
    rewind b.depth reward p = (.ok (if p.side = b.side then reward else 1.0 - reward), b) := by
  induction h generalizing reward with
  | base =>
    rw [rewind, if_neg (Nat.lt_irrefl _), if_pos rfl]
  | @step p m hp hm ih =>
    have hdeeper : b.depth < (p.advance m).depth := by
      rw [depth_advance]
      exact Nat.lt_succ_of_le hp.depth_le_depth
    have hflip : 1.0 - reward = 0.0 ∨ 1.0 - reward = 1.0 := by
      rcases hreward with rfl | rfl
      · exact .inr rfl
      · exact .inl rfl
    have htwice : 1.0 - (1.0 - reward) = reward := by
      rcases hreward with rfl | rfl <;> rfl
    have hside : p.side = b.side ↔ ¬ (p.advance m).side = b.side := by
      rw [side_advance]
      cases p.side <;> cases b.side <;> decide
    rw [rewind, if_pos hdeeper]
    split
    · rename_i herr
      rw [takeBackNewest_advance hm] at herr
      cases herr
    · rename_i hq
      rw [takeBackNewest_advance hm] at hq
      cases hq
      rw [ih _ hflip, htwice]
      simp only [hside, ite_not]

end Position

/-- **The reward found on the way back is the winner's**, and nothing else tells the two playouts apart. -/
theorem rewound_eq (p : Position) (first : Move) (g : σ) :
    rewound p first g = ((playout p first g).1.map (rewardFor p.side), (playout p first g).2) := by
  unfold rewound playout play
  cases hfirst : p.refusal? first with
  | some e => rfl
  | none =>
    have haccepts := (refusal?_eq_none_iff p first).1 hfirst
    have hline := line_playToEnd (σ := σ) (.base (b := p.advance first)) g
    have hhome : Line p (playToEnd (p.advance first) g).2.1 :=
      line_playToEnd (.step .base haccepts) g
    have hback := hline.rewind_eq 1.0 (.inr rfl)
    rw [depth_advance, side_advance] at hback
    simp only [hback, takeBack_advance haccepts, if_true, hhome.retractTimes_eq]
    have hreward : (if (playToEnd (p.advance first) g).2.1.side = p.side.opponent then (1.0 : Float) else 1.0 - 1.0) =
        rewardFor p.side (playToEnd (p.advance first) g).2.1.side.opponent := by
      unfold rewardFor
      cases (playToEnd (p.advance first) g).2.1.side <;> cases p.side <;> rfl
    rw [hreward]
    cases (playToEnd (p.advance first) g).1 <;> rfl

/-! ## The end of a game -/

/-- Random play goes on along legal moves until the side to move has lost or the history is full. -/
theorem playToEnd_cases {p : Position} (hp : p.Consistent) (g : σ) :
    ∃ moves, p.isLegalLine moves = true ∧ (playToEnd p g).2.1 = moves.foldl advance p ∧
      (((playToEnd p g).1 = .ok () ∧ (playToEnd p g).2.1.isLost = true) ∨
        ((playToEnd p g).1 = .error (.plyLimit maxPly) ∧ (playToEnd p g).2.1.isLost = false ∧
          maxPly ≤ (playToEnd p g).2.1.depth)) := by
  fun_induction playToEnd p g with
  | case1 p g hlost => exact ⟨[], rfl, rfl, .inl ⟨rfl, hlost⟩⟩
  | case2 p g hlost e g' hc =>
    -- a position without moves is lost
    exact absurd (hp.isLost_iff.2 (.inr (chooseMove_error hc).2)) hlost
  | case3 p g hlost m g' hc e he =>
    rw [Bool.not_eq_true] at hlost
    have hm := chooseMove_ok hc
    have hfull : maxPly ≤ p.depth := by
      by_contra hroom
      rw [(refusal?_eq_none_iff p m).2 (hp.accepts hlost hm (Nat.lt_of_not_le hroom))] at he
      cases he
    rw [hp.refusal?_of_full hlost hm hfull] at he
    cases he
    exact ⟨[], rfl, rfl, .inr ⟨rfl, hlost, hfull⟩⟩
  | case4 p g hlost m g' hc hm ih =>
    rw [Bool.not_eq_true] at hlost
    obtain ⟨moves, hmoves, hfinal, hend⟩ := ih (hp.advance ((refusal?_eq_none_iff p m).1 hm))
    have hlegal := (hp.isLegal_iff m).2 ⟨hlost, chooseMove_ok hc⟩
    exact ⟨m :: moves, by rw [isLegalLine, hlegal, hmoves]; rfl, hfinal, hend⟩

/-- A move is refused for what it is or for want of room, never because of what could be taken back. -/
theorem Position.refusal?_ne {p : Position} {m : Move} {err : Error} (h : p.refusal? m = some err) :
    err ≠ .noMoves ∧ err ≠ .nothingToUndo ∧ ∀ m n, err ≠ .undoMismatch m n := by
  unfold refusal? at h
  split at h
  · cases h; simp
  split at h
  · cases h; simp
  split at h
  · cases h; simp
  split at h
  · cases h; simp
  split at h
  · cases h; simp
  · cases h

/-- A playout fails because its first move is refused or because the game fills the history. Otherwise the game
has ended, and the side that did not lose it has won. -/
theorem playout_cases {p : Position} (hp : p.Consistent) (first : Move) (g : σ) :
    let final := (playToEnd (p.advance first) g).2.1
    (∃ err, p.refusal? first = some err ∧ (playout p first g).1 = .error err) ∨
    (p.refusal? first = none ∧
      (∃ moves, (p.advance first).isLegalLine moves = true ∧ final = moves.foldl advance (p.advance first)) ∧
      ((final.isLost = true ∧ (playout p first g).1 = .ok final.side.opponent) ∨
        (final.isLost = false ∧ maxPly ≤ final.depth ∧ (playout p first g).1 = .error (.plyLimit maxPly)))) := by
  intro final
  unfold playout
  cases hfirst : p.refusal? first with
  | some err => exact .inl ⟨err, rfl, rfl⟩
  | none =>
    obtain ⟨moves, hmoves, hfinal, hend⟩ :=
      playToEnd_cases (hp.advance ((refusal?_eq_none_iff p first).1 hfirst)) g
    refine .inr ⟨rfl, ⟨moves, hmoves, hfinal⟩, ?_⟩
    rcases hend with ⟨hok, hlost⟩ | ⟨herr, hlost, hfull⟩
    · exact .inl ⟨hlost, by simp only [hok]; rfl⟩
    · exact .inr ⟨hlost, hfull, by simp only [herr]; rfl⟩

/-! ## Every run -/

/-- **A playout leaves no trace and rewards the winner.** On every position that calls lead to, for every first
move and every random stream, a playout gives the position back with its history, whether it succeeds or not.
Once its first move is accepted it goes on along legal moves. It fails with the refusal of the first move, or
because the game has filled the history before anybody lost. If it succeeds the last position is lost, and the
reward is 1 when the opponent of the side that moved first is to move there, and 0 otherwise. The reward is found
on the way back; the winner that is read off the last position comes to the same. -/
theorem run_playout_rewarded {b : Position} (hb : Origin b) (calls : List Call) (first : Move) (g : σ) :
    let p := b.run calls
    let result := rewound p first g
    let final := (playToEnd (p.advance first) g).2.1
    result = ((playout p first g).1.map (rewardFor p.side), (playout p first g).2) ∧
    result.2.1 = p ∧
    (∀ q, p.play first = .ok q → ∃ moves, q.isLegalLine moves = true ∧ final = moves.foldl advance q) ∧
    (∀ err, result.1 = .error err → p.play first = .error err ∨
      err = .plyLimit 256 ∧ p.play first = .ok (p.advance first) ∧ final.isLost = false ∧ 256 ≤ final.depth) ∧
    (∀ err, result.1 = .error err → err ≠ .noMoves ∧ err ≠ .nothingToUndo ∧ ∀ m n, err ≠ .undoMismatch m n) ∧
    ∀ reward, result.1 = .ok reward → p.play first = .ok (p.advance first) ∧ final.isLost = true ∧
      reward = if final.side = p.side.opponent then 1.0 else 0.0 := by
  intro p result final
  have hresult : result = ((playout p first g).1.map (rewardFor p.side), (playout p first g).2) :=
    rewound_eq p first g
  have hreward : rewardFor p.side final.side.opponent = if final.side = p.side.opponent then 1.0 else 0.0 := by
    unfold rewardFor
    cases final.side <;> cases p.side <;> rfl
  refine ⟨hresult, ?_, ?_⟩
  · rw [hresult]
    exact position_playout p first g
  rcases playout_cases (hb.consistent_run calls) first g with
    ⟨err, hrefused, hout⟩ | ⟨haccepted, hmoves, hend⟩
  · have hplay : p.play first = .error err := by rw [play, hrefused]
    have herr : result.1 = .error err := by rw [hresult, hout]; rfl
    rw [hplay, herr]
    refine ⟨fun _ h => (by cases h), ?_, ?_, fun _ h => by cases h⟩
    · rintro _ ⟨⟩
      exact .inl rfl
    · rintro _ ⟨⟩
      exact refusal?_ne hrefused
  have hplay : p.play first = .ok (p.advance first) := by rw [play, haccepted]
  rw [hplay]
  refine ⟨?_, ?_⟩
  · rintro _ ⟨⟩
    exact hmoves
  rcases hend with ⟨hlost, hout⟩ | ⟨hlost, hfull, hout⟩
  · have hok : result.1 = .ok (rewardFor p.side final.side.opponent) := by rw [hresult, hout]; rfl
    rw [hok]
    refine ⟨fun _ h => (by cases h), fun _ h => (by cases h), ?_⟩
    rintro _ ⟨⟩
    exact ⟨rfl, hlost, hreward⟩
  · have herr : result.1 = .error (.plyLimit maxPly) := by rw [hresult, hout]; rfl
    rw [herr]
    refine ⟨?_, ?_, fun _ h => by cases h⟩
    · rintro _ ⟨⟩
      exact .inr ⟨rfl, rfl, hlost, hfull⟩
    · rintro _ ⟨⟩
      simp

/-- When every move ends the game, one more is played at most. -/
theorem Position.Consistent.isLegalLine_cases {p : Position} (hp : p.Consistent)
    (hlast : ∀ m ∈ p.moves, (p.advance m).isLost = true) {moves : List Move} (h : p.isLegalLine moves = true) :
    moves = [] ∨ ∃ m ∈ p.moves, moves = [m] := by
  cases moves with
  | nil => exact .inl rfl
  | cons m rest =>
    rw [isLegalLine, Bool.and_eq_true] at h
    have hm := ((hp.isLegal_iff m).1 h.1).2
    cases rest with
    | nil => exact .inr ⟨m, hm, rfl⟩
    | cons n rest => simp [isLegalLine, isLegal, hlast m hm] at h

/-- Black wins on the next move, whatever the stream is. -/
theorem run_playout_rewarded_forced :
    let text := "........\n........\n........\n........\n........\n........\n....B...\nW.......\n"
    let first : Move := ⟨⟨0⟩, ⟨8⟩⟩
    ∃ p, ofDiagram text .white = .ok p ∧
      ∀ g : ChaCha, (rewound p first g).1 = .ok 0.0 ∧ (rewound p first g).2.1 = p := by
  intro text first
  obtain ⟨p, hp⟩ : ∃ p, p = ofBoard (.ofFn fun i =>
    if i = 0 then some .white else if i = 12 then some .black else none) .white .shared := ⟨_, rfl⟩
  have horigin : ofDiagram text .white = .ok p := by
    rw [hp]
    exact ofDiagram_of_rows .white (by decide +kernel)
  have haccepted : p.refusal? first = none := by
    rw [hp]
    decide +kernel
  have hgoing : (p.advance first).isLost = false ∧ (p.advance first).depth = 1 := by
    rw [hp]
    decide +kernel
  have hlast : ∀ m ∈ (p.advance first).moves, ((p.advance first).advance m).isLost = true := by
    rw [hp]
    decide +kernel
  refine ⟨p, horigin, fun g => ?_⟩
  obtain ⟨_, hback, hline, herr, _, hok⟩ := run_playout_rewarded (.diagram horigin) [] first g
  refine ⟨?_, hback⟩
  have hplay : p.play first = .ok (p.advance first) := by rw [play, haccepted]
  have hcons : (p.advance first).Consistent := by
    have hp' : p.Consistent := hp ▸ consistent_ofBoard _ _ _
    exact hp'.advance ((refusal?_eq_none_iff p first).1 haccepted)
  obtain ⟨moves, hmoves, hfinal⟩ := hline _ hplay
  simp only [run, List.foldl_nil] at hok herr hfinal
  cases hresult : (rewound p first g).1 with
  | error err =>
    rcases herr err hresult with hrefused | ⟨_, _, hlost, hfull⟩
    · rw [hplay] at hrefused
      cases hrefused
    · rcases hcons.isLegalLine_cases hlast hmoves with rfl | ⟨m, hm, rfl⟩
      · rw [hfinal, List.foldl_nil, hgoing.2] at hfull
        cases Nat.not_le_of_lt (by decide) hfull
      · rw [hfinal, List.foldl_cons, List.foldl_nil, hlast m hm] at hlost
        cases hlost
  | ok reward =>
    obtain ⟨_, hlost, hreward⟩ := hok reward hresult
    rcases hcons.isLegalLine_cases hlast hmoves with rfl | ⟨m, hm, rfl⟩
    · rw [hfinal, List.foldl_nil, hgoing.1] at hlost
      cases hlost
    · have hwhite : (playToEnd (p.advance first) g).2.1.side ≠ p.side.opponent := by
        rw [hfinal, List.foldl_cons, List.foldl_nil, side_advance, side_advance, Color.opponent_opponent]
        exact p.side.opponent_ne.symm
      exact congrArg Except.ok (hreward.trans (if_neg hwhite))

end Breakthrough
