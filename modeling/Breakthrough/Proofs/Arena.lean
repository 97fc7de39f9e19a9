import Mathlib.Logic.Function.Basic
import Breakthrough.Arena
import Breakthrough.Proofs.Endings
import Breakthrough.Proofs.OneIteration

/-!
# Games of the arena

Whatever the clock says, a game of the arena goes on like this: the player of the side to move is asked, its
answer is played, and it has made one move more. `asked` is the course of a game between two players, without clock
and accounts, and `Played` ties a match that has come to its end to those who were asked and to their answers. What is
recorded of the game is about these moves (`playGame_accounts`). Fit players always bring the game to its end.

The players are looked at by the side that they play, which is how they take turns; who of them is the challenger
depends on the number of the game.
-/

namespace Breakthrough.Arena

open Position

/-! ## Players by side -/

namespace Match

def player (g : Match) (color c : Color) : Player := if c = color then g.challenger else g.opponent

/-- How many moves were made by who plays a side. -/
def movesBy (g : Match) (color c : Color) : Nat := if c = color then g.challengerMoves else g.opponentMoves

/-- The match after who plays the side to move has answered within a time, with the position that it is then in. -/
def answered (g : Match) (color : Color) (player : Player) (time : Nat) (p : Position) : Match :=
  if g.position.side = color then
    { g with
      challenger := player, position := p
      challengerTime := g.challengerTime + time, challengerMoves := g.challengerMoves + 1 }
  else
    { g with
      opponent := player, position := p
      opponentTime := g.opponentTime + time, opponentMoves := g.opponentMoves + 1 }

variable (g : Match) (color : Color) (player : Player) (time : Nat) (p : Position)

@[simp] theorem position_answered : (g.answered color player time p).position = p := by
  rw [answered]
  split <;> rfl

theorem answered_with_position (q : Position) :
    { g.answered color player time p with position := q } = g.answered color player time q := by
  rw [answered, answered]
  split <;> rfl

theorem eq_side_iff_ne {side color : Color} (h : side ≠ color) (c : Color) : c = side ↔ c ≠ color := by
  revert h
  cases c <;> cases side <;> cases color <;> decide

theorem player_answered :
    (g.answered color player time p).player color = Function.update (g.player color) g.position.side player := by
  funext c
  rw [answered]
  split
  · rename_i hside
    by_cases hc : c = color <;> simp [Match.player, Function.update, hside, hc]
  · rename_i hside
    by_cases hc : c = color <;> simp [Match.player, Function.update, eq_side_iff_ne hside, hc]

theorem movesBy_answered (c : Color) :
    (g.answered color player time p).movesBy color c =
      g.movesBy color c + if c = g.position.side then 1 else 0 := by
  rw [answered]
  split
  · rename_i hside
    by_cases hc : c = color <;> simp [Match.movesBy, hside, hc]
  · rename_i hside
    by_cases hc : c = color <;> simp [Match.movesBy, eq_side_iff_ne hside, hc]

end Match

/-- How many moves were made by who played a side. -/
def Game.movesBy (g : Game) (c : Color) : Nat := if c = g.challengerColor then g.challengerMoves else g.opponentMoves

/-- Who is asked for a move in a game, and where. -/
def asked : (room : Nat) → (players : Color → Player) → Position → List (Player × Position)
  | room, players, p =>
    if p.isLost then []
    else
      (players p.side, p) ::
        match (players p.side).choose p with
        | (.error _, _) => []
        | (.ok m, _, player, q) =>
          match q.refusal? m, room with
          | none, room + 1 => asked room (Function.update players p.side player) (q.advance m)
          | _, _ => []

theorem asked_of_isLost {room : Nat} {players : Color → Player} {p : Position} (hlost : p.isLost = true) :
    asked room players p = [] := by
  unfold asked
  rw [if_pos hlost]

theorem asked_of_accepted {room : Nat} {players : Color → Player} {p q : Position} {m : Move}
    {lines : List LogLine} {player : Player} (hlost : p.isLost = false)
    (hchoose : (players p.side).choose p = (.ok m, lines, player, q)) (hm : q.refusal? m = none) :
    asked (room + 1) players p =
      (players p.side, p) :: asked room (Function.update players p.side player) (q.advance m) := by
  rw [asked]
  simp only [hlost, Bool.false_eq_true, if_false, hchoose, hm]

theorem mem_asked {room : Nat} {players : Color → Player} {p : Position} (hlost : p.isLost = false) :
    (players p.side, p) ∈ asked room players p := by
  unfold asked
  simp [hlost]

theorem kind_asked {room : Nat} {players : Color → Player} {p : Position} :
    ∀ a ∈ asked room players p, a.1.kind = (players a.2.side).kind := by
  fun_induction asked room players p with
  | case1 => exact nofun
  | case2 room players p hlost ih =>
    rw [List.forall_mem_cons]
    refine ⟨rfl, ?_⟩
    split
    · exact nofun
    · rename_i m lines player q hchoose
      split
      · rename_i hm
        have hrest := ih m player q
        rw [hm] at hrest
        have hkind := (players p.side).kind_choose p
        rw [hchoose] at hkind
        intro a ha
        rw [hrest a ha]
        by_cases hside : a.2.side = p.side
        · rw [hside, Function.update_self]
          exact hkind
        · rw [Function.update_of_ne hside]
      · exact nofun

/-- The moves that were answered. -/
def answers (turns : List (Player × Position)) : List Move :=
  turns.filterMap fun a => (a.1.choose a.2).1.toOption

/-! ## Games of first moves -/

/-- The positions of a game in which White plays the first move that it has and Black one that it draws. -/
def firstMoves : Nat → ChaCha → Position → List Position
  | 0, _, p => [p]
  | n + 1, g, p =>
    p ::
      if p.isLost then []
      else
        match p.side, p.moves, chooseMove p.moves g with
        | .white, m :: _, _ => firstMoves n g (p.advance m)
        | .black, _, (.ok m, g) => firstMoves n g (p.advance m)
        | _, _, _ => []

section FirstMoves

variable {n : Nat} {g g' : ChaCha} {p : Position} {m : Move}

theorem firstMoves_eq_cons (n : Nat) (g : ChaCha) (p : Position) : firstMoves n g p = p :: (firstMoves n g p).tail := by
  cases n <;> rfl

theorem firstMoves_of_white (hlost : p.isLost = false) (hside : p.side = .white) {moves : List Move}
    (hmoves : p.moves = m :: moves) : firstMoves (n + 1) g p = p :: firstMoves n g (p.advance m) := by
  rw [firstMoves]
  simp only [hlost, hside, hmoves, Bool.false_eq_true, if_false]

theorem firstMoves_of_black (hlost : p.isLost = false) (hside : p.side = .black)
    (hdraw : chooseMove p.moves g = (.ok m, g')) : firstMoves (n + 1) g p = p :: firstMoves n g' (p.advance m) := by
  rw [firstMoves]
  simp only [hlost, hside, hdraw, Bool.false_eq_true, if_false]

end FirstMoves

/-- Those positions of a game that a search of one iteration for White has not met when it is a side's turn: Black
moves in the successor that it has met last. -/
def unsearched : Color → List Position → List Position
  | .white, course => course
  | .black, course => course.tail

/-- The players are asked about the positions of a course, the last one excepted, and meet no other. -/
structure Follows (room : Nat) (players : Color → Player) (p : Position) (course : List Position) : Prop where
  staysIn : ∀ a ∈ asked room players p, a.1.StaysIn (· ∈ course) a.2
  length_eq : (asked room players p).length + 1 = course.length

theorem Follows.step {room : Nat} {players : Color → Player} {p : Position} {course : List Position} {m : Move}
    {lines : List LogLine} {player : Player} (hlost : p.isLost = false)
    (hchoose : (players p.side).choose p = (.ok m, lines, player, p)) (hm : p.refusal? m = none)
    (hstays : (players p.side).StaysIn (· ∈ p :: course) p)
    (h : Follows room (Function.update players p.side player) (p.advance m) course) :
    Follows (room + 1) players p (p :: course) := by
  constructor <;> rw [asked_of_accepted hlost hchoose hm]
  · rw [List.forall_mem_cons]
    exact ⟨hstays, fun a ha => (h.staysIn a ha).mono fun _ => List.mem_cons_of_mem p⟩
  · exact congrArg (· + 1) h.length_eq

/-- A search of one iteration without playouts plays first moves and meets positions of the game only, as long as no
hash comes back. -/
theorem follows_of_single {room : Nat} {players : Color → Player} {p : Position} {e : Search.Engine Float ChaCha}
    {g : ChaCha} {known : List Position} (h : p.Game) (hroom : maxPly ≤ p.depth + room)
    (hwhite : players .white = .search e) (hblack : players .black = .random ⟨g⟩) (hsingle : e.config.Single)
    (hsound : e.graph.Sound (· ∈ known))
    (hnodup : ((known ++ unsearched p.side (firstMoves room g p)).map Position.hash).Nodup) :
    Follows room players p (firstMoves room g p) := by
  induction room generalizing players p e g known with
  | zero =>
    have hdepth := h.depth_lt
    omega
  | succ room ih =>
    have hdepth : ∀ m, maxPly ≤ (p.advance m).depth + room := fun m => by
      rw [depth_advance]
      omega
    cases hlost : p.isLost with
    | true => constructor <;> simp [asked_of_isLost, firstMoves, hlost]
    | false =>
      have hplay : ∀ {m}, m ∈ p.moves → p.isLegal m = true ∧ p.refusal? m = none := fun hm =>
        have hlegal := h.isLegal_of_mem_moves hlost hm
        ⟨hlegal, (refusal?_eq_none_iff p _).2 (h.accepts hlegal)⟩
      cases hside : p.side with
      | white =>
        obtain ⟨m, moves, hmoves⟩ := List.exists_cons_of_ne_nil (h.moves_ne_nil hlost)
        obtain ⟨hlegal, hm⟩ := hplay (hmoves ▸ List.mem_cons_self)
        have hside' : (p.advance m).side = .black := by rw [side_advance, hside]; rfl
        rw [firstMoves_of_white hlost hside hmoves, hside] at hnodup
        rw [unsearched, firstMoves_eq_cons, List.append_cons, List.append_cons, List.append_assoc known] at hnodup
        obtain ⟨hwrap, hmet, lines, e', he, hconfig, hsound'⟩ := Search.Engine.choose_of_single hsingle h hlost hsound
          hmoves (hnodup.sublist ((List.sublist_append_left _ _).map _))
        have hchoose : (players p.side).choose p = (.ok m, lines, .search e', p) := by
          rw [hside, hwhite]
          simp only [Player.choose, he]
        have hwhite' : Function.update players p.side (.search e') .white = .search e' := by
          rw [hside, Function.update_self]
        have hblack' : Function.update players p.side (.search e') .black = .random ⟨g⟩ := by
          rw [hside, Function.update_of_ne (by decide), hblack]
        rw [firstMoves_of_white hlost hside hmoves]
        refine .step hlost hchoose hm ?_ (ih (h.step hlegal) (hdepth m) hwhite' hblack' (hconfig ▸ hsingle) hsound'
          (by rw [hside']; exact hnodup))
        rw [hside, hwhite]
        refine ⟨hwrap, fun q hq => ?_⟩
        rw [firstMoves_eq_cons]
        rcases hmet q hq with rfl | rfl <;> simp
      | black =>
        obtain ⟨m, g', hdraw, hmem⟩ := chooseMove_of_ne_nil (h.moves_ne_nil hlost) g
        obtain ⟨hlegal, hm⟩ := hplay hmem
        have hside' : (p.advance m).side = .white := by rw [side_advance, hside]; rfl
        rw [firstMoves_of_black hlost hside hdraw, hside] at hnodup
        have hchoose : (players p.side).choose p = (.ok m, [], .random ⟨g'⟩, p) := by
          rw [hside, hblack]
          simp only [Player.choose, RandomAgent.choose, hlost, hdraw, Bool.false_eq_true, if_false]
        have hwhite' : Function.update players p.side (.random ⟨g'⟩) .white = .search e := by
          rw [hside, Function.update_of_ne (by decide), hwhite]
        have hblack' : Function.update players p.side (.random ⟨g'⟩) .black = .random ⟨g'⟩ := by
          rw [hside, Function.update_self]
        rw [firstMoves_of_black hlost hside hdraw]
        refine .step hlost hchoose hm ?_ (ih (h.step hlegal) (hdepth m) hwhite' hblack' hsingle hsound
          (by rw [hside']; exact hnodup))
        rw [hside, hblack]
        trivial

def shortGame : List Position := firstMoves maxPly (.ofSeed 295) .start

theorem length_and_nodup_shortGame : shortGame.length = 21 ∧ (shortGame.map Position.hash).Nodup := by decide +kernel

theorem nodup_shortGame : (shortGame.map Position.hash).Nodup := length_and_nodup_shortGame.2

/-! ## Games that are over -/

/-- The way from a match to the end of its game: who is asked, and where, and the moves that they answer. -/
inductive Played (color : Color) : List (Player × Position) → List Move → Match → Match → Prop where
  | finished {g : Match} : g.position.isLost = true → Played color [] [] g g
  | turn {g g' : Match} {m : Move} {lines : List LogLine} {player : Player} {time : Nat}
      {turns : List (Player × Position)} {moves : List Move} :
      g.position.isLost = false →
      (g.player color g.position.side).choose g.position = (.ok m, lines, player, g.position) →
      g.position.refusal? m = none →
      Played color turns moves (g.answered color player time (g.position.advance m)) g' →
      Played color ((g.player color g.position.side, g.position) :: turns) (m :: moves) g g'

namespace Played

variable {color : Color} {turns : List (Player × Position)} {moves : List Move} {g g' : Match}

theorem isLost (h : Played color turns moves g g') : g'.position.isLost = true := by
  induction h with
  | finished hlost => exact hlost
  | turn _ _ _ _ ih => exact ih

theorem answers_eq (h : Played color turns moves g g') : answers turns = moves := by
  induction h with
  | finished => rfl
  | turn _ hchoose _ _ ih =>
    rw [answers, List.filterMap_cons, hchoose]
    exact congrArg _ ih

theorem length_eq (h : Played color turns moves g g') : moves.length = turns.length := by
  induction h with
  | finished => rfl
  | turn _ _ _ _ ih => rw [List.length_cons, List.length_cons, ih]

theorem foldlM_play (h : Played color turns moves g g') : moves.foldlM Position.play g.position = .ok g'.position := by
  induction h with
  | finished => rfl
  | turn _ _ hm _ ih =>
    rw [Match.position_answered] at ih
    rw [List.foldlM_cons, Position.play, hm]
    exact ih

theorem ply_eq (h : Played color turns moves g g') : g'.position.ply = g.position.ply + moves.length := by
  induction h with
  | finished => rfl
  | turn _ _ _ _ ih =>
    rw [ih, Match.position_answered, ply_advance, List.length_cons]
    omega

/-- Each of them is asked about the position after the moves before, and answers with the next. -/
theorem getElem?_turns (h : Played color turns moves g g') {j : Nat} {a : Player × Position}
    (ha : turns[j]? = some a) : (moves.take j).foldlM Position.play g.position = .ok a.2 ∧
      ∃ m, moves[j]? = some m ∧ (a.1.choose a.2).1 = .ok m := by
  induction h generalizing j with
  | finished => cases ha
  | @turn g _ m _ _ _ _ _ _ hchoose hm _ ih =>
    cases j with
    | zero =>
      cases ha
      exact ⟨rfl, m, rfl, by rw [hchoose]⟩
    | succ j =>
      have hrest := ih ha
      rw [Match.position_answered] at hrest
      refine ⟨?_, hrest.2⟩
      rw [List.take_succ_cons, List.foldlM_cons, Position.play, hm]
      exact hrest.1

/-- A player has made a move as often as it was asked. -/
theorem movesBy_eq (h : Played color turns moves g g') (c : Color) :
    g'.movesBy color c = g.movesBy color c + turns.countP fun a => a.2.side = c := by
  induction h with
  | finished => rfl
  | @turn g _ _ _ _ _ _ _ _ _ _ _ ih =>
    rw [ih, Match.movesBy_answered, List.countP_cons]
    simp only [decide_eq_true_eq, eq_comm (a := c)]
    omega

end Played

/-! ## Accounts -/

namespace Match

/-- The sides take turns, and every move is counted for who has made it. -/
structure Accounted (color : Color) (g : Match) : Prop where
  line : Line .start g.position
  movesBy : ∀ c, g.movesBy color c = c.turns g.position.ply

variable {color : Color} {g : Match}

theorem Accounted.answered (h : g.Accounted color) {m : Move} (hm : g.position.refusal? m = none)
    (player : Player) (time : Nat) : (g.answered color player time (g.position.advance m)).Accounted color := by
  refine ⟨?_, fun c => ?_⟩
  · rw [position_answered]
    exact h.line.step ((refusal?_eq_none_iff _ m).1 hm)
  · rw [movesBy_answered, h.movesBy, position_answered, h.line.turns_advance]

theorem Accounted.sum_moves (h : g.Accounted color) :
    g.challengerMoves + g.opponentMoves = g.position.ply := by
  have hchallenger : g.challengerMoves = color.turns g.position.ply := by
    rw [← h.movesBy, Match.movesBy, if_pos rfl]
  have hopponent : g.opponentMoves = color.opponent.turns g.position.ply := by
    rw [← h.movesBy, Match.movesBy, if_neg color.opponent_ne]
  rw [hchallenger, hopponent]
  cases color <;> simp only [Color.opponent, Color.turns] <;> omega

/-- White is not to move after an odd number of plies. -/
theorem Accounted.winner (h : g.Accounted color) :
    g.position.side.opponent = .white ↔ g.position.ply % 2 = 1 := by
  rw [h.line.side_eq_of_start]
  split
  · simp only [Color.opponent, reduceCtorEq, false_iff]
    omega
  · simp only [Color.opponent, true_iff]
    omega

end Match

theorem challengerColor_eq_white (number : Nat) : challengerColor number = .white ↔ number % 2 = 1 := by
  rw [challengerColor]
  split <;> simp_all

theorem kind_player_newMatch (pairing : Pairing) (settings : Settings) (number : Nat) (fresh : FreshKeys)
    (color c : Color) : ((newMatch pairing settings number fresh).player color c).kind =
      if c = color then pairing.challenger else pairing.opponent := by
  rw [Match.player]
  split <;> exact Player.kind_new ..

theorem movesBy_newMatch (pairing : Pairing) (settings : Settings) (number : Nat) (fresh : FreshKeys)
    (color c : Color) :
    (newMatch pairing settings number fresh).movesBy color c = 0 := by
  rw [Match.movesBy]
  split <;> rfl

theorem accounted_newMatch (pairing : Pairing) (settings : Settings) (number : Nat) (fresh : FreshKeys)
    (color : Color) : (newMatch pairing settings number fresh).Accounted color := by
  refine ⟨.base, fun c => ?_⟩
  have hply : (newMatch pairing settings number fresh).position.ply = 0 := rfl
  rw [movesBy_newMatch, hply]
  cases c <;> rfl

theorem Played.accounted {color : Color} {turns : List (Player × Position)} {moves : List Move} {g g' : Match}
    (h : Played color turns moves g g') (hg : g.Accounted color) : g'.Accounted color := by
  induction h with
  | finished => exact hg
  | turn _ _ hm _ ih => exact ih (hg.answered hm _ _)

/-! ## One turn -/

section Clock

variable {σ : Type} (timed : {β : Type} → (Unit → β) → StateM σ (β × Nat))
  {color : Color} {g : Match} {room : Nat} {log : List LogLine}

theorem run_bind_of_run_eq {β γ : Type} {x : StateM σ β} {f : β → StateM σ γ} {b : β} {s s' : σ}
    (h : x.run s = (b, s')) : (x >>= f).run s = (f b).run s' := by
  rw [StateT.run_bind, h]
  rfl

theorem think_eq (color : Color) (g : Match) :
    think timed color g = (do
      let ((answer, lines, player, p), time) ← timed fun _ => (g.player color g.position.side).choose g.position
      return (answer, lines, g.answered color player time p)) := by
  unfold think
  split
  · rename_i hside
    simp only [Match.player, Match.answered, hside, if_true]
  · rename_i hside
    simp only [Match.player, Match.answered, hside, if_false]

theorem playOn_of_isLost (hlost : g.position.isLost = true) (s : σ) :
    (playOn timed color room log g).run s = ((.ok (), log, g), s) := by
  unfold playOn
  rw [if_pos hlost]
  rfl

variable (hclock : ∀ {β : Type} (f : Unit → β) (s : σ), ((timed f).run s).1.1 = f ())

include hclock

/-- The answer does not depend on the clock. -/
theorem think_run {answer : Except Error Move} {lines : List LogLine} {player : Player} {p : Position}
    (hchoose : (g.player color g.position.side).choose g.position = (answer, lines, player, p)) (s : σ) :
    ∃ time s', (think timed color g).run s = ((answer, lines, g.answered color player time p), s') := by
  have hvalue := hclock (fun _ => (g.player color g.position.side).choose g.position) s
  rw [think_eq, StateT.run_bind]
  generalize (timed fun _ => (g.player color g.position.side).choose g.position).run s = run at hvalue
  obtain ⟨⟨_, time⟩, s'⟩ := run
  obtain rfl := hvalue.trans hchoose
  exact ⟨time, s', rfl⟩

/-- An answer that is accepted is played, and the game goes on from there. -/
theorem playOn_of_accepted {m : Move} {lines : List LogLine} {player : Player} {p : Position}
    (hlost : g.position.isLost = false)
    (hchoose : (g.player color g.position.side).choose g.position = (.ok m, lines, player, p))
    (hm : p.refusal? m = none) (s : σ) :
    ∃ time s', (playOn timed color (room + 1) log g).run s =
      (playOn timed color room (log ++ lines) (g.answered color player time (p.advance m))).run s' := by
  obtain ⟨time, s', hthink⟩ := think_run timed hclock hchoose s
  refine ⟨time, s', ?_⟩
  conv_lhs => unfold playOn
  simp only [hlost, Bool.false_eq_true, if_false]
  rw [run_bind_of_run_eq hthink]
  simp only [Match.position_answered, hm, Match.answered_with_position]

/-- A game that ends well is over, or an answer was accepted and the rest of the game ends well. -/
theorem playOn_ok_cases {log' : List LogLine} {g' : Match} {s s' : σ}
    (h : (playOn timed color room log g).run s = ((.ok (), log', g'), s')) :
    (g.position.isLost = true ∧ g' = g) ∨
    ∃ n m lines player p time s₁, room = n + 1 ∧ g.position.isLost = false ∧
      (g.player color g.position.side).choose g.position = (.ok m, lines, player, p) ∧ p.refusal? m = none ∧
      (playOn timed color n (log ++ lines) (g.answered color player time (p.advance m))).run s₁ =
        ((.ok (), log', g'), s') := by
  cases hlost : g.position.isLost with
  | true =>
    rw [playOn_of_isLost timed hlost] at h
    cases h
    exact .inl ⟨rfl, rfl⟩
  | false =>
    rcases hchoose : (g.player color g.position.side).choose g.position with ⟨answer, lines, player, p⟩
    obtain ⟨time, s₁, hthink⟩ := think_run timed hclock hchoose s
    unfold playOn at h
    simp only [hlost, Bool.false_eq_true, if_false] at h
    rw [run_bind_of_run_eq hthink] at h
    cases answer with
    | error e => cases h
    | ok m =>
      simp only [Match.position_answered] at h
      cases hm : p.refusal? m with
      | some e =>
        rw [hm] at h
        cases h
      | none =>
        rw [hm] at h
        cases room with
        | zero => cases h
        | succ n =>
          simp only [Match.answered_with_position] at h
          exact .inr ⟨n, m, lines, player, p, time, s₁, rfl, rfl, rfl, hm, h⟩

/-! ## Whole games -/

/-- Whatever is answered, a game that ends well was played by those who were asked. -/
theorem exists_played (hwrap : ∀ a ∈ asked room (g.player color) g.position, a.1.NoWrap a.2) {log' : List LogLine}
    {g' : Match} {s s' : σ} (h : (playOn timed color room log g).run s = ((.ok (), log', g'), s')) :
    ∃ moves, Played color (asked room (g.player color) g.position) moves g g' := by
  induction room generalizing log g s with
  | zero =>
    rcases playOn_ok_cases timed hclock h with ⟨hlost, rfl⟩ | ⟨n, _, _, _, _, _, _, hn, _⟩
    · rw [asked_of_isLost hlost]
      exact ⟨[], .finished hlost⟩
    · cases hn
  | succ room ih =>
    rcases playOn_ok_cases timed hclock h with
      ⟨hlost, rfl⟩ | ⟨n, m, lines, player, p, time, s₁, hn, hlost, hchoose, hm, hrest⟩
    · rw [asked_of_isLost hlost]
      exact ⟨[], .finished hlost⟩
    · cases hn
      obtain rfl := Player.position_of_choose_ok (hwrap _ (mem_asked hlost)) hchoose
      rw [asked_of_accepted hlost hchoose hm] at hwrap ⊢
      have hplayers := g.player_answered color player time (g.position.advance m)
      obtain ⟨moves, hplayed⟩ := ih (g := g.answered color player time (g.position.advance m)) (by
        rw [hplayers, Match.position_answered]
        exact fun a ha => hwrap a (List.mem_cons_of_mem _ ha)) hrest
      rw [hplayers, Match.position_answered] at hplayed
      exact ⟨m :: moves, .turn hlost hchoose hm hplayed⟩

/-- Fit players bring every game to its end, by legal moves. -/
theorem playOn_of_fit {S : Color → Position → Prop} (hfree : ∀ c, CollisionFree (S c)) (h : g.position.Game)
    (hroom : maxPly ≤ g.position.depth + room) (hfit : ∀ c, (g.player color c).Fit (S c))
    (hstays : ∀ a ∈ asked room (g.player color) g.position, a.1.StaysIn (S a.2.side) a.2) (s : σ) :
    ∃ moves log' g' s', (playOn timed color room log g).run s = ((.ok (), log', g'), s') ∧
      Played color (asked room (g.player color) g.position) moves g g' ∧ g.position.isLegalLine moves = true := by
  induction room generalizing log g s with
  | zero =>
    have hdepth := h.depth_lt
    omega
  | succ room ih =>
    cases hlost : g.position.isLost with
    | true =>
      rw [asked_of_isLost hlost]
      exact ⟨[], log, g, s, playOn_of_isLost timed hlost s, .finished hlost, rfl⟩
    | false =>
      obtain ⟨m, lines, player, hchoose, hm, hfit'⟩ := (g.player color g.position.side).choose_of_game h hlost
        (hfree g.position.side) (hfit g.position.side) (hstays _ (mem_asked hlost))
      have hrefusal := (refusal?_eq_none_iff g.position m).2 (h.accepts hm)
      obtain ⟨time, s₁, hplay⟩ := playOn_of_accepted timed hclock hlost hchoose hrefusal s
      rw [asked_of_accepted hlost hchoose hrefusal] at hstays ⊢
      let next := g.answered color player time (g.position.advance m)
      have hposition : next.position = g.position.advance m := g.position_answered ..
      have hplayers : next.player color = _ := g.player_answered ..
      obtain ⟨moves, log', g', s', hend, hplayed, hlegal⟩ := @ih next (log ++ lines)
        (by rw [hposition]; exact h.step hm)
        (by rw [hposition, depth_advance]; omega)
        (fun c => by
          rw [hplayers]
          by_cases hc : c = g.position.side
          · subst hc
            rw [Function.update_self]
            exact hfit'
          · rw [Function.update_of_ne hc]
            exact hfit c)
        (fun a ha => by
          rw [hplayers, hposition] at ha
          exact hstays a (List.mem_cons_of_mem _ ha)) s₁
      rw [hposition] at hlegal
      rw [hplayers, hposition] at hplayed
      refine ⟨m :: moves, log', g', s', hplay.trans hend, .turn hlost hchoose hrefusal hplayed, ?_⟩
      rw [isLegalLine, hm, hlegal]
      rfl

omit hclock in
theorem playGame_of_playOn {pairing : Pairing} {settings : Settings} {number : Nat} {fresh : FreshKeys}
    {result : Except Error Unit} {log : List LogLine} {g : Match} {s s' : σ}
    (h : (playOn timed (challengerColor number) maxPly [] (newMatch pairing settings number fresh)).run s =
      ((result, log, g), s')) :
    ((playGame timed pairing settings number fresh).run s).1.1 = result.map fun _ =>
      { number, challengerColor := challengerColor number, winner := g.position.side.opponent
        plies := g.position.ply
        challengerTime := g.challengerTime, challengerMoves := g.challengerMoves
        opponentTime := g.opponentTime, opponentMoves := g.opponentMoves } := by
  unfold playGame
  rw [run_bind_of_run_eq h]
  cases result <;> rfl

/-- **The accounts of a game.** With every clock, pairing, settings, number and fresh keys, if no visit counter wraps
when a player is asked: let a game end well. Then its moves are the answers of those who were asked, one after the
other from the start, each about the position that the moves before have led to; the challenger was asked where its
colour was to move, the opponent elsewhere, and who is to move in the last position has lost. What is recorded are the
number of these moves, how often either player was asked, and the winner. So the challenger has White in games of odd
number, there are as many moves as plies, half of them by the player of Black and the larger half by the player of
White, and White has won the games with an odd number of plies.

Every game ends well, by legal moves and after 11 to 208 plies, if the setting of the greedy agent is a number as far
as it plays, and if hashes tell the positions apart that the search of a side meets. -/
theorem playGame_accounts (pairing : Pairing) (settings : Settings) (number : Nat) (fresh : FreshKeys) (s : σ)
    (hwrap : ∀ a ∈ asked maxPly ((newMatch pairing settings number fresh).player (challengerColor number)) .start,
      a.1.NoWrap a.2) :
    let turns := asked maxPly ((newMatch pairing settings number fresh).player (challengerColor number)) .start
    let moves := answers turns
    let result := ((playGame timed pairing settings number fresh).run s).1.1
    (∀ g, result = .ok g →
      (∃ last, moves.foldlM Position.play .start = .ok last ∧ last.isLost = true ∧ g.winner = last.side.opponent) ∧
      g.plies = moves.length ∧ moves.length = turns.length ∧
      (∀ j a, turns[j]? = some a → (moves.take j).foldlM Position.play .start = .ok a.2 ∧
        ∃ m, moves[j]? = some m ∧ (a.1.choose a.2).1 = .ok m) ∧
      (∀ a ∈ turns, a.1.kind = if a.2.side = g.challengerColor then pairing.challenger else pairing.opponent) ∧
      g.challengerMoves = turns.countP (fun a => a.2.side = g.challengerColor) ∧
      g.opponentMoves = turns.countP (fun a => a.2.side = g.challengerColor.opponent) ∧
      (g.challengerColor = .white ↔ number % 2 = 1) ∧
      g.challengerMoves + g.opponentMoves = g.plies ∧
      g.movesBy .white = (g.plies + 1) / 2 ∧ g.movesBy .black = g.plies / 2 ∧
      (g.winner = .white ↔ g.plies % 2 = 1)) ∧
    ∀ S : Color → Position → Prop, (∀ c, CollisionFree (S c)) →
      (∀ kind ∈ [pairing.challenger, pairing.opponent], kind = .greedy →
        settings.greedy.epsilon.isNaN = false) →
      (∀ a ∈ turns, a.1.StaysIn (S a.2.side) a.2) →
      ∃ g, result = .ok g ∧ Position.start.isLegalLine moves = true ∧ 11 ≤ g.plies ∧ g.plies ≤ 208 := by
  intro turns moves result
  constructor
  · intro g hg
    rcases hplay : (playOn timed (challengerColor number) maxPly []
      (newMatch pairing settings number fresh)).run s with ⟨⟨end?, log, last⟩, s'⟩
    rw [show result = _ from playGame_of_playOn timed hplay] at hg
    cases end? with
    | error e => cases hg
    | ok _ =>
      obtain rfl := Except.ok.inj hg
      obtain ⟨played, hplayed⟩ := exists_played timed hclock hwrap hplay
      obtain rfl : moves = played := hplayed.answers_eq
      have haccounts := hplayed.accounted (accounted_newMatch pairing settings number fresh _)
      have hcounts : ∀ c, last.movesBy (challengerColor number) c = turns.countP fun a => a.2.side = c := fun c => by
        rw [hplayed.movesBy_eq c, movesBy_newMatch, Nat.zero_add]
        rfl
      have hchallenger := hcounts (challengerColor number)
      have hopponent := hcounts (challengerColor number).opponent
      rw [Match.movesBy, if_pos rfl] at hchallenger
      rw [Match.movesBy, if_neg (challengerColor number).opponent_ne] at hopponent
      refine ⟨⟨last.position, hplayed.foldlM_play, hplayed.isLost, rfl⟩, hplayed.ply_eq.trans (Nat.zero_add _),
        hplayed.length_eq, fun j a ha => hplayed.getElem?_turns ha, fun a ha => ?_, hchallenger, hopponent,
        challengerColor_eq_white number, haccounts.sum_moves, haccounts.movesBy .white, haccounts.movesBy .black,
        haccounts.winner⟩
      rw [kind_asked a ha, kind_player_newMatch]
  · intro S hfree hepsilon hstays
    have hfit : ∀ c, ((newMatch pairing settings number fresh).player (challengerColor number) c).Fit (S c) := by
      intro c
      rw [Match.player]
      split
      · exact Player.fit_new (hepsilon _ (by simp)) _ _
      · exact Player.fit_new (hepsilon _ (by simp)) _ _
    obtain ⟨played, log, g, s', hplay, hplayed, hlegal⟩ := playOn_of_fit timed hclock hfree (.start .shared)
      (Nat.le_add_left _ _) hfit hstays s
    obtain rfl : moves = played := hplayed.answers_eq
    have hgame : g.position.Game := by
      obtain hlast := hplayed.foldlM_play.symm.trans ((Game.start .shared).foldlM_play hlegal)
      rw [Except.ok.inj hlast]
      exact (Game.start .shared).foldl_advance hlegal
    refine ⟨_, playGame_of_playOn timed hplay, hlegal, hgame.ply_of_isLost hplayed.isLost, ?_⟩
    have hbound := hgame.consistent_and_depth_le.2
    have hply := hgame.ply_eq
    simp only
    omega

end Clock

/-- A search of one iteration is the challenger of a random player, with fresh keys. -/
theorem playGame_accounts_first_moves :
    let pairing : Pairing := ⟨.search, .random, 1, false⟩
    let settings := { Settings.default with iterations := 1, samples := 0 }
    let fresh : FreshKeys := ⟨.ofSeed 294, .ofSeed 295⟩
    let turns := asked maxPly ((newMatch pairing settings 1 fresh).player (challengerColor 1)) .start
    -- a clock that tells how often it has been asked
    let tick : {β : Type} → (Unit → β) → StateM Nat (β × Nat) := fun f n => ((f (), n), n + 1)
    (∀ a ∈ turns, a.1.NoWrap a.2) ∧
      ∃ g, ((playGame tick pairing settings 1 fresh).run 0).1.1 = .ok g ∧ g.challengerColor = .white ∧
        g.plies = 20 ∧ g.challengerMoves = 10 ∧ g.opponentMoves = 10 ∧ g.winner = .black ∧
        Position.start.isLegalLine (answers turns) = true := by
  intro pairing settings fresh turns tick
  let players := (newMatch pairing settings 1 fresh).player (challengerColor 1)
  have hblack : players .black = .random ⟨.ofSeed 295⟩ := rfl
  obtain ⟨hstays, hlength⟩ : Follows maxPly players .start shortGame :=
    follows_of_single (.start .shared) (Nat.le_add_left _ _) rfl hblack ⟨rfl, rfl⟩
      (Search.Graph.sound_empty (S := (· ∈ []))) nodup_shortGame
  have hwrap := fun a ha => (hstays a ha).noWrap
  obtain ⟨haccounts, hends⟩ := playGame_accounts tick (fun _ _ => rfl) pairing settings 1 fresh 0 hwrap
  obtain ⟨g, hg, hlegal, _⟩ := hends _ (fun _ => collisionFree_of_nodup nodup_shortGame) (by decide) hstays
  obtain ⟨_, hplies, hmoves, _, _, _, _, hcolor, _, hwhite, hblack, hwinner⟩ := haccounts g hg
  have hplies' : g.plies = 20 := by
    rw [length_and_nodup_shortGame.1] at hlength
    exact hplies.trans (hmoves.trans (Nat.succ.inj hlength))
  have hcolor' := hcolor.2 rfl
  rw [Game.movesBy, hcolor', if_pos rfl, hplies'] at hwhite
  rw [Game.movesBy, hcolor', if_neg (by decide), hplies'] at hblack
  refine ⟨hwrap, g, hg, hcolor', hplies', hwhite, hblack, ?_, hlegal⟩
  rw [hplies'] at hwinner
  cases hside : g.winner with
  | white => exact absurd (hwinner.1 hside) (by decide)
  | black => rfl

end Breakthrough.Arena
