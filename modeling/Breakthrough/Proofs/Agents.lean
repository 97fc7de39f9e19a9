import Breakthrough.Player
import Breakthrough.Proofs.Chance
import Breakthrough.Proofs.Soundness

/-!
# Agents in a game

Each agent can be asked for a move in a game that is not over. It answers with a legal move and leaves the
position as it was (`Player.choose_of_game`). The random agent needs nothing for that. The greedy agent needs a
setting that is a number, since it draws an event of that chance before each playout. The search needs hashes
that tell the positions it meets apart, and visit counters that do not wrap.
-/

namespace Breakthrough

variable {α σ : Type} [RandomSource σ] {p : Position}

theorem Position.Game.moves_ne_nil (h : p.Game) (hlost : p.isLost = false) : p.moves ≠ [] := by
  rw [Position.isLost, Bool.or_eq_false_iff, Bool.not_eq_false'] at hlost
  exact h.consistent.canMove_iff.1 hlost.2

/-! ## The random agent -/

theorem chooseMove_of_ne_nil {moves : List Move} (h : moves ≠ []) (g : σ) :
    ∃ m g', chooseMove moves g = (.ok m, g') ∧ m ∈ moves := by
  cases hr : chooseMove moves g with
  | mk result g' =>
    cases result with
    | error e => exact absurd (chooseMove_error hr).2 h
    | ok m => exact ⟨m, g', rfl, chooseMove_ok hr⟩

theorem RandomAgent.choose_of_game (a : RandomAgent σ) (h : p.Game) (hlost : p.isLost = false) :
    ∃ m a', a.choose p = (.ok m, a') ∧ p.isLegal m = true := by
  obtain ⟨m, g, hm, hmem⟩ := chooseMove_of_ne_nil (h.moves_ne_nil hlost) a.source
  refine ⟨m, ⟨g⟩, ?_, h.isLegal_of_mem_moves hlost hmem⟩
  simp only [choose, hlost, Bool.false_eq_true, if_false, hm]

/-! ## The greedy agent -/

theorem countWins_eq_of_game (h : p.Game) {first : Move} (hm : p.isLegal first = true) (n wins : Nat) (g : σ) :
    ∃ total g', countWins first n wins p g = (.ok total, p, g') := by
  obtain ⟨total, htotal⟩ := countWins_of_game h hm n wins g
  have hp := position_countWins first n wins p g
  exact ⟨total, _, Prod.ext htotal (Prod.ext hp rfl)⟩

/-- The move can be played, and so can every number of playouts that begin with it. -/
def Position.Playable (σ : Type) [RandomSource σ] (p : Position) (m : Move) : Prop :=
  p.Accepts m ∧ ∀ (n wins : Nat) (g : σ), ∃ total g', countWins m n wins p g = (.ok total, p, g')

theorem Position.Game.playable (h : p.Game) {m : Move} (hm : p.isLegal m = true) : p.Playable σ m :=
  ⟨h.accepts hm, countWins_eq_of_game h hm⟩

theorem mem_of_pick? {β : Type} {items : List β} {item : β} {g g' : σ} (h : pick? items g = (some item, g')) :
    item ∈ items := by
  unfold pick? at h
  split at h
  · cases h
    exact List.get_mem _ _
  · cases h

namespace Greedy

/-- The moves that the roots stand for, in order. -/
def candidates (roots : Array (Root α)) : List Move := roots.toList.map Root.move

theorem candidates_push (roots : Array (Root α)) (r : Root α) :
    candidates (roots.push r) = candidates roots ++ [r.move] := by
  simp [candidates]

theorem candidates_modify (roots : Array (Root α)) (i : Nat) {f : Root α → Root α}
    (hf : ∀ r, (f r).move = r.move) : candidates (roots.modify i f) = candidates roots := by
  apply List.ext_getElem?
  intro j
  simp only [candidates, List.getElem?_map, Array.getElem?_toList, Array.getElem?_modify]
  split
  · rw [Option.map_map]
    exact congrArg (fun move => Option.map move roots[j]?) (funext hf)
  · rfl

theorem move_mem_candidates {roots : Array (Root α)} {i : Nat} (h : i < roots.size) :
    roots[i].move ∈ candidates roots :=
  List.mem_map.2 ⟨_, Array.getElem_mem_toList h, rfl⟩

variable [Score α]

/-- The warm-up of a move that is accepted: it is played, taken back and sampled. -/
theorem warmUp_cons {m : Move} (h : p.Accepts m) (warmup : Nat) (moves : List Move) (roots : Array (Root α))
    (g : σ) :
    warmUp warmup (m :: moves) roots p g =
      match countWins m warmup 0 p g with
      | (.error e, p, g) => (.error e, roots, p, g)
      | (.ok wins, q, g) =>
        warmUp warmup moves (roots.push ⟨m, Score.one - (p.advance m).evaluate, wins, warmup.toUInt32⟩) q g := by
  rcases hwins : countWins m warmup 0 p g with ⟨_ | _, _, _⟩ <;>
    simp only [warmUp, (Position.refusal?_eq_none_iff p m).2 h, Position.takeBackRefusal?_advance,
      Position.retract_advance h, if_true, hwins]

/-- The warm-up makes a root of every move and gives the position back. -/
theorem warmUp_of_playable (warmup : Nat) (moves : List Move) (hmoves : ∀ m ∈ moves, p.Playable σ m)
    (roots : Array (Root α)) (g : σ) :
    ∃ roots' g', warmUp warmup moves roots p g = (.ok (), roots', p, g') ∧
      candidates roots' = candidates roots ++ moves := by
  induction moves generalizing roots g with
  | nil => exact ⟨roots, g, rfl, (List.append_nil _).symm⟩
  | cons m moves ih =>
    rw [List.forall_mem_cons] at hmoves
    have haccepts := hmoves.1.1
    obtain ⟨wins, g₁, hwins⟩ := hmoves.1.2 warmup 0 g
    obtain ⟨roots', g', hrest, hcandidates⟩ :=
      ih hmoves.2 (roots.push ⟨m, Score.one - (p.advance m).evaluate, wins, warmup.toUInt32⟩) g₁
    refine ⟨roots', g', ?_, ?_⟩
    · rw [warmUp_cons haccepts, hwins]
      exact hrest
    · rw [hcandidates, candidates_push, List.append_assoc]
      rfl

theorem better_lt {roots : Array (Root α)} {best i : Nat} (hbest : best < roots.size) (hi : i < roots.size) :
    better roots best i < roots.size := by
  unfold better
  split
  · split
    · exact hi
    · exact hbest
  · exact hbest

theorem leader_lt {roots : Array (Root α)} (h : 0 < roots.size) : leader roots < roots.size := by
  unfold leader
  refine List.foldlRecOn (motive := fun best => best < roots.size) _ (better roots) h ?_
  intro best hbest i hi
  exact better_lt hbest (List.mem_range.1 hi)

theorem pickRoot_of_chance {epsilon : Float} (hchance : ∀ g : σ, ∃ event g', chance epsilon g = (.ok event, g'))
    {size best : Nat} (hbest : best < size) (g : σ) :
    ∃ i g', pickRoot epsilon size best g = (.ok i, g') ∧ i < size := by
  obtain ⟨event, g₁, hevent⟩ := hchance g
  unfold pickRoot
  rw [hevent]
  cases event with
  | false => exact ⟨best, g₁, rfl, hbest⟩
  | true =>
    have hsize : 0 < size := by omega
    simp only [hsize, dif_pos]
    exact ⟨_, _, rfl, Fin.isLt _⟩

/-- Sampling keeps the moves of the roots and always has a leader among them. -/
theorem refine_of_playable {epsilon : Float}
    (hchance : ∀ g : σ, ∃ event g', chance epsilon g = (.ok event, g')) (n : Nat) {best : Nat}
    {roots : Array (Root α)} (hroots : ∀ m ∈ candidates roots, p.Playable σ m) (hbest : best < roots.size)
    (g : σ) :
    ∃ best' roots' g', refine epsilon n best roots p g = (.ok best', roots', p, g') ∧ best' < roots'.size ∧
      candidates roots' = candidates roots := by
  induction n generalizing best roots g with
  | zero => exact ⟨best, roots, g, rfl, hbest, rfl⟩
  | succ n ih =>
    obtain ⟨i, g₁, hpick, hi⟩ := pickRoot_of_chance hchance hbest g
    have hroot : roots[i]? = some roots[i] := Array.getElem?_eq_getElem hi
    obtain ⟨wins, g₂, hwins⟩ := (hroots _ (move_mem_candidates hi)).2 1 0 g₁
    let credit : Root α → Root α := fun r => { r with wins := r.wins + wins, visits := r.visits + 1 }
    have hsame : candidates (roots.modify i credit) = candidates roots := candidates_modify roots i fun _ => rfl
    have hsize : (roots.modify i credit).size = roots.size := Array.size_modify
    obtain ⟨best', roots', g', hrest, hbest', hcandidates⟩ :=
      ih (hsame ▸ hroots) (better_lt (hsize ▸ hbest) (hsize ▸ hi)) g₂
    refine ⟨best', roots', g', ?_, hbest', hcandidates.trans hsame⟩
    simp only [refine, hpick, hroot, hwins]
    exact hrest

theorem sample_of_playable (a : Greedy α σ) (hepsilon : a.config.epsilon.isNaN = false)
    {moves : List Move} (hmoves : ∀ m ∈ moves, p.Playable σ m) (hne : moves ≠ []) (g : σ) :
    ∃ m a', sample a p moves g = (.ok (m, .sampling), a', p) ∧ m ∈ moves ∧ a'.config = a.config := by
  obtain ⟨roots, g₁, hwarm, hcandidates⟩ := warmUp_of_playable a.config.warmup moves hmoves (#[] : Array (Root α)) g
  have hroots : candidates roots = moves := hcandidates
  have hsize : 0 < roots.size := by
    have hlength := List.length_pos_of_ne_nil hne
    rwa [← hroots, candidates, List.length_map, Array.length_toList] at hlength
  obtain ⟨best, roots', g', hrefine, hbest, hkept⟩ := refine_of_playable
    (Config.chance_chanceAt hepsilon p.ply) a.config.iterations (hroots.symm ▸ hmoves) (leader_lt hsize) g₁
  refine ⟨roots'[best].move, ⟨a.config, g', roots'⟩, ?_, ?_, rfl⟩
  · simp only [sample, hwarm, hrefine, Array.getElem?_eq_getElem hbest]
    rfl
  · rw [← hroots, ← hkept]
    exact move_mem_candidates hbest

/-- **The greedy agent answers**, by a winning move, a capture or sampling. -/
theorem choose_of_game (a : Greedy α σ) (h : p.Game) (hlost : p.isLost = false)
    (hepsilon : a.config.epsilon.isNaN = false) :
    ∃ m reason a', a.choose p = (.ok (m, reason), a', p) ∧ p.isLegal m = true ∧ a'.config = a.config := by
  have hlegal : ∀ m ∈ p.moves, p.isLegal m = true := fun m hm => h.isLegal_of_mem_moves hlost hm
  unfold choose
  simp only [hlost, Bool.false_eq_true, if_false]
  split
  · rename_i m hm
    exact ⟨m, .win, a, rfl, hlegal m (List.mem_of_find?_eq_some hm), rfl⟩
  · split
    · rename_i m g hpick
      exact ⟨m, .capture, _, rfl, hlegal m (List.mem_of_mem_filter (mem_of_pick? hpick)), rfl⟩
    · rename_i g _
      obtain ⟨m, a', heq, hm, hconfig⟩ :=
        sample_of_playable a hepsilon (fun m hm => h.playable (hlegal m hm)) (h.moves_ne_nil hlost) g
      exact ⟨m, .sampling, a', heq, hlegal m hm, hconfig⟩

/-! ### The position comes back -/

theorem position_warmUp (warmup : Nat) (moves : List Move) (roots : Array (Root α)) (p : Position) (g : σ) :
    (warmUp warmup moves roots p g).2.2.1 = p := by
  induction moves generalizing roots g with
  | nil => rfl
  | cons m moves ih =>
    cases hm : p.refusal? m with
    | some e => rw [warmUp, hm]
    | none =>
      have hp := position_countWins m warmup 0 p g
      rw [warmUp_cons ((Position.refusal?_eq_none_iff p m).1 hm)]
      split
      · rename_i hr
        rw [hr] at hp
        exact hp
      · rename_i hr
        rw [hr] at hp
        simp only at hp
        rw [hp]
        exact ih _ _

theorem position_refine (epsilon : Float) (n best : Nat) (roots : Array (Root α)) (p : Position) (g : σ) :
    (refine epsilon n best roots p g).2.2.1 = p := by
  induction n generalizing best roots g with
  | zero => rfl
  | succ n ih =>
    unfold refine
    split
    · rfl
    · rename_i g' _
      split
      · rfl
      · rename_i root _
        have hp := position_countWins root.move 1 0 p g'
        split
        · rename_i hr
          rw [hr] at hp
          exact hp
        · rename_i hr
          rw [hr] at hp
          simp only at hp
          rw [hp]
          exact ih _ _ _

theorem position_sample (a : Greedy α σ) (p : Position) (moves : List Move) (g : σ) :
    (sample a p moves g).2.2 = p := by
  have hwarm := position_warmUp a.config.warmup moves (#[] : Array (Root α)) p g
  unfold sample
  split
  · rename_i hr
    rw [hr] at hwarm
    exact hwarm
  · rename_i roots q g' hr
    rw [hr] at hwarm
    simp only at hwarm
    subst hwarm
    have hrefine := position_refine (a.config.chanceAt q.ply) a.config.iterations (leader roots) roots q g'
    simp only
    split
    all_goals
      rename_i hr
      rw [hr] at hrefine
      exact hrefine

/-- The greedy agent gives the position back, whatever comes of it. -/
theorem position_choose (a : Greedy α σ) (p : Position) : (a.choose p).2.2 = p := by
  unfold choose
  split
  · rfl
  · simp only
    split
    · rfl
    · split
      · rfl
      · exact position_sample a p p.moves _

end Greedy

/-! ## The search -/

/-- A search that succeeds gives the position back. -/
theorem Search.Engine.position_of_choose_ok [Score α] [Confidence α] {e : Engine α σ} {m : Move}
    (hwrap : e.NoWrap p) (hok : (e.choose p).1 = .ok m) : (e.choose p).2.2.2 = p := by
  unfold NoWrap stations at hwrap
  unfold choose at hok ⊢
  split at hok
  · cases hok
  rename_i hlost
  rw [if_neg hlost] at hwrap ⊢
  obtain ⟨result, e', hroot, hpath, _⟩ := e.enterRoot_keeps p
  rw [hroot] at hwrap hok ⊢
  cases result with
  | error err => cases hok
  | ok root =>
    have haccounted := accounted_iterateTimes e'.config.iterations e' p root hpath hwrap
    simp only at hok ⊢
    split at hok
    · cases hok
    · rename_i hr
      rw [hr] at haccounted
      exact haccounted.position_eq rfl

/-! ## Players -/

namespace Player

variable {S : Position → Prop}

/-- What a player needs to answer: the graph of a search knows positions of the set only, and the setting of the
greedy agent is a number. -/
def Fit (S : Position → Prop) : Player → Prop
  | search engine => engine.graph.Sound S
  | greedy agent => agent.config.epsilon.isNaN = false
  | random _ => True

theorem fit_new {kind : PlayerKind} {settings : Settings}
    (hepsilon : kind = .greedy → settings.greedy.epsilon.isNaN = false) (seed : Option UInt64)
    (fresh : ChaCha.Key) : (new kind settings seed fresh).Fit S := by
  cases kind with
  | search => exact Search.Graph.sound_empty
  | greedy => exact hepsilon rfl
  | random => trivial

/-- A search of the position wraps no visit counter and meets positions of the set only. The other players meet
none that they remember. -/
def StaysIn (S : Position → Prop) : Player → Position → Prop
  | search engine, p => engine.NoWrap p ∧ ∀ q ∈ engine.met p, S q
  | _, _ => True

/-- A search of the position wraps no visit counter. -/
def NoWrap : Player → Position → Prop
  | search engine, p => engine.NoWrap p
  | _, _ => True

theorem kind_new (kind : PlayerKind) (settings : Settings) (seed : Option UInt64) (fresh : ChaCha.Key) :
    (new kind settings seed fresh).kind = kind := by
  cases kind <;> rfl

theorem kind_choose (player : Player) (p : Position) : (player.choose p).2.2.1.kind = player.kind := by
  cases player <;> rfl

theorem StaysIn.noWrap {player : Player} (h : player.StaysIn S p) : player.NoWrap p := by
  cases player with
  | search e => exact h.1
  | greedy a => trivial
  | random a => trivial

theorem StaysIn.mono {player : Player} {S' : Position → Prop} (h : player.StaysIn S p) (hsub : ∀ q, S q → S' q) :
    player.StaysIn S' p := by
  cases player with
  | search e => exact ⟨h.1, fun q hq => hsub q (h.2 q hq)⟩
  | greedy a => trivial
  | random a => trivial

/-- A player that answers gives the position back. -/
theorem position_of_choose_ok {player player' : Player} {p q : Position} {m : Move} {lines : List LogLine}
    (hwrap : player.NoWrap p) (hchoose : player.choose p = (.ok m, lines, player', q)) : q = p := by
  cases player with
  | search e =>
    have hok : (e.choose p).1 = .ok m := congrArg Prod.fst hchoose
    exact (congrArg (fun r => r.2.2.2) hchoose).symm.trans (Search.Engine.position_of_choose_ok hwrap hok)
  | greedy a => exact (congrArg (fun r => r.2.2.2) hchoose).symm.trans (a.position_choose p)
  | random a => exact (congrArg (fun r => r.2.2.2) hchoose).symm

/-- **A fit player answers** in every game that is not over: with a legal move, the position being as it was
and the player still fit. -/
theorem choose_of_game (player : Player) (h : p.Game) (hlost : p.isLost = false)
    (hfree : Position.CollisionFree S) (hfit : player.Fit S) (hstays : player.StaysIn S p) :
    ∃ m lines player', player.choose p = (.ok m, lines, player', p) ∧ p.isLegal m = true ∧ player'.Fit S := by
  cases player with
  | search e =>
    obtain ⟨hsound, hanswer⟩ := e.choose_of_sound h hfit hfree hstays.1 hstays.2
    obtain ⟨m, hok, hlegal, _⟩ := hanswer hlost
    have hposition := Search.Engine.position_of_choose_ok hstays.1 hok
    refine ⟨m, (e.choose p).2.1, .search (e.choose p).2.2.1, ?_, hlegal, hsound⟩
    simp only [choose, hok, hposition]
  | greedy a =>
    obtain ⟨m, reason, a', heq, hlegal, hconfig⟩ := a.choose_of_game h hlost hfit
    refine ⟨m, a'.report (.ok (m, reason)), .greedy a', ?_, hlegal, ?_⟩
    · simp only [choose, heq]
      rfl
    · rw [Fit, hconfig]
      exact hfit
  | random a =>
    obtain ⟨m, a', heq, hlegal⟩ := a.choose_of_game h hlost
    refine ⟨m, [], .random a', ?_, hlegal, trivial⟩
    simp only [choose, heq]

end Player

end Breakthrough
