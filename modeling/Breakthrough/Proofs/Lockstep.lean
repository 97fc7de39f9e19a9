import Breakthrough.Proofs.Conservation

/-!
# A search does not look at the history

Positions with the same board, side to move and keys may have been reached by different moves. Such positions are
`Alike`: only the ply and the history tell them apart. A search plays and takes back moves on them, so their
histories stay different all the time, but what it does is the same on both, step by step. The one thing that can
come between them is the end of the history, which one of them reaches before the other. `Agree` says of two
outcomes that they are the same unless this has happened; every phase of a search is shown to keep it, up to
`choose_independent_of_history`.
-/

namespace Breakthrough

namespace Position

variable {p q : Position}

/-! ## Positions that differ in their histories -/

/-- The positions are the same but for the ply and the history, whose newest hashes are the same. -/
structure Alike (p q : Position) : Prop where
  keys : p.keys = q.keys
  board : p.board = q.board
  white : p.white = q.white
  black : p.black = q.black
  side : p.side = q.side
  hash : p.hash = q.hash

theorem Consistent.alike (hp : p.Consistent) (hq : q.Consistent) (hkeys : p.keys = q.keys)
    (hboard : p.board = q.board) (hside : p.side = q.side) : p.Alike q :=
  ⟨hkeys, hboard, hp.pawns_eq hq hboard .white, hp.pawns_eq hq hboard .black, hside,
    hp.hash_eq hq hkeys hboard hside⟩

namespace Alike

theorem cell (h : p.Alike q) (s : Square) : p.cell s = q.cell s := by
  rw [Position.cell, Position.cell, h.board]

theorem pawns (h : p.Alike q) (c : Color) : p.pawns c = q.pawns c := by
  cases c
  · exact h.white
  · exact h.black

theorem vacant (h : p.Alike q) : p.vacant = q.vacant := by
  rw [Position.vacant, Position.vacant, h.white, h.black]

theorem isLost (h : p.Alike q) : p.isLost = q.isLost := by
  rw [Position.isLost, Position.isLost, intruders, intruders, canMove, canMove, h.side, h.vacant]
  simp only [h.pawns]

theorem moves (h : p.Alike q) : p.moves = q.moves := by
  have hfrom : p.movesFrom = q.movesFrom := by
    funext s
    rw [movesFrom, movesFrom, h.side, h.vacant, h.pawns]
  rw [moves_eq, moves_eq, hfrom, h.side, h.pawns]

theorem advance (h : p.Alike q) (m : Move) : (p.advance m).Alike (q.advance m) := by
  have hpawns : ∀ c, (p.advance m).pawns c = (q.advance m).pawns c := by
    intro c
    by_cases hc : c = p.side
    · rw [hc, pawns_advance_self, h.side, pawns_advance_self, h.pawns]
    · rw [Color.eq_opponent_of_ne hc, pawns_advance_opponent, h.side, pawns_advance_opponent, h.pawns, h.cell]
  refine ⟨h.keys, ?_, hpawns .white, hpawns .black, ?_, ?_⟩
  · rw [Position.advance, Position.advance, h.board, h.side]
  · rw [side_advance, side_advance, h.side]
  · rw [hash_advance, hash_advance, hashAfter, hashAfter, h.hash, h.keys, h.side, h.cell]

/-- A move is accepted by both positions or refused by both for the same cause, if not for a full history. -/
theorem refusal?_cases (h : p.Alike q) (m : Move) :
    (p.refusal? m = none ∧ q.refusal? m = none) ∨
    (∃ e, p.refusal? m = some e ∧ q.refusal? m = some e) ∨
    p.refusal? m = some (.plyLimit maxPly) ∨ q.refusal? m = some (.plyLimit maxPly) := by
  unfold refusal?
  rw [h.isLost, h.cell, h.cell, h.side]
  split
  · exact .inr (.inl ⟨_, rfl, rfl⟩)
  split
  · exact .inr (.inl ⟨_, rfl, rfl⟩)
  split
  · exact .inr (.inl ⟨_, rfl, rfl⟩)
  split
  · exact .inr (.inl ⟨_, rfl, rfl⟩)
  split
  · exact .inr (.inr (.inl rfl))
  split
  · exact .inr (.inr (.inr rfl))
  · exact .inl ⟨rfl, rfl⟩

end Alike

/-- The same moves, at least `n` of them, were accepted last in both of two positions that are alike. -/
inductive Abreast : Nat → Position → Position → Prop
  | base {p q : Position} : p.Alike q → Abreast 0 p q
  | step {n : Nat} {p q : Position} {m : Move} :
      Abreast n p q → p.Accepts m → q.Accepts m → Abreast (n + 1) (p.advance m) (q.advance m)

/-- A legal move of a game can be played. -/
theorem Game.play {m : Move} (h : p.Game) (hm : p.isLegal m = true) : (p.call (.play m)).2.Game := by
  rw [call_play, (refusal?_eq_none_iff p m).2 (h.accepts hm)]
  exact h.step hm

theorem Abreast.alike {n : Nat} (h : Abreast n p q) : p.Alike q := by
  induction h with
  | base h => exact h
  | step _ _ _ ih => exact ih.advance _

end Position

/-! ## Outcomes that agree -/

/-- Two outcomes of one computation, with the states they leave: the results are the same and the states are
related, unless one of the results is that the history is full. -/
inductive Agree {β γ : Type} (R : γ → γ → Prop) : Except Error β × γ → Except Error β × γ → Prop
  | ok {b : β} {c d : γ} : R c d → Agree R (.ok b, c) (.ok b, d)
  | error {err : Error} {c d : γ} : R c d → Agree R (.error err, c) (.error err, d)
  | left {limit : Nat} {c : γ} {y : Except Error β × γ} : Agree R (.error (.plyLimit limit), c) y
  | right {limit : Nat} {d : γ} {x : Except Error β × γ} : Agree R x (.error (.plyLimit limit), d)

namespace Agree

variable {β γ : Type} {R R' : γ → γ → Prop} {x y : Except Error β × γ}

theorem imp (h : Agree R x y) (himp : R x.2 y.2 → R' x.2 y.2) : Agree R' x y := by
  cases h with
  | ok h => exact .ok (himp h)
  | error h => exact .error (himp h)
  | left => exact .left
  | right => exact .right

theorem eq_of_room (h : Agree R x y) (hx : ∀ limit, x.1 ≠ .error (.plyLimit limit))
    (hy : ∀ limit, y.1 ≠ .error (.plyLimit limit)) : x.1 = y.1 ∧ R x.2 y.2 := by
  cases h with
  | ok h => exact ⟨rfl, h⟩
  | error h => exact ⟨rfl, h⟩
  | left => exact absurd rfl (hx _)
  | right => exact absurd rfl (hy _)

end Agree

/-! ## Playouts -/

section Playouts

variable {σ : Type} [RandomSource σ] {p q : Position}

open Position

theorem playToEnd_of_refusal {g g' : σ} {m : Move} {e : Error} (hlost : ¬ p.isLost = true)
    (hc : chooseMove p.moves g = (.ok m, g')) (he : p.refusal? m = some e) :
    playToEnd p g = (.error e, p, g') := by
  rw [playToEnd, if_neg hlost, hc]
  simp only
  split
  · rename_i h; rw [he] at h; cases h; rfl
  · rename_i h; rw [he] at h; cases h

theorem playToEnd_of_accepted {g g' : σ} {m : Move} (hlost : ¬ p.isLost = true)
    (hc : chooseMove p.moves g = (.ok m, g')) (hm : p.refusal? m = none) :
    playToEnd p g = playToEnd (p.advance m) g' := by
  rw [playToEnd, if_neg hlost, hc]
  simp only
  split
  · rename_i h; rw [hm] at h; cases h
  · rfl

theorem agree_playToEnd (h : p.Alike q) (g : σ) :
    Agree (fun c d => c.1.Alike d.1 ∧ c.2 = d.2) (playToEnd p g) (playToEnd q g) := by
  fun_induction playToEnd p g generalizing q with
  | case1 p g hlost =>
    rw [playToEnd, if_pos (h.isLost ▸ hlost)]
    exact .ok ⟨h, rfl⟩
  | case2 p g hlost e g' hc =>
    rw [playToEnd, if_neg (h.isLost ▸ hlost), ← h.moves, hc]
    exact .error ⟨h, rfl⟩
  | case3 p g hlost m g' hc e he =>
    have hlost' : ¬ q.isLost = true := h.isLost ▸ hlost
    have hc' : chooseMove q.moves g = (.ok m, g') := h.moves ▸ hc
    rcases h.refusal?_cases m with ⟨hm, _⟩ | ⟨e', hsame, he'⟩ | hfull | hfull
    · rw [he] at hm
      cases hm
    · rw [he] at hsame
      cases hsame
      rw [playToEnd_of_refusal hlost' hc' he']
      exact .error ⟨h, rfl⟩
    · rw [he] at hfull
      cases hfull
      exact .left
    · rw [playToEnd_of_refusal hlost' hc' hfull]
      exact .right
  | case4 p g hlost m g' hc hm ih =>
    have hlost' : ¬ q.isLost = true := h.isLost ▸ hlost
    have hc' : chooseMove q.moves g = (.ok m, g') := h.moves ▸ hc
    rcases h.refusal?_cases m with ⟨_, hm'⟩ | ⟨e', hsame, _⟩ | hfull | hfull
    · rw [playToEnd_of_accepted hlost' hc' hm']
      exact ih (h.advance m)
    · rw [hm] at hsame
      cases hsame
    · rw [hm] at hfull
      cases hfull
    · rw [playToEnd_of_refusal hlost' hc' hfull]
      exact .right

/-- A playout has the same winner and draws the same words. -/
theorem agree_playout (h : p.Alike q) (first : Move) (g : σ) :
    Agree (fun c d => ∃ g', c = (p, g') ∧ d = (q, g')) (playout p first g) (playout q first g) := by
  have hp := position_playout p first g
  have hq := position_playout q first g
  refine Agree.imp (R := fun c d => c.2 = d.2) ?_ fun hsame =>
    ⟨_, Prod.ext hp rfl, Prod.ext hq hsame.symm⟩
  clear hp hq
  unfold playout
  rcases h.refusal?_cases first with ⟨hm, hm'⟩ | ⟨e, he, he'⟩ | hfull | hfull
  · have hend := agree_playToEnd (h.advance first) g
    rw [hm, hm']
    simp only
    generalize playToEnd (p.advance first) g = x at hend ⊢
    generalize playToEnd (q.advance first) g = y at hend ⊢
    cases hend with
    | ok hend =>
      simp only [hend.1.side]
      exact .ok hend.2
    | error hend => exact .error hend.2
    | left => exact .left
    | right => exact .right
  · rw [he, he']
    exact .error rfl
  · rw [hfull]
    exact .left
  · rw [hfull]
    exact .right

theorem agree_countWins (h : p.Alike q) (first : Move) (n wins : Nat) (g : σ) :
    Agree (fun c d => ∃ g', c = (p, g') ∧ d = (q, g')) (countWins first n wins p g)
      (countWins first n wins q g) := by
  induction n generalizing wins g with
  | zero => exact .ok ⟨g, rfl, rfl⟩
  | succ n ih =>
    have hplayout := agree_playout h first g
    unfold countWins
    generalize playout p first g = x at hplayout ⊢
    generalize playout q first g = y at hplayout ⊢
    cases hplayout with
    | ok hsame =>
      obtain ⟨g', rfl, rfl⟩ := hsame
      simp only [h.side]
      exact ih _ _
    | error hsame => exact .error hsame
    | left => exact .left
    | right => exact .right

end Playouts

namespace Search

variable {α σ : Type} [Score α] [RandomSource σ] {p q : Position}

open Position

/-! ## Expansions -/

/-- The same state, with the positions that were given. -/
def Home {γ : Type} (p q : Position) (c d : γ × Position) : Prop := ∃ state, c = (state, p) ∧ d = (state, q)

theorem Sampler.agree_sample (s : Sampler σ) (h : p.Alike q) (m : Move) (n : Nat) :
    Agree (β := α) (Home p q) (s.sample p m n) (s.sample q m n) := by
  unfold sample
  split
  · exact .ok ⟨s, rfl, rfl⟩
  have hwins := agree_countWins h m n 0 s.source
  generalize countWins m n 0 p s.source = x at hwins ⊢
  generalize countWins m n 0 q s.source = y at hwins ⊢
  cases hwins with
  | ok hsame =>
    obtain ⟨g', rfl, rfl⟩ := hsame
    exact .ok ⟨_, rfl, rfl⟩
  | error hsame =>
    obtain ⟨g', rfl, rfl⟩ := hsame
    exact .error ⟨_, rfl, rfl⟩
  | left => exact .left
  | right => exact .right

namespace Engine

theorem agree_seedEdges (h : p.Alike q) (samples : Nat) (moves : List Move) (s : Sampler σ) :
    Agree (β := List (Edge α)) (Home p q) (seedEdges samples moves s p) (seedEdges samples moves s q) := by
  induction moves generalizing s with
  | nil => exact .ok ⟨s, rfl, rfl⟩
  | cons m moves ih =>
    have hsample := s.agree_sample (α := α) h m samples
    unfold seedEdges
    generalize (s.sample p m samples : Except Error α × Sampler σ × Position) = x at hsample ⊢
    generalize (s.sample q m samples : Except Error α × Sampler σ × Position) = y at hsample ⊢
    cases hsample with
    | ok hsame =>
      obtain ⟨s', rfl, rfl⟩ := hsame
      have hrest := ih s'
      simp only
      generalize (seedEdges samples moves s' p : Except Error (List (Edge α)) × Sampler σ × Position) = x
        at hrest ⊢
      generalize (seedEdges samples moves s' q : Except Error (List (Edge α)) × Sampler σ × Position) = y
        at hrest ⊢
      cases hrest with
      | ok hsame =>
        obtain ⟨s₁, rfl, rfl⟩ := hsame
        exact .ok ⟨s₁, rfl, rfl⟩
      | error hsame => exact .error hsame
      | left => exact .left
      | right => exact .right
    | error hsame => exact .error hsame
    | left => exact .left
    | right => exact .right

/-- An expansion gives the node the same edges. -/
theorem agree_expand (h : p.Alike q) (e : Engine α σ) (id : Nat) :
    Agree (Home p q) (e.expand p id) (e.expand q id) := by
  have hseed := agree_seedEdges (α := α) h e.config.samples (if p.isLost then [] else p.moves) e.sampler
  unfold expand
  rw [← h.isLost, ← h.moves]
  simp only
  generalize (seedEdges e.config.samples (if p.isLost then [] else p.moves) e.sampler p :
    Except Error (List (Edge α)) × Sampler σ × Position) = x at hseed ⊢
  generalize (seedEdges e.config.samples (if p.isLost then [] else p.moves) e.sampler q :
    Except Error (List (Edge α)) × Sampler σ × Position) = y at hseed ⊢
  cases hseed with
  | ok hsame =>
    obtain ⟨s', rfl, rfl⟩ := hsame
    exact .ok ⟨_, rfl, rfl⟩
  | error hsame =>
    obtain ⟨s', rfl, rfl⟩ := hsame
    exact .error ⟨_, rfl, rfl⟩
  | left => exact .left
  | right => exact .right

theorem agree_evaluateLeaf (h : p.Alike q) (e : Engine α σ) (leaf : Nat) :
    Agree (Home p q) (e.evaluateLeaf p leaf) (e.evaluateLeaf q leaf) := by
  have hreward : (terminalReward p : α) = terminalReward q := by
    rw [terminalReward, terminalReward, h.isLost]
  unfold evaluateLeaf
  split
  · rw [hreward]
    exact .ok ⟨_, rfl, rfl⟩
  have hexpand := agree_expand h e leaf
  generalize e.expand p leaf = x at hexpand ⊢
  generalize e.expand q leaf = y at hexpand ⊢
  cases hexpand with
  | ok hsame =>
    obtain ⟨e', rfl, rfl⟩ := hsame
    simp only [hreward]
    cases (e'.graph.node leaf).edges[0]? with
    | some best => exact .ok ⟨e', rfl, rfl⟩
    | none => exact .ok ⟨e', rfl, rfl⟩
  | error hsame => exact .error hsame
  | left => exact .left
  | right => exact .right

theorem agree_enterRoot (h : p.Alike q) (e : Engine α σ) :
    Agree (Home p q) (e.enterRoot p) (e.enterRoot q) := by
  have hroot : e.atRoot p = e.atRoot q ∧ e.rootOf p = e.rootOf q := by
    rw [atRoot, atRoot, rootOf, rootOf, h.hash]
    exact ⟨rfl, rfl⟩
  rw [enterRoot_eq, enterRoot_eq, hroot.1, hroot.2]
  split
  · exact .ok ⟨_, rfl, rfl⟩
  have hexpand := agree_expand h (e.atRoot q) (e.rootOf q)
  generalize (e.atRoot q).expand p (e.rootOf q) = x at hexpand ⊢
  generalize (e.atRoot q).expand q (e.rootOf q) = y at hexpand ⊢
  cases hexpand with
  | ok hsame =>
    obtain ⟨e', rfl, rfl⟩ := hsame
    exact .ok ⟨e', rfl, rfl⟩
  | error hsame => exact .error hsame
  | left => exact .left
  | right => exact .right

/-! ## The way down and back -/

/-- The same engine on two positions that are abreast for the length of the path at least. -/
def InStep (c d : Engine α σ × Position) : Prop :=
  ∃ e p q n, c = (e, p) ∧ d = (e, q) ∧ e.path.length ≤ n ∧ Abreast n p q

section Descent

variable [Confidence α]

omit [RandomSource σ] in
theorem agree_descend (s : Station α σ) {n : Nat} (hlen : s.engine.path.length ≤ n)
    (h : Abreast n s.position q) :
    Agree InStep (s.engine.descend s.position s.node) (s.engine.descend q s.node) := by
  -- the way down ends because the history of the first position fills up
  induction hroom : maxPly - s.position.depth using Nat.strong_induction_on generalizing s q n with
  | _ room ih =>
    let s' : Station α σ := ⟨s.engine, q, s.node⟩
    cases hleaf : s.isLeaf with
    | true =>
      rw [descend_of_isLeaf hleaf, descend_of_isLeaf (s := s') hleaf]
      exact .ok ⟨_, _, _, n, rfl, rfl, hlen, h⟩
    | false =>
      obtain ⟨_, edge, hedge⟩ := Station.isLeaf_eq_false hleaf
      rcases h.alike.refusal?_cases edge.move with ⟨hm, hm'⟩ | ⟨err, he, he'⟩ | hfull | hfull
      · have hnext : s.next? = some (s.follow edge.move) := Station.next?_of_accepted hleaf hedge hm
        have hnext' : s'.next? = some (s'.follow edge.move) := Station.next?_of_accepted hleaf hedge hm'
        have hfollow : s'.follow edge.move =
            ⟨(s.follow edge.move).engine, q.advance edge.move, (s.follow edge.move).node⟩ := by
          have hhash := (h.alike.advance edge.move).hash
          unfold Station.follow
          simp only [hhash]
          rfl
        rw [descend_of_next? hnext, descend_of_next? (s := s') hnext', hfollow]
        refine ih _ ?_ (s.follow edge.move) (n := n + 1) (Nat.succ_le_succ hlen) (.step h ?_ ?_) rfl
        · rw [← hroom]
          exact Station.room_next?_lt hnext
        · exact (refusal?_eq_none_iff _ _).1 hm
        · exact (refusal?_eq_none_iff _ _).1 hm'
      · rw [descend_of_refusal hleaf hedge he, descend_of_refusal (s := s') hleaf hedge he']
        exact .error ⟨_, _, _, n, rfl, rfl, hlen, h⟩
      · rw [descend_of_refusal hleaf hedge hfull]
        exact .left
      · rw [descend_of_refusal (s := s') hleaf hedge hfull]
        exact .right

end Descent

omit [RandomSource σ] in
/-- Crediting a path reads the same edges. A move that does not match its step is refused in both positions, and
the path is never longer than the part of the history that they have in common. -/
theorem agree_creditPath {n : Nat} (path : List Step) (reward : α) (g : Graph α) (hlen : path.length ≤ n)
    (h : Abreast n p q) :
    Agree (fun c d => c.1 = d.1 ∧ c.2.1 = d.2.1 ∧ ∃ n, c.1.length ≤ n ∧ Abreast n c.2.2 d.2.2)
      (creditPath path reward g p) (creditPath path reward g q) := by
  induction path generalizing n reward g p q with
  | nil => exact .ok ⟨rfl, rfl, n, Nat.zero_le n, h⟩
  | cons step path ih =>
    unfold creditPath
    cases (g.node step.node).edges[step.edge]? with
    | none => exact .error ⟨rfl, rfl, n, Nat.le_of_succ_le hlen, h⟩
    | some edge =>
      cases h with
      | base h => cases hlen
      | @step n p q m h hm hm' =>
        simp only [takeBackRefusal?_advance, retract_advance hm, retract_advance hm']
        by_cases hmove : m = edge.move
        · simp only [if_pos hmove]
          exact ih _ _ (Nat.le_of_succ_le_succ hlen) h
        · simp only [if_neg hmove]
          exact .error ⟨rfl, rfl, n + 1, Nat.le_of_succ_le hlen, .step h hm hm'⟩

omit [Score α] [RandomSource σ] in
theorem lines_abandonPath {n : Nat} (path : List Step) (g : Graph α) (hlen : path.length ≤ n)
    (h : Abreast n p q) : (abandonPath g path p).1 = (abandonPath g path q).1 := by
  induction path generalizing n p q with
  | nil => rfl
  | cons step path ih =>
    unfold abandonPath
    cases (g.node step.node).edges[step.edge]? with
    | none => rfl
    | some edge =>
      cases h with
      | base h => cases hlen
      | @step n p q m h hm hm' =>
        simp only [takeBackRefusal?_advance, retract_advance hm, retract_advance hm']
        by_cases hmove : m = edge.move
        · simp only [if_pos hmove]
          exact ih (Nat.le_of_succ_le_succ hlen) h
        · simp only [if_neg hmove]

theorem path_expand (e : Engine α σ) (p : Position) (id : Nat) : (e.expand p id).2.1.path = e.path := by
  rcases e.expand_cases p id with ⟨_, _, _, heq⟩ | ⟨_, _, _, heq⟩
  · rw [heq]
  · rw [heq]

theorem path_evaluateLeaf (e : Engine α σ) (p : Position) (leaf : Nat) :
    (e.evaluateLeaf p leaf).2.1.path = e.path := by
  have hexpand := e.path_expand p leaf
  rcases e.evaluateLeaf_cases p leaf with ⟨_, _, heq⟩ | ⟨_, _, _, hexp, heq⟩ | ⟨_, _, _, hexp, heq⟩
  · rw [heq]
  · rw [hexp] at hexpand
    rwa [heq]
  · rw [hexp] at hexpand
    rwa [heq]

/-! ## Whole searches -/

variable [Confidence α]

theorem agree_iterate {n : Nat} (e : Engine α σ) (root : Nat) (hlen : e.path.length ≤ n) (h : Abreast n p q) :
    Agree InStep (e.iterate p root) (e.iterate q root) := by
  have hdescend := agree_descend ⟨e, p, root⟩ hlen h
  unfold iterate
  simp only at hdescend
  generalize e.descend p root = x at hdescend ⊢
  generalize e.descend q root = y at hdescend ⊢
  cases hdescend with
  | error hstep => exact .error hstep
  | left => exact .left
  | right => exact .right
  | @ok leaf _ _ hstep =>
    obtain ⟨e, p, q, n, rfl, rfl, hlen, h⟩ := hstep
    have hleaf := agree_evaluateLeaf h.alike e leaf
    have hpath := e.path_evaluateLeaf p leaf
    simp only
    generalize e.evaluateLeaf p leaf = x at hleaf hpath ⊢
    generalize e.evaluateLeaf q leaf = y at hleaf ⊢
    cases hleaf with
    | left => exact .left
    | right => exact .right
    | error hsame =>
      obtain ⟨e', rfl, rfl⟩ := hsame
      exact .error ⟨e', p, q, n, rfl, rfl, hpath ▸ hlen, h⟩
    | @ok reward _ _ hsame =>
      obtain ⟨e', rfl, rfl⟩ := hsame
      have hcredit := agree_creditPath e'.path reward e'.graph (hpath ▸ hlen) h
      simp only
      generalize creditPath e'.path reward e'.graph p = x at hcredit ⊢
      generalize creditPath e'.path reward e'.graph q = y at hcredit ⊢
      cases hcredit with
      | left => exact .left
      | right => exact .right
      | @ok _ c d hback =>
        obtain ⟨path, g, p'⟩ := c
        obtain ⟨_, _, q'⟩ := d
        obtain ⟨rfl, rfl, n', hlen', h'⟩ := hback
        exact .ok ⟨_, p', q', n', rfl, rfl, hlen', h'⟩
      | @error _ c d hback =>
        obtain ⟨path, g, p'⟩ := c
        obtain ⟨_, _, q'⟩ := d
        obtain ⟨rfl, rfl, n', hlen', h'⟩ := hback
        exact .error ⟨_, p', q', n', rfl, rfl, hlen', h'⟩

theorem agree_iterateTimes {n : Nat} (k : Nat) (e : Engine α σ) (root : Nat) (hlen : e.path.length ≤ n)
    (h : Abreast n p q) : Agree InStep (iterateTimes k e p root) (iterateTimes k e q root) := by
  induction k generalizing e n p q with
  | zero => exact .ok ⟨e, p, q, n, rfl, rfl, hlen, h⟩
  | succ k ih =>
    have hone := agree_iterate e root hlen h
    unfold iterateTimes
    generalize e.iterate p root = x at hone ⊢
    generalize e.iterate q root = y at hone ⊢
    cases hone with
    | ok hstep =>
      obtain ⟨e', p', q', n', rfl, rfl, hlen', h'⟩ := hstep
      exact ih e' hlen' h'
    | error hstep => exact .error hstep
    | left => exact .left
    | right => exact .right

/-- A search of two positions that are alike writes the same lines and leaves the same engine. -/
theorem agree_choose (h : p.Alike q) (e : Engine α σ) :
    Agree (fun c d => c.1 = d.1 ∧ c.2.1 = d.2.1) (e.choose p) (e.choose q) := by
  obtain ⟨_, _, hkeeps, hpath, _⟩ := e.enterRoot_keeps p
  replace hpath : (e.enterRoot p).2.1.path = [] := by rw [hkeeps]; exact hpath
  have hroot := agree_enterRoot h e
  unfold choose
  rw [← h.isLost, h.side]
  split
  · exact .error ⟨rfl, rfl⟩
  generalize e.enterRoot p = x at hroot hpath ⊢
  generalize e.enterRoot q = y at hroot ⊢
  cases hroot with
  | left => exact .left
  | right => exact .right
  | error hsame =>
    obtain ⟨e₁, rfl, rfl⟩ := hsame
    exact .error ⟨rfl, rfl⟩
  | @ok root _ _ hsame =>
    obtain ⟨e₁, rfl, rfl⟩ := hsame
    have htimes := agree_iterateTimes e₁.config.iterations e₁ root (Nat.le_of_eq (congrArg List.length hpath))
      (.base h)
    simp only [h.hash]
    generalize iterateTimes e₁.config.iterations e₁ p root = x at htimes ⊢
    generalize iterateTimes e₁.config.iterations e₁ q root = y at htimes ⊢
    cases htimes with
    | left => exact .left
    | right => exact .right
    | error hstep =>
      obtain ⟨e₂, p', q', n', rfl, rfl, hlen', h'⟩ := hstep
      exact .error ⟨lines_abandonPath e₂.path e₂.graph hlen' h', rfl⟩
    | ok hstep =>
      obtain ⟨e₂, p', q', n', rfl, rfl, _, _⟩ := hstep
      simp only
      generalize answer _ root q.hash = result
      cases result with
      | ok m => exact .ok ⟨rfl, rfl⟩
      | error err => exact .error ⟨rfl, rfl⟩

/-- **A search does not look at the history.** Let two positions that calls lead to have the same keys, board and
side to move, whatever was played on the way to them. If neither of two searches by the same engine ends because
the history is full, they give the same answer, write the same lines and leave the same engine, with its graph,
random stream and counters. -/
theorem choose_independent_of_history (e : Engine α σ) {b b' : Position} (hb : Origin b) (hb' : Origin b')
    (calls calls' : List Call) (hkeys : (b.run calls).keys = (b'.run calls').keys)
    (hboard : (b.run calls).board = (b'.run calls').board) (hside : (b.run calls).side = (b'.run calls').side)
    (hroom : ∀ limit, (e.choose (b.run calls)).1 ≠ .error (.plyLimit limit))
    (hroom' : ∀ limit, (e.choose (b'.run calls')).1 ≠ .error (.plyLimit limit)) :
    (e.choose (b.run calls)).1 = (e.choose (b'.run calls')).1 ∧
    (e.choose (b.run calls)).2.1 = (e.choose (b'.run calls')).2.1 ∧
    (e.choose (b.run calls)).2.2.1 = (e.choose (b'.run calls')).2.2.1 := by
  have halike := (hb.consistent_run calls).alike (hb'.consistent_run calls') hkeys hboard hside
  exact (agree_choose halike e).eq_of_room hroom hroom'

/-- The same four moves in two orders. -/
theorem choose_independent_of_history_transposed :
    let calls : List Call :=
      [.play ⟨⟨8⟩, ⟨16⟩⟩, .play ⟨⟨48⟩, ⟨40⟩⟩, .play ⟨⟨9⟩, ⟨17⟩⟩, .play ⟨⟨49⟩, ⟨41⟩⟩]
    let calls' : List Call :=
      [.play ⟨⟨9⟩, ⟨17⟩⟩, .play ⟨⟨49⟩, ⟨41⟩⟩, .play ⟨⟨8⟩, ⟨16⟩⟩, .play ⟨⟨48⟩, ⟨40⟩⟩]
    let p := bitStart.run calls
    let q := bitStart.run calls'
    let e : Engine Float ChaCha := .new ⟨1, 1.4, 1, none⟩ (.ofSeed 0) .empty
    p.history.newest.move ≠ q.history.newest.move ∧
    ∃ m, (e.choose p).1 = .ok m ∧ (e.choose q).1 = .ok m ∧ (e.choose p).2.2.1 = (e.choose q).2.2.1 := by
  intro calls calls' p q e
  have hstart : Origin bitStart := .start _
  have hp : p.Game := (((game_bitStart.play (by decide +kernel)).play (by decide +kernel)).play
    (by decide +kernel)).play (by decide +kernel)
  have hq : q.Game := (((game_bitStart.play (by decide +kernel)).play (by decide +kernel)).play
    (by decide +kernel)).play (by decide +kernel)
  have hkeys : p.keys = q.keys := by decide +kernel
  have hboard : p.board = q.board := by decide +kernel
  have hside : p.side = q.side := by decide +kernel
  have hlost : p.isLost = false := by decide +kernel
  have hhash : ∀ m ∈ p.moves, (p.advance m).hash ≠ p.hash := by decide +kernel
  have hinj : ∀ m ∈ p.moves, ∀ n ∈ p.moves, (p.advance m).hash = (p.advance n).hash → m = n := by decide +kernel
  have halike := hp.consistent.alike hq.consistent hkeys hboard hside
  have hafter := fun m => (halike.advance m).hash
  obtain ⟨_, _, m, hm⟩ := choose_of_one_iteration (e := e) rfl rfl hp hlost
    (fun m hm => hhash m ((hp.consistent.isLegal_iff m).1 hm).2) hinj
  rw [halike.isLost] at hlost
  rw [halike.moves, halike.hash] at hhash
  rw [halike.moves] at hinj
  simp only [hafter] at hhash hinj
  obtain ⟨_, _, m', hm'⟩ := choose_of_one_iteration (e := e) rfl rfl hq hlost
    (fun m hm => hhash m ((hq.consistent.isLegal_iff m).1 hm).2) hinj
  obtain ⟨hanswer, _, hengine⟩ := choose_independent_of_history e hstart hstart calls calls' hkeys hboard hside
    (fun _ h => by cases hm.symm.trans h) (fun _ h => by cases hm'.symm.trans h)
  exact ⟨by decide +kernel, m, hm, hanswer.symm.trans hm, hengine⟩

end Engine

end Search

end Breakthrough
