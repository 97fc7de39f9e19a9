import Breakthrough.Proofs.Credit
import Breakthrough.Proofs.Leader
import Breakthrough.Proofs.Rewind

/-!
# What an expansion makes of a node

An expansion gives every move an edge whose value is the mean reward of playouts that begin with it. `Playouts` says
which rewards playouts bring that draw from one stream in turn, and `Seeding` does so for one move after the other.
The engine only counts the playouts that are won; adding up their rewards comes to the same number
(`Playouts.exists_countWins`), because counting up is exact. The edges are then sorted by falling value, and those of
equal value stay in the order of the moves (`filter_sortEdges`).
-/

namespace Breakthrough.Search

open Position

variable {σ : Type} [RandomSource σ] {p q : Position} {m : Move} {g g' : σ}

/-! ## Playouts in a row -/

/-- Playouts that begin with a move, each drawing from the stream where the one before it has stopped: their rewards,
and the stream that they leave. -/
inductive Playouts (p : Position) (m : Move) : σ → List Float → σ → Prop
  | nil (g : σ) : Playouts p m g [] g
  | cons {g g₁ g₂ : σ} {reward : Float} {rewards : List Float} :
      rewound p m g = (.ok reward, p, g₁) → Playouts p m g₁ rewards g₂ → Playouts p m g (reward :: rewards) g₂

/-- The mean of rewards, which are added up in order; without rewards it is 0. -/
def mean (rewards : List Float) : Float :=
  if rewards.isEmpty then 0.0 else rewards.foldl (· + ·) 0.0 / Float.ofNat rewards.length

theorem rewound_eq_ok_iff {reward : Float} : rewound p m g = (.ok reward, p, g') ↔
    ∃ winner, playout p m g = (.ok winner, p, g') ∧ reward = rewardFor p.side winner := by
  rw [rewound_eq]
  rcases playout p m g with ⟨_ | winner, rest⟩
  · simp [Except.map]
  · simp [Except.map, and_comm, eq_comm]

/-- A reward counts in a sum as its playout does among those that are won. -/
theorem ofNat_add_rewardFor {wins : Nat} (h : wins + 1 < UInt32.size) (side winner : Color) :
    Float.ofNat wins + rewardFor side winner = Float.ofNat (if winner = side then wins + 1 else wins) := by
  unfold rewardFor
  split
  · exact Double.ofNat_add_one h
  · exact Double.ofNat_add_zero (Nat.lt_of_succ_lt h)

/-- **Counting the playouts that are won adds up the rewards.** -/
theorem Playouts.exists_countWins {rewards : List Float} (h : Playouts p m g rewards g') (wins : Nat)
    (hwins : wins + rewards.length < UInt32.size) :
    ∃ total, countWins m rewards.length wins p g = (.ok total, p, g') ∧
      Float.ofNat total = rewards.foldl (· + ·) (Float.ofNat wins) := by
  induction h generalizing wins with
  | nil g => exact ⟨wins, rfl, rfl⟩
  | @cons g g₁ g₂ reward rewards hfirst _ ih =>
    obtain ⟨winner, hplayout, rfl⟩ := rewound_eq_ok_iff.1 hfirst
    rw [List.length_cons] at hwins
    obtain ⟨total, hcount, hsum⟩ := ih (if winner = p.side then wins + 1 else wins) (by split <;> omega)
    refine ⟨total, ?_, ?_⟩
    · simp only [List.length_cons, countWins, hplayout]
      exact hcount
    · rw [hsum, List.foldl_cons, ofNat_add_rewardFor (by omega)]

theorem exists_playouts_of_countWins {n wins total : Nat} (h : countWins m n wins p g = (.ok total, q, g')) :
    ∃ rewards, rewards.length = n ∧ Playouts p m g rewards g' := by
  induction n generalizing wins g with
  | zero =>
    cases h
    exact ⟨[], rfl, .nil _⟩
  | succ n ih =>
    have hback := position_playout p m g
    unfold countWins at h
    split at h
    · cases h
    · rename_i winner p' g₁ hplayout
      obtain rfl : p' = p := by rwa [hplayout] at hback
      obtain ⟨rewards, hlength, hrest⟩ := ih h
      exact ⟨_ :: rewards, congrArg Nat.succ hlength, .cons (rewound_eq_ok_iff.2 ⟨winner, hplayout, rfl⟩) hrest⟩

namespace Sampler

/-- A sample is the mean reward of the playouts. -/
theorem exists_sample_eq {s : Sampler σ} {rewards : List Float} (h : Playouts p m s.source rewards g')
    (hlength : rewards.length < UInt32.size) :
    ∃ s', s'.source = g' ∧ s.sample p m rewards.length = (.ok (mean rewards), s', p) := by
  unfold sample
  cases rewards with
  | nil =>
    cases h
    exact ⟨s, rfl, rfl⟩
  | cons reward rest =>
    obtain ⟨total, hcount, hsum⟩ := h.exists_countWins 0 (by rwa [Nat.zero_add])
    have hmean : (Score.ratio total (reward :: rest).length : Float) = mean (reward :: rest) :=
      congrArg (· / Float.ofNat (rest.length + 1)) hsum
    rw [if_neg (List.length_cons ▸ Nat.succ_ne_zero _), hcount]
    exact ⟨⟨g', s.count + (reward :: rest).length⟩, rfl, by rw [← hmean]⟩

theorem exists_playouts_of_sample {s s' : Sampler σ} {n : Nat} {value : Float}
    (h : s.sample p m n = (.ok value, s', q)) :
    ∃ rewards, rewards.length = n ∧ Playouts p m s.source rewards s'.source := by
  unfold sample at h
  split at h
  · rename_i hzero
    cases h
    exact ⟨[], hzero.symm, .nil _⟩
  · split at h
    · cases h
    · rename_i hcount
      cases h
      exact exists_playouts_of_countWins hcount

end Sampler

/-! ## Every move in turn -/

/-- A number of playouts for each of some moves, one move after the other: their rewards by move, and the stream that
they leave. -/
inductive Seeding (p : Position) (n : Nat) : σ → List Move → List (List Float) → σ → Prop
  | nil (g : σ) : Seeding p n g [] [] g
  | cons {g g₁ g₂ : σ} {m : Move} {moves : List Move} {rewards : List Float} {rest : List (List Float)} :
      rewards.length = n → Playouts p m g rewards g₁ → Seeding p n g₁ moves rest g₂ →
      Seeding p n g (m :: moves) (rewards :: rest) g₂

/-- The edges of moves with the mean rewards as their values, in the order of the moves. -/
def seeded (moves : List Move) (rewards : List (List Float)) : List (Edge Float) :=
  List.zipWith (fun m rewards => ⟨m, 0, mean rewards⟩) moves rewards

namespace Engine

/-- Seeding succeeds if all the playouts can be played, and gives the edges their mean rewards. -/
theorem exists_seedEdges_eq {n : Nat} (hn : n < UInt32.size) {moves : List Move} {rewards : List (List Float)}
    {s : Sampler σ} (h : Seeding p n s.source moves rewards g') :
    ∃ s', s'.source = g' ∧ seedEdges n moves s p = (.ok (seeded moves rewards), s', p) := by
  obtain ⟨g, hg⟩ : ∃ g, s.source = g := ⟨_, rfl⟩
  rw [hg] at h
  induction h generalizing s with
  | nil => exact ⟨s, hg, rfl⟩
  | @cons g g₁ g₂ m moves rewards rest hlength hfirst _ ih =>
    obtain ⟨s₁, hs₁, hsample⟩ := Sampler.exists_sample_eq (hg ▸ hfirst) (hlength ▸ hn)
    obtain ⟨s₂, hs₂, hrest⟩ := ih hs₁
    rw [hlength] at hsample
    refine ⟨s₂, hs₂, ?_⟩
    simp only [seedEdges, hsample, hrest]
    rfl

/-- Seeding that succeeds has played all the playouts. -/
theorem exists_seeding {n : Nat} {moves : List Move} {s s' : Sampler σ} {edges : List (Edge Float)}
    (h : seedEdges n moves s p = (.ok edges, s', q)) : ∃ rewards, Seeding p n s.source moves rewards s'.source := by
  induction moves generalizing s edges with
  | nil =>
    cases h
    exact ⟨[], .nil _⟩
  | cons m moves ih =>
    rcases s.sample_cases (α := Float) p m n with ⟨err, s₁, _, hsample⟩ | ⟨value, s₁, hsample⟩
    · simp only [seedEdges, hsample] at h
      cases h
    · simp only [seedEdges, hsample] at h
      obtain ⟨rewards, hlength, hfirst⟩ := Sampler.exists_playouts_of_sample hsample
      split at h
      · cases h
      · rename_i hrest
        cases h
        obtain ⟨rest, hseeding⟩ := ih hrest
        exact ⟨rewards :: rest, .cons hlength hfirst hseeding⟩

end Engine

/-! ## Sorting -/

/-- Edges of equal value stay in order. -/
theorem filter_sortEdges {edges : List (Edge Float)} (hnumbers : ∀ e ∈ edges, e.total.isNaN = false) (x : Float) :
    (Engine.sortEdges edges).filter (·.total == x) = edges.filter (·.total == x) := by
  obtain ⟨above, htrans, htotal, habove, hsort⟩ := exists_sortEdges_eq hnumbers
  have hequal : (edges.filter (·.total == x)).Pairwise fun a b => above a b = true := by
    refine List.pairwise_of_forall_mem_list fun a ha b hb => ?_
    rw [List.mem_filter] at ha hb
    exact (habove a ha.1 b hb.1).2 (Double.le_of_beq hb.2 ha.2)
  have hsub : (edges.filter (·.total == x)).Sublist (Engine.sortEdges edges) := by
    rw [hsort]
    exact List.sublist_mergeSort htrans htotal hequal List.filter_sublist
  have hfiltered := hsub.filter (·.total == x)
  rw [List.filter_filter] at hfiltered
  simp only [Bool.and_self] at hfiltered
  exact (hfiltered.eq_of_length ((List.mergeSort_perm edges _).filter _).length_eq.symm).symm

/-! ## Every expansion -/

namespace Engine

theorem isNaN_seeded {n : Nat} (hn : n < UInt32.size) {moves : List Move} {rewards : List (List Float)} {s : Sampler σ}
    (h : Seeding p n s.source moves rewards g') : ∀ edge ∈ seeded moves rewards, edge.total.isNaN = false := by
  obtain ⟨s', _, hseed⟩ := exists_seedEdges_eq hn h
  exact fun edge hedge => isNaN_of_isSeed hn (isSeed_seedEdges hseed edge hedge)

theorem map_move_seeded {n : Nat} {moves : List Move} {rewards : List (List Float)}
    (h : Seeding p n g moves rewards g') : (seeded moves rewards).map Edge.move = moves := by
  induction h with
  | nil => rfl
  | cons _ _ _ ih => exact congrArg (List.cons _) ih

theorem visits_seeded (moves : List Move) (rewards : List (List Float)) :
    ∀ edge ∈ seeded moves rewards, edge.visits = 0 := by
  intro edge hedge
  obtain ⟨i, hi, rfl⟩ := List.mem_iff_getElem.1 hedge
  simp [seeded]

/-- What an expansion leaves once the moves have been seeded. -/
theorem expand_node {e : Engine Float σ} {edges : List (Edge Float)} {sampler : Sampler σ} {id : Nat}
    (h : seedEdges e.config.samples p.legalMoves e.sampler p = (.ok edges, sampler, p)) (hid : id < e.graph.size) :
    (e.expand p id).1 = .ok () ∧ (e.expand p id).2.1.sampler = sampler ∧
      (e.expand p id).2.1.graph.node id = ⟨(e.graph.node id).key, 1, (sortEdges edges).toArray⟩ := by
  rw [expand_of_ok h id]
  refine ⟨rfl, rfl, ?_⟩
  simp only [Graph.node_modify, hid, and_self, if_true]
  rfl

/-- **An expansion seeds an edge for every move.** Whatever the position, the node, the random stream and the number of
playouts are,

* the position comes back and no other node changes; if the expansion fails, no node at all changes;
* a lost position leaves a visited node without edges and draws nothing from the stream;
* in any other position the expansion succeeds exactly if, for one move after the other in the order of the moves, its
  own playouts can be played from the stream (`Seeding`). Then the node is visited and has one unvisited edge for every
  move, whose value is the mean reward of that move's playouts. The edges stand by falling value, and those of equal
  value in the order of the moves. -/
theorem expand_seeds_edges (e : Engine Float σ) (p : Position) (id : Nat) (hid : id < e.graph.size)
    (hsamples : e.config.samples < UInt32.size) :
    let r := e.expand p id
    let node := r.2.1.graph.node id
    let edges := node.edges.toList
    r.2.2 = p ∧
    (∀ other, other ≠ id → r.2.1.graph.node other = e.graph.node other) ∧
    (∀ err, r.1 = .error err → r.2.1.graph = e.graph) ∧
    (p.isLost = true → r.1 = .ok () ∧ node = ⟨(e.graph.node id).key, 1, #[]⟩ ∧ r.2.1.sampler = e.sampler) ∧
    (p.isLost = false → r.1 = .ok () →
      ∃ rewards, Seeding p e.config.samples e.sampler.source p.moves rewards r.2.1.sampler.source) ∧
    ∀ rewards g', p.isLost = false → Seeding p e.config.samples e.sampler.source p.moves rewards g' →
      r.1 = .ok () ∧ r.2.1.sampler.source = g' ∧ node.key = (e.graph.node id).key ∧ node.visits = 1 ∧
      (edges.map Edge.move).Perm p.moves ∧ (∀ edge ∈ edges, edge.visits = 0) ∧
      edges.Perm (seeded p.moves rewards) ∧ (edges.Pairwise fun a b => b.total ≤ a.total) ∧
      ∀ x, edges.filter (·.total == x) = (seeded p.moves rewards).filter (·.total == x) := by
  intro r node edges
  have hmoves : p.legalMoves = if p.isLost then [] else p.moves := rfl
  refine ⟨?_, fun other hother => ?_, fun err herr => ?_, fun hlost => ?_, fun hlost hok => ?_,
    fun rewards g' hlost hseeding => ?_⟩
  · rcases e.expand_cases p id with ⟨_, _, _, heq⟩ | ⟨_, _, _, heq⟩ <;> simp only [r, heq]
  · rcases e.expand_cases p id with ⟨_, _, _, heq⟩ | ⟨_, _, _, heq⟩
    · simp only [r, heq]
    · simp only [r, heq, Graph.node_modify, Ne.symm hother, false_and, if_false]
  · exact graph_expand_error (Prod.ext herr rfl)
  · have hseed : seedEdges (α := Float) e.config.samples p.legalMoves e.sampler p = (.ok [], e.sampler, p) := by
      rw [hmoves, if_pos hlost]
      rfl
    obtain ⟨hok, hsampler, hnode⟩ := expand_node hseed hid
    have hempty : sortEdges ([] : List (Edge Float)) = [] := List.mergeSort_nil
    exact ⟨hok, by rw [hempty] at hnode; exact hnode, hsampler⟩
  · rw [hlost, if_neg Bool.false_ne_true] at hmoves
    rcases seedEdges_cases (α := Float) e.config.samples p.legalMoves e.sampler p with
      ⟨err, s', _, hseed⟩ | ⟨seeds, s', _, hseed⟩
    · rw [show r = _ from expand_of_error hseed id] at hok
      cases hok
    · rw [show r.2.1.sampler = s' from (expand_node hseed hid).2.1]
      exact exists_seeding (hmoves ▸ hseed)
  · rw [hlost, if_neg Bool.false_ne_true] at hmoves
    obtain ⟨s', hs', hseed⟩ := exists_seedEdges_eq hsamples hseeding
    rw [← hmoves] at hseed
    obtain ⟨hok, hsampler, hnode⟩ := expand_node hseed hid
    rw [hmoves] at hnode
    change node = _ at hnode
    have hedges : edges = sortEdges (seeded p.moves rewards) := congrArg (fun node => node.edges.toList) hnode
    have hperm : edges.Perm (seeded p.moves rewards) := hedges ▸ List.mergeSort_perm _ _
    have hnumbers := isNaN_seeded hsamples hseeding
    refine ⟨hok, (congrArg Sampler.source hsampler).trans hs', by rw [hnode], by rw [hnode],
      ?_, fun edge hedge => ?_, hperm, ?_, fun x => ?_⟩
    · have hmapped := hperm.map Edge.move
      rwa [map_move_seeded hseeding] at hmapped
    · exact visits_seeded _ _ edge (hperm.mem_iff.1 hedge)
    · rw [hedges]
      exact pairwise_sortEdges hnumbers
    · rw [hedges]
      exact filter_sortEdges hnumbers x

/-- Playouts of a decided game bring the same reward again and again. -/
theorem exists_playouts_of_isDecided {winner : Color} {n : Nat} (haccepts : p.refusal? m = none)
    (h : (p.advance m).isDecided winner n = true) (k : Nat) (g : σ) :
    ∃ g', Playouts p m g (.replicate k (rewardFor p.side winner)) g' := by
  induction k generalizing g with
  | zero => exact ⟨g, .nil g⟩
  | succ k ih =>
    obtain ⟨g₁, hfirst⟩ := playout_of_isDecided haccepts h g
    obtain ⟨g₂, hrest⟩ := ih g₁
    exact ⟨g₂, .cons (rewound_eq_ok_iff.2 ⟨winner, hfirst, rfl⟩) hrest⟩

theorem exists_seeding_of_isDecided {winner : Move → Color} {n : Nat} {moves : List Move}
    (h : ∀ m ∈ moves, p.refusal? m = none ∧ (p.advance m).isDecided (winner m) n = true) (k : Nat) (g : σ) :
    ∃ g', Seeding p k g moves (moves.map fun m => .replicate k (rewardFor p.side (winner m))) g' := by
  induction moves generalizing g with
  | nil => exact ⟨g, .nil g⟩
  | cons m moves ih =>
    rw [List.forall_mem_cons] at h
    obtain ⟨g₁, hfirst⟩ := exists_playouts_of_isDecided h.1.1 h.1.2 k g
    obtain ⟨g₂, hrest⟩ := ih h.2 g₁
    exact ⟨g₂, .cons List.length_replicate hfirst hrest⟩

/-- White has a pawn a step from its goal, and so has Black: the moves of White's other pawn come first in the order of
the moves and lose, those of this one win, whatever the stream is. -/
theorem expand_seeds_edges_race :
    let text := "........\nW.......\n........\n........\n........\n........\n..W....B\n........\n"
    ∃ p, ofDiagram text .white = .ok p ∧ ∀ g : ChaCha,
      let e : Engine Float ChaCha := .new ⟨1, 1.4, 2, none⟩ g ⟨#[.fresh p.hash], ∅⟩
      let edges := ((e.expand p 0).2.1.graph.node 0).edges.toList
      (e.expand p 0).1 = .ok () ∧ (e.expand p 0).2.2 = p ∧ (edges.Pairwise fun a b => b.total ≤ a.total) ∧
        edges.filter (·.total == 1.0) = [⟨⟨⟨48⟩, ⟨56⟩⟩, 0, 1.0⟩, ⟨⟨⟨48⟩, ⟨57⟩⟩, 0, 1.0⟩] ∧
        edges.filter (·.total == 0.0) =
          [⟨⟨⟨10⟩, ⟨18⟩⟩, 0, 0.0⟩, ⟨⟨⟨10⟩, ⟨17⟩⟩, 0, 0.0⟩, ⟨⟨⟨10⟩, ⟨19⟩⟩, 0, 0.0⟩] := by
  intro text
  obtain ⟨p, hp⟩ : ∃ p, p = ofBoard (.ofFn fun i =>
    if i = 48 ∨ i = 10 then some .white else if i = 15 then some .black else none) .white .shared := ⟨_, rfl⟩
  have horigin : ofDiagram text .white = .ok p := by
    rw [hp]
    exact ofDiagram_of_rows .white (by decide +kernel)
  have hgoing : p.isLost = false ∧ p.side = .white ∧ p.moves =
      [⟨⟨10⟩, ⟨18⟩⟩, ⟨⟨10⟩, ⟨17⟩⟩, ⟨⟨10⟩, ⟨19⟩⟩, ⟨⟨48⟩, ⟨56⟩⟩, ⟨⟨48⟩, ⟨57⟩⟩] := by
    rw [hp]
    decide +kernel
  have hdecided : ∀ m ∈ p.moves, p.refusal? m = none ∧
      (p.advance m).isDecided (if m.source = ⟨48⟩ then .white else .black) 1 = true := by
    rw [hp]
    decide +kernel
  refine ⟨p, horigin, fun g => ?_⟩
  intro e edges
  obtain ⟨g', hseeding⟩ := exists_seeding_of_isDecided hdecided 2 g
  obtain ⟨hback, _, _, _, _, hseeded⟩ :=
    expand_seeds_edges e p 0 Nat.zero_lt_one (show 2 < UInt32.size by decide)
  obtain ⟨hok, _, _, _, _, _, _, hsorted, hstable⟩ := hseeded _ g' hgoing.1 hseeding
  have hvalues : seeded p.moves (p.moves.map fun m =>
        .replicate 2 (rewardFor p.side (if m.source = ⟨48⟩ then .white else .black))) =
      [⟨⟨⟨10⟩, ⟨18⟩⟩, 0, 0.0⟩, ⟨⟨⟨10⟩, ⟨17⟩⟩, 0, 0.0⟩, ⟨⟨⟨10⟩, ⟨19⟩⟩, 0, 0.0⟩, ⟨⟨⟨48⟩, ⟨56⟩⟩, 0, 1.0⟩,
        ⟨⟨⟨48⟩, ⟨57⟩⟩, 0, 1.0⟩] := by
    have hwon : mean [rewardFor .white .white, rewardFor .white .white] = 1.0 := by decide +kernel
    have hlost : mean [rewardFor .white .black, rewardFor .white .black] = 0.0 := by decide +kernel
    rw [hgoing.2.1, hgoing.2.2]
    simp [seeded, hwon, hlost]
  have hfilter := hvalues ▸ hstable
  exact ⟨hok, hback, hsorted, hfilter 1.0, hfilter 0.0⟩

end Engine

end Breakthrough.Search
