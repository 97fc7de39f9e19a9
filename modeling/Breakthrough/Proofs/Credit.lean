import Breakthrough.Proofs.Budget
import Breakthrough.Proofs.Doubles

/-!
# What an iteration credits

A successful iteration whose path does not pass a node twice changes one edge of each node on the path: the newest
edge gets the reward of the leaf, the one before it the reward of the other side, and so on up to the root. The
phases are followed one by one: the way down visits the nodes of the path and may add the leaf (`Graph.Reached`),
the leaf is visited once more or expanded (`evaluateLeaf_ok`), and the way back credits the edges
(`Trail.creditPath_distinct`). The seeds of new edges are fractions of counters, so they can be compared, and the
first edge after sorting has the largest (`head_sortEdges`).
-/

namespace Breakthrough.Search

variable {α σ : Type}

/-! ## The way back -/

/-- The reward after it has changed sides a number of times. -/
def flipped [Score α] : Nat → α → α
  | 0, reward => reward
  | n + 1, reward => flipped n (Score.one - reward)

/-- What the way back changes: one edge of each node on the path, the newest with the reward itself. -/
structure Graph.Repaid [Score α] (path : List Step) (reward : α) (g g' : Graph α) : Prop where
  size : g'.size = g.size
  index : ∀ key, g'.find? key = g.find? key
  steps : ∀ i step, path[i]? = some step →
    g'.node step.node = (g.node step.node).credited step.edge (flipped i reward)
  rest : ∀ id, id ∉ path.map Step.node → g'.node id = g.node id

theorem Graph.Repaid.key [Score α] {path : List Step} {reward : α} {g g' : Graph α} (h : g.Repaid path reward g')
    (id : Nat) : (g'.node id).key = (g.node id).key := by
  by_cases hid : id ∈ path.map Step.node
  · obtain ⟨step, hstep, rfl⟩ := List.mem_map.1 hid
    obtain ⟨i, hi⟩ := List.mem_iff_getElem?.1 hstep
    rw [h.steps i step hi]
    rfl
  · rw [h.rest id hid]

/-- A path that does not pass a node twice is credited step by step. -/
theorem Trail.creditPath_distinct [Score α] {g : Graph α} {p₀ p : Position} {path : List Step}
    (h : Trail g p₀ path p) (hdistinct : (path.map Step.node).Nodup) (reward : α) :
    ∃ g', Engine.creditPath path reward g p = (.ok (), [], g', p₀) ∧ g.Repaid path reward g' := by
  induction path generalizing g p reward with
  | nil =>
    rw [h.eq_of_nil]
    exact ⟨g, rfl, rfl, fun _ => rfl, by simp, fun _ _ => rfl⟩
  | cons step path ih =>
    cases h with
    | @cons _ q _ m htail hv hm hacc =>
      obtain ⟨edge, hedge, rfl⟩ : ∃ edge, (g.node step.node).edges[step.edge]? = some edge ∧ edge.move = m := by
        rwa [Node.getElem?_moves, Option.map_eq_some_iff] at hm
      rw [List.map_cons, List.nodup_cons] at hdistinct
      have hgrow := Graph.extends_credit g step.node step.edge reward
      obtain ⟨g', heq, hback⟩ := ih (htail.mono hgrow) hdistinct.2 (Score.one - reward)
      -- only the node of the newest step has changed so far
      have hother : ∀ id, step.node ≠ id → (g.credit step.node step.edge reward).node id = g.node id := by
        intro id hid
        rw [Graph.node_credit, if_neg fun hboth => hid hboth.1]
      have hself : (g.credit step.node step.edge reward).node step.node =
          (g.node step.node).credited step.edge reward := by
        rw [Graph.node_credit, if_pos ⟨rfl, Graph.lt_size_of_edge hedge⟩]
      refine ⟨g', ?_, hback.size.trans (Graph.size_modify _ _ _), hback.index, ?_, ?_⟩
      · rw [Engine.creditPath, hedge]
        simp only [Position.takeBackRefusal?_advance, Position.retract_advance hacc, if_true]
        exact heq
      · intro i other hi
        cases i with
        | zero =>
          cases hi
          rw [hback.rest _ hdistinct.1, hself]
          rfl
        | succ i =>
          have hmem : other.node ∈ path.map Step.node := List.mem_map_of_mem (List.mem_of_getElem? hi)
          rw [hback.steps i other hi, hother _ fun hsame => hdistinct.1 (hsame ▸ hmem)]
          rfl
      · intro id hid
        rw [List.map_cons, List.mem_cons, not_or] at hid
        rw [hback.rest id hid.2, hother id (Ne.symm hid.1)]

theorem Trail.isVisited {g : Graph α} {p₀ p : Position} {path : List Step} (h : Trail g p₀ path p) :
    ∀ step ∈ path, (g.node step.node).isVisited = true := by
  induction h with
  | nil => intro step hstep; cases hstep
  | cons _ hv _ _ ih =>
    intro step hstep
    rcases List.mem_cons.1 hstep with rfl | hstep
    · exact hv
    · exact ih step hstep

theorem Trail.consistent {g : Graph α} {p₀ p : Position} {path : List Step} (h : Trail g p₀ path p)
    (hp : p₀.Consistent) : p.Consistent := by
  induction h with
  | nil => exact hp
  | cons _ _ _ hacc ih => exact ih.advance hacc

/-! ## The way down -/

namespace Graph

/-- How the order of the nodes and their keys may change on a way to a node: not at all, or that node is added at
the end. -/
structure Grown (leaf : Nat) (key : UInt64) (g g' : Graph α) : Prop where
  keys : ∀ id, id < g.size → (g'.node id).key = (g.node id).key
  place : (leaf < g.size ∧ g'.size = g.size ∧ ∀ k, g'.find? k = g.find? k) ∨
    (leaf = g.size ∧ g'.size = g.size + 1 ∧ (g'.node leaf).key = key ∧
      ∀ k, g'.find? k = if key = k then some leaf else g.find? k)

variable {leaf : Nat} {key : UInt64} {g g₁ g' : Graph α}

theorem Grown.lt_size (h : g.Grown leaf key g') : leaf < g'.size := by
  rcases h.place with ⟨hlt, hsize, _⟩ | ⟨hleaf, hsize, _, _⟩ <;> omega

theorem Grown.size_le (h : g.Grown leaf key g') {id : Nat} (hid : g.size ≤ id) (hleaf : id ≠ leaf) :
    g'.size ≤ id := by
  rcases h.place with ⟨_, hsize, _⟩ | ⟨_, hsize, _, _⟩ <;> omega

/-- Changes that keep the order and the keys. -/
theorem Grown.trans (h : g.Grown leaf key g₁) (hsize : g'.size = g₁.size)
    (hindex : ∀ k, g'.find? k = g₁.find? k) (hkeys : ∀ id, (g'.node id).key = (g₁.node id).key) :
    g.Grown leaf key g' := by
  refine ⟨fun id hid => (hkeys id).trans (h.keys id hid), ?_⟩
  simp only [hsize, hindex, hkeys]
  exact h.place

/-- On the way itself a node that is added stays as it was made. -/
structure Reached (leaf : Nat) (key : UInt64) (g g' : Graph α) : Prop extends g.Grown leaf key g' where
  fresh : g.size ≤ leaf → (g'.node leaf).isVisited = false

theorem key_visit (g : Graph α) (id j : Nat) : ((g.modify id Node.visit).node j).key = (g.node j).key := by
  rw [node_modify]
  split <;> rfl

/-- A key is looked up in a graph that has no new node yet. -/
theorem reached_locate (hrange : g.InRange) (hsize : g'.size = g.size) (hindex : ∀ k, g'.find? k = g.find? k)
    (hkeys : ∀ id, id < g.size → (g'.node id).key = (g.node id).key) (key : UInt64) :
    g.Reached (g'.locate key).1 key (g'.locate key).2 := by
  cases hfind : g'.find? key with
  | some id =>
    have hid : id < g.size := hrange key id (hindex key ▸ hfind)
    rw [locate_of_find?_eq_some hfind]
    exact ⟨⟨hkeys, .inl ⟨hid, hsize, hindex⟩⟩, fun hle => absurd hid (Nat.not_lt_of_le hle)⟩
  | none =>
    have hplace : (g'.locate key).1 = g'.size := by rw [locate_of_find?_eq_none hfind]
    have hgrown := size_locate_of_find?_eq_none hfind
    have hnew : (g'.locate key).2.node (g'.locate key).1 = .fresh key := by
      rw [node_locate, if_pos ⟨hfind, hplace⟩]
    refine ⟨⟨fun id hid => ?_, .inr ⟨hplace.trans hsize, by rw [hgrown, hsize], ?_, fun k => ?_⟩⟩, fun _ => ?_⟩
    · rw [node_locate, if_neg fun hboth => by omega]
      exact hkeys id hid
    · rw [hnew]
      rfl
    · rw [find?_locate, hindex]
    · rw [hnew]
      rfl

theorem Walked.visits_eq {path : List Step} (h : g.Walked path g') {id : Nat} (hid : id ∉ path.map Step.node) :
    (g'.node id).visits = (g.node id).visits := by
  rw [← UInt32.toNat_inj, h.visits, List.count_eq_zero_of_not_mem hid, Nat.add_zero]

/-- Whatever a walk has not passed is as it was, unless it has been added. -/
theorem Walked.node_eq {path : List Step} (hwalk : g.Walked path g') (h : g.Grown leaf key g') {id : Nat}
    (hid : id ∉ path.map Step.node) (hold : id < g.size ∨ id ≠ leaf) : g'.node id = g.node id := by
  rcases Nat.lt_or_ge id g.size with hlt | hge
  · have hkey := h.keys id hlt
    have hvisits := hwalk.visits_eq hid
    have hedges := hwalk.edges id
    cases hn : g.node id
    cases hn' : g'.node id
    simp only [hn, hn'] at hkey hvisits hedges
    rw [hkey, hvisits, hedges]
  · have hother := hold.resolve_left (Nat.not_lt_of_le hge)
    rw [node_of_size_le hge, node_of_size_le (h.size_le hge hother)]

end Graph

namespace Station

variable {s t : Station α σ}

/-- A leaf is not on the path that leads to it. -/
theorem leaf_notMem_path {p₀ : Position} (hafoot : t.Afoot p₀) (hleaf : t.isLeaf = true) :
    t.node ∉ t.engine.path.map Step.node := by
  intro hmem
  obtain ⟨step, hstep, hnode⟩ := List.mem_map.1 hmem
  have hv := Trail.isVisited hafoot step hstep
  have hmove := Trail.isSome_moveAt? hafoot step hstep
  rw [hnode] at hv
  rw [Graph.moveAt?, hnode] at hmove
  rw [isLeaf, hv, Bool.not_true, Bool.false_or] at hleaf
  rw [((Node.isTerminal_iff _).1 hleaf).2] at hmove
  cases hmove

variable [Score α] [Confidence α]

theorem reached_next? {g : Graph α} (hrange : g.InRange) (h : s.next? = some t)
    (hs : g.Reached s.node s.position.hash s.engine.graph) :
    g.Reached t.node t.position.hash t.engine.graph := by
  obtain ⟨edge, hleaf, _, _, rfl⟩ := next?_eq_some h
  have hvisited := (isLeaf_eq_false hleaf).1
  rcases hs.place with ⟨_, hsize, hindex⟩ | ⟨hnode, _, _, _⟩
  · refine Graph.reached_locate hrange ((Graph.size_modify _ _ _).trans hsize) hindex (fun id hid => ?_) _
    exact (Graph.key_visit _ _ _).trans (hs.keys id hid)
  · -- a node that was added is unvisited, so the walk has ended there
    rw [hs.fresh hnode.ge] at hvisited
    cases hvisited

theorem reached (hrange : s.engine.graph.InRange) (hnode : s.node < s.engine.graph.size) :
    ∀ t ∈ s.walk, s.engine.graph.Reached t.node t.position.hash t.engine.graph := by
  refine walk_induction s ⟨⟨fun _ _ => rfl, .inl ⟨hnode, rfl, fun _ => rfl⟩⟩, ?_⟩ fun _ _ _ => reached_next? hrange
  exact fun hle => absurd hnode (Nat.not_lt_of_le hle)

theorem config_walk : ∀ t ∈ s.walk, t.engine.config = s.engine.config := by
  refine walk_induction s rfl fun u _ t hnext hu => ?_
  obtain ⟨edge, _, _, _, rfl⟩ := next?_eq_some hnext
  exact hu

end Station

/-! ## The leaf -/

/-- What an edge may start with: nothing without playouts, else the fraction of them that were won. -/
def IsSeed [Score α] (samples : Nat) (x : α) : Prop :=
  if samples = 0 then x = Score.zero else ∃ wins ≤ samples, x = Score.ratio wins samples

namespace Engine

variable [Score α] [RandomSource σ]

theorem isSeed_sample {samples : Nat} {s s' : Sampler σ} {p q : Position} {m : Move} {x : α}
    (h : s.sample p m samples = (.ok x, s', q)) : IsSeed samples x := by
  unfold Sampler.sample at h
  unfold IsSeed
  split at h
  · rename_i hzero
    cases h
    rw [if_pos hzero]
  · rename_i hpos
    rw [if_neg hpos]
    split at h
    · cases h
    · rename_i wins _ _ hwins
      cases h
      exact ⟨wins, (countWins_le hwins).trans_eq (Nat.zero_add _), rfl⟩

theorem isSeed_seedEdges {samples : Nat} {moves : List Move} {s s' : Sampler σ} {p q : Position}
    {edges : List (Edge α)} (h : seedEdges samples moves s p = (.ok edges, s', q)) :
    ∀ e ∈ edges, IsSeed samples e.total :=
  forall_mem_seedEdges h isSeed_sample

/-- All that a successful evaluation does: a visited leaf is visited once more and rewards as a terminal node, an
unvisited one gets its edges and rewards the side that moved into it by its first one. -/
theorem evaluateLeaf_ok {e e' : Engine α σ} {p q : Position} {leaf : Nat} {reward : α}
    (h : e.evaluateLeaf p leaf = (.ok reward, e', q)) (hleaf : leaf < e.graph.size) :
    q = p ∧ e'.path = e.path ∧
    (((e.graph.node leaf).isVisited = true ∧ e'.graph = e.graph.modify leaf Node.visit ∧
      reward = terminalReward p) ∨
    ((e.graph.node leaf).isVisited = false ∧ ∃ edges s',
      seedEdges e.config.samples p.legalMoves e.sampler p = (.ok edges, s', p) ∧
      e'.graph = e.graph.modify leaf (expanded (sortEdges edges).toArray) ∧
      reward = ((sortEdges edges).head?.map fun best => Score.one - best.average).getD (terminalReward p))) := by
  unfold evaluateLeaf at h
  split at h
  · rename_i hv
    cases h
    exact ⟨rfl, rfl, .inl ⟨hv, rfl, rfl⟩⟩
  rename_i hv
  rw [Bool.not_eq_true] at hv
  rcases seedEdges_cases (α := α) e.config.samples p.legalMoves e.sampler p with
    ⟨err, s', _, hseed⟩ | ⟨edges, s', _, hseed⟩
  · rw [expand_of_error hseed] at h
    cases h
  · have hfirst : ((e.graph.modify leaf (expanded (sortEdges edges).toArray)).node leaf).edges[0]? =
        (sortEdges edges).head? := by
      rw [Graph.node_modify, if_pos ⟨rfl, hleaf⟩, List.head?_eq_getElem?]
      exact List.getElem?_toArray
    rw [expand_of_ok hseed] at h
    simp only [hfirst] at h
    cases hhead : (sortEdges edges).head? with
    | none =>
      rw [hhead] at h
      cases h
      exact ⟨rfl, rfl, .inr ⟨hv, edges, s', hseed, rfl, by rw [hhead]; rfl⟩⟩
    | some best =>
      rw [hhead] at h
      cases h
      exact ⟨rfl, rfl, .inr ⟨hv, edges, s', hseed, rfl, by rw [hhead]; rfl⟩⟩

end Engine

/-! ## The first edge -/

theorem isNaN_of_isSeed {samples : Nat} (hsamples : samples < UInt32.size) {x : Float} (h : IsSeed samples x) :
    x.isNaN = false := by
  unfold IsSeed at h
  split at h
  · rw [h]
    rfl
  · rename_i hpos
    obtain ⟨wins, hwins, rfl⟩ := h
    exact Double.isNaN_ratio (Nat.pos_of_ne_zero hpos) hwins hsamples

/-- Before its first visit the average of an edge is its seed. -/
theorem Edge.average_of_unvisited {e : Edge Float} (h : e.visits = 0) : e.average = e.total := by
  have hone : (Score.ofNat (0 : UInt32).toNat + Score.one : Float) = 1.0 := by decide
  rw [Edge.average, h, hone]
  exact Double.div_one e.total

open Double in
/-- On edges whose values are numbers, sorting goes by an order of all edges. -/
theorem exists_sortEdges_eq {edges : List (Edge Float)} (hnumbers : ∀ e ∈ edges, e.total.isNaN = false) :
    ∃ above : Edge Float → Edge Float → Bool,
      (∀ a b c, above a b = true → above b c = true → above a c = true) ∧ (∀ a b, (above a b || above b a) = true) ∧
      (∀ a ∈ edges, ∀ b ∈ edges, above a b = true ↔ b.total ≤ a.total) ∧
      Engine.sortEdges edges = edges.mergeSort above := by
  classical
  let above (a b : Edge Float) : Bool := decide ¬ Below (rank a.total.toModel.unpack) (rank b.total.toModel.unpack)
  refine ⟨above, fun a b c hab hbc => ?_, fun a b => ?_, fun a ha b hb => ?_, ?_⟩
  · rw [decide_eq_true_iff] at hab hbc ⊢
    exact not_below_trans hab hbc
  · rw [Bool.or_eq_true, decide_eq_true_iff, decide_eq_true_iff]
    exact Classical.or_iff_not_imp_left.2 fun hab => (not_not.1 hab).not_symm
  · rw [decide_eq_true_iff, ← lt_iff_below (hnumbers a ha) (hnumbers b hb),
      not_lt_iff_le (hnumbers b hb) (hnumbers a ha)]
  · have hmap := List.map_mergeSort (r := fun a b : Edge Float => !Score.lt a.total b.total) (s := above) (f := id)
      (l := edges) (by
        intro a ha b hb
        change (!decide (a.total < b.total)) = above a b
        rw [← decide_not, decide_eq_decide, lt_iff_below (hnumbers a ha) (hnumbers b hb)])
    simpa [Engine.sortEdges] using hmap

/-- Edges whose values are numbers are sorted by falling value. -/
theorem pairwise_sortEdges {edges : List (Edge Float)} (hnumbers : ∀ e ∈ edges, e.total.isNaN = false) :
    (Engine.sortEdges edges).Pairwise fun a b => b.total ≤ a.total := by
  obtain ⟨above, htrans, htotal, habove, hsort⟩ := exists_sortEdges_eq hnumbers
  have hsorted := List.pairwise_mergeSort htrans htotal edges
  rw [← hsort] at hsorted
  refine hsorted.imp_of_mem fun {a b} ha hb hab => ?_
  exact (habove a (mem_sortEdges.1 ha) b (mem_sortEdges.1 hb)).1 hab

/-- The first of the sorted edges has the largest value. -/
theorem head_sortEdges {edges rest : List (Edge Float)} {best : Edge Float}
    (hnumbers : ∀ e ∈ edges, e.total.isNaN = false) (h : Engine.sortEdges edges = best :: rest) :
    ∀ e ∈ edges, e.total ≤ best.total := by
  have hsorted := pairwise_sortEdges hnumbers
  rw [h, List.pairwise_cons] at hsorted
  have hbest := hnumbers best (mem_sortEdges.1 (h ▸ List.mem_cons_self))
  intro e he
  rcases List.mem_cons.1 (h ▸ mem_sortEdges.2 he) with rfl | hrest
  · rw [← Double.not_lt_iff_le hbest hbest, Double.lt_iff_below hbest hbest]
    exact fun hbelow => hbelow.not_symm hbelow
  · exact hsorted.1 e hrest

/-! ## What changes in a node -/

namespace Node

/-- A node that a path leaves by an edge: one more visit of both, and a reward for the edge. -/
structure Passed [Score α] (edge : Nat) (reward : α) (n n' : Node α) : Prop where
  key : n'.key = n.key
  visits : n'.visits.toNat = n.visits.toNat + 1
  credited : ∃ a b, n.edges[edge]? = some a ∧ n'.edges[edge]? = some b ∧ b.move = a.move ∧
    b.visits.toNat = a.visits.toNat + 1 ∧ b.total = a.total + reward
  others : ∀ i, i ≠ edge → n'.edges[i]? = n.edges[i]?

/-- A node without edges that has been visited once more. -/
structure Revisited (n n' : Node α) : Prop where
  key : n'.key = n.key
  visits : n'.visits.toNat = n.visits.toNat + 1
  edges : n.edges = #[] ∧ n'.edges = #[]

/-- A node that has just been expanded for a position: it has an edge for every legal move, with a seed and no
visits. -/
structure Opened [Score α] (samples : Nat) (p : Position) (n : Node α) : Prop where
  visits : n.visits = 1
  moves : n.moves.Perm p.legalMoves
  edges : ∀ edge ∈ n.edges, edge.visits = 0 ∧ IsSeed samples edge.total

theorem passed_credited [Score α] {n n₁ : Node α} {edge : Nat} {a : Edge α} (hkey : n₁.key = n.key)
    (hvisits : n₁.visits.toNat = n.visits.toNat + 1) (hedges : n₁.edges = n.edges)
    (ha : n.edges[edge]? = some a) (hroom : a.visits.toNat + 1 < UInt32.size) (reward : α) :
    n.Passed edge reward (n₁.credited edge reward) := by
  refine ⟨hkey, hvisits, ⟨a, a.credit reward, ha, ?_, rfl, ?_, rfl⟩, fun i hi => ?_⟩
  · rw [Node.credited, Array.getElem?_modify, if_pos rfl, hedges, ha, Option.map_some]
  · exact Edge.toNat_visits_credit hroom reward
  · rw [Node.credited, Array.getElem?_modify, if_neg (Ne.symm hi), hedges]

end Node

/-- The reward of a leaf for the side that moved into it, by the position there, whether the node had been visited,
and the edges that it has in the end. -/
structure LeafReward (p : Position) (visited : Bool) (edges : Array (Edge Float)) (reward : Float) : Prop where
  lost : p.isLost = true → reward = 1.0
  dead : p.isLost = false → visited = true → reward = 0.0
  best : p.isLost = false → visited = false →
    ∃ best ∈ edges, reward = 1.0 - best.total ∧ ∀ edge ∈ edges, edge.total ≤ best.total

namespace Engine

variable [RandomSource σ] {e e' : Engine Float σ} {p q : Position} {leaf : Nat} {reward : Float}

theorem terminalReward_of_isLost (h : p.isLost = true) : (terminalReward p : Float) = 1.0 := by
  rw [terminalReward, if_pos h]
  rfl

theorem terminalReward_of_not_isLost (h : p.isLost = false) : (terminalReward p : Float) = 0.0 := by
  rw [terminalReward, h]
  rfl

theorem opened_expanded {edges : List (Edge Float)} {samples : Nat} {s s' : Sampler σ} (n : Node Float)
    (h : seedEdges samples p.legalMoves s p = (.ok edges, s', q)) :
    (expanded (sortEdges edges).toArray n).Opened samples p := by
  have hperm : (sortEdges edges).Perm edges := List.mergeSort_perm _ _
  have hmoves : edges.map Edge.move = p.legalMoves := by
    rcases seedEdges_cases (α := Float) samples p.legalMoves s p with ⟨_, _, _, heq⟩ | ⟨_, _, hmoves, heq⟩
    · rw [h] at heq
      cases heq
    · rw [h] at heq
      cases heq
      exact hmoves
  refine ⟨rfl, hmoves ▸ hperm.map Edge.move, fun edge hedge => ?_⟩
  have hmem : edge ∈ edges := hperm.mem_iff.1 (List.mem_toArray.1 hedge)
  exact ⟨visits_seedEdges h edge hmem, isSeed_seedEdges h edge hmem⟩

/-- An expanded leaf rewards the side that moved into it with what the best reply leaves. -/
theorem leafReward_expanded {edges : List (Edge Float)} {samples : Nat} {s s' : Sampler σ}
    (hp : p.Consistent) (hsamples : samples < UInt32.size)
    (h : seedEdges samples p.legalMoves s p = (.ok edges, s', q)) :
    LeafReward p false (sortEdges edges).toArray
      (((sortEdges edges).head?.map fun best => Score.one - best.average).getD (terminalReward p)) := by
  have hopened := opened_expanded (.fresh 0) h
  have hlength : (sortEdges edges).map Edge.move = [] ↔ p.isLost = true := by
    rw [← hp.legalMoves_eq_nil, ← List.length_eq_zero_iff, ← List.length_eq_zero_iff, ← hopened.moves.length_eq]
    rfl
  rw [List.map_eq_nil_iff] at hlength
  cases hsort : sortEdges edges with
  | nil =>
    have hlost := hlength.1 hsort
    exact ⟨fun _ => terminalReward_of_isLost hlost, fun hnot => absurd hlost (by simp [hnot]),
      fun hnot => absurd hlost (by simp [hnot])⟩
  | cons best rest =>
    have hlost : ¬ p.isLost = true := fun hlost => by
      rw [hlength.2 hlost] at hsort
      cases hsort
    refine ⟨fun h => absurd h hlost, fun _ hvisited => ?_, fun _ _ => ⟨best, by simp, ?_, ?_⟩⟩
    · cases hvisited
    · have hfresh := (hopened.edges best (by simp [expanded, hsort])).1
      change Score.one - best.average = _
      rw [Edge.average_of_unvisited hfresh]
      rfl
    · intro edge hedge
      have hnumbers : ∀ x ∈ edges, x.total.isNaN = false := fun x hx =>
        isNaN_of_isSeed hsamples (isSeed_seedEdges h x hx)
      refine head_sortEdges hnumbers hsort edge ?_
      rw [← (List.mergeSort_perm edges _).mem_iff]
      exact hsort ▸ List.mem_toArray.1 hedge

/-- A leaf is visited once more or expanded, and nothing else changes. -/
theorem evaluateLeaf_effect (hp : p.Consistent) (hsamples : e.config.samples < UInt32.size)
    (hleaf : leaf < e.graph.size) (hroom : (e.graph.node leaf).visits.toNat + 1 < UInt32.size)
    (hend : (e.graph.node leaf).isVisited = true → (e.graph.node leaf).edges = #[])
    (h : e.evaluateLeaf p leaf = (.ok reward, e', q)) :
    q = p ∧ e'.path = e.path ∧
    (∃ f : Node Float → Node Float, (∀ n, (f n).key = n.key) ∧ e'.graph = e.graph.modify leaf f) ∧
    LeafReward p (e.graph.node leaf).isVisited (e'.graph.node leaf).edges reward ∧
    ((e.graph.node leaf).isVisited = true → (e.graph.node leaf).Revisited (e'.graph.node leaf)) ∧
    ((e.graph.node leaf).isVisited = false → (e'.graph.node leaf).Opened e.config.samples p) := by
  have hnode := fun f => Graph.node_modify e.graph leaf f leaf
  simp only [hleaf, true_and, if_true] at hnode
  obtain ⟨rfl, hpath, ⟨hv, hgraph, rfl⟩ | ⟨hv, edges, s', hseed, hgraph, rfl⟩⟩ := evaluateLeaf_ok h hleaf
  · rw [hgraph, hnode]
    refine ⟨rfl, hpath, ⟨Node.visit, fun _ => rfl, rfl⟩, ?_, fun _ => ?_, fun hunv => ?_⟩
    · refine ⟨terminalReward_of_isLost, fun hlost _ => terminalReward_of_not_isLost hlost, fun _ hunv => ?_⟩
      rw [hv] at hunv
      cases hunv
    · exact ⟨rfl, Node.toNat_visits_visit hroom, hend hv, hend hv⟩
    · rw [hv] at hunv
      cases hunv
  · rw [hgraph, hnode, hv]
    exact ⟨rfl, hpath, ⟨expanded (sortEdges edges).toArray, fun _ => rfl, rfl⟩,
      leafReward_expanded hp hsamples hseed, fun hvisited => (by cases hvisited), fun _ => opened_expanded _ hseed⟩

end Engine

/-! ## The phases together -/

section Phases

-- `g₁` is the graph after the way down, whose leaf then becomes what `f` makes of it
variable [Score α] {path : List Step} {leaf : Nat} {key : UInt64} {reward : α} {g g₁ g' : Graph α}
  {f : Node α → Node α}

theorem Graph.Walked.passed (hwalk : g.Walked path g₁) (hgrown : g.Grown leaf key g₁)
    (hback : (g₁.modify leaf f).Repaid path reward g') (hdistinct : (path.map Step.node).Nodup)
    (hleaf : leaf ∉ path.map Step.node) {i : Nat} {step : Step} {a : Edge α} (hi : path[i]? = some step)
    (ha : (g.node step.node).edges[step.edge]? = some a) (hroom : a.visits.toNat + 1 < UInt32.size) :
    (g.node step.node).Passed step.edge (flipped i reward) (g'.node step.node) := by
  have hmem : step.node ∈ path.map Step.node := List.mem_map_of_mem (List.mem_of_getElem? hi)
  have hvisits := hwalk.visits step.node
  rw [List.count_eq_one_of_mem hdistinct hmem] at hvisits
  have hother : leaf ≠ step.node := fun hsame => hleaf (hsame ▸ hmem)
  have hnode : (g₁.modify leaf f).node step.node = g₁.node step.node := by
    rw [Graph.node_modify, if_neg fun hboth => hother hboth.1]
  rw [hback.steps i step hi, hnode]
  exact Node.passed_credited (hgrown.keys _ (Graph.lt_size_of_edge ha)) hvisits (hwalk.edges _) ha hroom _

theorem Graph.Walked.node_repaid (hwalk : g.Walked path g₁) (hgrown : g.Grown leaf key g₁)
    (hback : (g₁.modify leaf f).Repaid path reward g') {id : Nat} (hleaf : id ≠ leaf)
    (hid : id ∉ path.map Step.node) : g'.node id = g.node id := by
  rw [hback.rest id hid, Graph.node_modify, if_neg fun hboth => hleaf hboth.1.symm]
  exact hwalk.node_eq hgrown hid (.inr hleaf)

theorem Graph.Grown.repaid (hgrown : g.Grown leaf key g₁) (hf : ∀ n, (f n).key = n.key)
    (hback : (g₁.modify leaf f).Repaid path reward g') : g.Grown leaf key g' := by
  refine hgrown.trans (hback.size.trans (Graph.size_modify _ _ _)) hback.index fun id => ?_
  rw [hback.key, Graph.node_modify]
  split
  · exact hf _
  · rfl

end Phases

namespace Engine

section Successful

variable [Score α] [Confidence α] {e e₁ e' : Engine α σ} {p q p' : Position} {root leaf : Nat}

/-- A descent that succeeds has found its way to a leaf. -/
theorem descend_ok (hpath : e.path = []) (hroom : ∀ s ∈ (Station.mk e p root).walk, s.HasRoom)
    (h : e.descend p root = (.ok leaf, e₁, q)) :
    ∃ t ∈ (Station.mk e p root).walk, t.isLeaf = true ∧ t.Afoot p ∧ leaf = t.node ∧ e₁ = t.selected ∧
      q = t.position := by
  have hstart : (Station.mk e p root).Afoot p := Station.afoot_of_path_eq_nil hpath
  obtain ⟨t, ht, ⟨hleaf, hend⟩ | ⟨_, _, _, _, _, hend⟩⟩ := exists_descend_eq (Station.mk e p root)
  · cases h.symm.trans hend
    exact ⟨t, ht, hleaf, hstart.walk hroom t ht, rfl, rfl, rfl⟩
  · cases h.symm.trans hend

/-- The phases of a successful iteration. -/
theorem iterate_ok [RandomSource σ] (hdescend : e.descend p root = (.ok leaf, e₁, q))
    (h : e.iterate p root = (.ok (), e', p')) :
    ∃ reward e₂ q₂, e₁.evaluateLeaf q leaf = (.ok reward, e₂, q₂) ∧
      creditPath e₂.path reward e₂.graph q₂ = (.ok (), e'.path, e'.graph, p') := by
  unfold iterate at h
  rw [hdescend] at h
  simp only at h
  split at h
  · cases h
  · rename_i reward e₂ q₂ heval
    refine ⟨reward, e₂, q₂, heval, ?_⟩
    cases hcredit : creditPath e₂.path reward e₂.graph q₂ with
    | mk result rest =>
      rw [hcredit] at h
      cases h
      rfl

end Successful

variable [RandomSource σ]

/-! ## An iteration that can be followed -/

/-- Without playouts every move can be seeded. -/
theorem seedEdges_zero [Score α] (moves : List Move) (s : Sampler σ) (p : Position) :
    (seedEdges 0 moves s p : Except Error (List (Edge α)) × Sampler σ × Position) =
      (.ok (moves.map fun m => ⟨m, 0, Score.zero⟩), s, p) := by
  induction moves with
  | nil => rfl
  | cons m moves ih =>
    have hsample : (s.sample p m 0 : Except Error α × Sampler σ × Position) = (.ok Score.zero, s, p) := rfl
    simp only [seedEdges, hsample, ih, List.map_cons]

/-- Without playouts an iteration succeeds once it has come to a leaf, and keeps the settings. -/
theorem exists_iterate_eq_of_no_samples [Score α] [Confidence α] {e e₁ : Engine α σ} {p q : Position}
    {root leaf : Nat} (hpath : e.path = []) (hsamples : e.config.samples = 0)
    (hroom : ∀ s ∈ (Station.mk e p root).walk, s.HasRoom)
    (hdescend : e.descend p root = (.ok leaf, e₁, q)) :
    ∃ e', e.iterate p root = (.ok (), e', p) ∧ e'.config = e.config := by
  obtain ⟨t, ht, _, hafoot, rfl, rfl, rfl⟩ := descend_ok hpath hroom hdescend
  have hconfig : t.selected.config = e.config := Station.config_walk t ht
  obtain ⟨reward, e₂, heval, hconfig₂⟩ : ∃ reward e₂,
      t.selected.evaluateLeaf t.position t.node = (.ok reward, e₂, t.position) ∧ e₂.config = e.config := by
    rcases t.selected.evaluateLeaf_cases t.position t.node with
      ⟨_, reward, heq⟩ | ⟨_, err, e₂, hexp, _⟩ | ⟨hv, reward, e₂, hexp, heq⟩
    · exact ⟨reward, _, heq, hconfig⟩
    · simp only [expand, hconfig, hsamples, seedEdges_zero] at hexp
      cases hexp
    · exact ⟨reward, e₂, heq, (expand_keeps hexp hv).2.2.1.trans hconfig⟩
  obtain ⟨htrail, _⟩ := trail_evaluateLeaf hafoot (hroom t ht) heval
  obtain ⟨g', _, hcredit⟩ := htrail.creditPath_eq reward
  unfold iterate
  simp only [hdescend, heval, hcredit]
  exact ⟨_, rfl, hconfig₂⟩

/-- A graph of two nodes with one move out of each, `m` from the position `p` and `n` from its successor. -/
def twoNodes (p : Position) (m n : Move) : Graph Float := linked p m #[⟨n, 0, 0.5⟩]

omit [RandomSource σ] in
/-- A descent plays both moves and adds a leaf. -/
theorem descend_twoNodes {e : Engine Float σ} {p : Position} {m n : Move} (hgraph : e.graph = twoNodes p m n)
    (hpath : e.path = []) (hm : p.refusal? m = none) (hn : (p.advance m).refusal? n = none)
    (hnew : (p.advance m).hash ≠ ((p.advance m).advance n).hash ∧ p.hash ≠ ((p.advance m).advance n).hash) :
    ∃ e₁, e.descend p 0 = (.ok 2, e₁, (p.advance m).advance n) ∧ e₁.path = [⟨1, 0⟩, ⟨0, 0⟩] := by
  obtain ⟨config, graph, sampler, path, stats⟩ := e
  obtain rfl : graph = twoNodes p m n := hgraph
  obtain rfl : path = [] := hpath
  let g₁ := (twoNodes p m n).modify 0 Node.visit
  let g₂ := g₁.modify 1 Node.visit
  have hlocate₁ : g₁.locate (p.advance m).hash = (1, g₁) := by
    rw [Graph.locate, Graph.find?_modify, twoNodes, find?_linked, if_pos rfl]
  have hlocate₂ : (g₂.locate ((p.advance m).advance n).hash).1 = 2 := by
    rw [Graph.locate, Graph.find?_modify, Graph.find?_modify, twoNodes, find?_linked, if_neg hnew.1, if_neg hnew.2]
    rfl
  let s₀ : Station Float σ := ⟨⟨config, twoNodes p m n, sampler, [], stats⟩, p, 0⟩
  let s₁ : Station Float σ := ⟨⟨config, g₁, sampler, [⟨0, 0⟩], stats⟩, p.advance m, 1⟩
  let s₂ : Station Float σ := ⟨⟨config, (g₂.locate ((p.advance m).advance n).hash).2, sampler, [⟨1, 0⟩, ⟨0, 0⟩],
    stats⟩, (p.advance m).advance n, 2⟩
  have hnext₁ : s₀.next? = some s₁ := Station.next?_of_single (a := ⟨m, 1, 0.25⟩) rfl rfl hm hlocate₁
  have hnext₂ : s₁.next? = some s₂ :=
    Station.next?_of_single (a := ⟨n, 0, 0.5⟩) rfl rfl hn (Prod.ext hlocate₂ rfl)
  have hleaf : s₂.isLeaf = true := by
    rw [Station.isLeaf, Node.isVisited, Graph.visits_locate]
    rfl
  exact ⟨s₂.selected, (descend_of_next? hnext₁).trans ((descend_of_next? hnext₂).trans (descend_of_isLeaf hleaf)), rfl⟩

/-! ## Every iteration -/

/-- **An iteration credits its path and nothing else.** Let a successful iteration descend along a path that passes no
node twice, and let no visit counter wrap. Then, with the reward of the leaf (`LeafReward`: 1 where the position is
lost, 0 at a visited leaf where it is not, else what the largest seed of the new edges leaves to 1),

* the edge of the newest step gets the reward, the one before it what is left to 1, and so on in turn up to the root;
  these edges and their nodes have one more visit each, and keep their moves, their keys and all other edges;
* a leaf that was visited has one more visit, another one has become a node with an unvisited edge for every legal
  move of the position reached;
* every other node is as it was, and so are the numbers and keys of all nodes, but for the leaf, which may be new. -/
theorem iterate_credits_path {e e₁ e' : Engine Float σ} {p q p' : Position} {root leaf : Nat}
    (hp : p.Consistent) (hpath : e.path = []) (hrange : e.graph.InRange) (hroot : root < e.graph.size)
    (hsamples : e.config.samples < UInt32.size) (hroom : ∀ s ∈ (Station.mk e p root).walk, s.HasRoom)
    (hdescend : e.descend p root = (.ok leaf, e₁, q)) (hdistinct : (e₁.path.map Step.node).Nodup)
    (hedges : ∀ step ∈ e₁.path, ∀ edge, (e.graph.node step.node).edges[step.edge]? = some edge →
      edge.visits.toNat + 1 < UInt32.size)
    (hit : e.iterate p root = (.ok (), e', p')) :
    p' = p ∧ e'.path = [] ∧ leaf ∉ e₁.path.map Step.node ∧
    (∃ reward, LeafReward q (e.graph.node leaf).isVisited (e'.graph.node leaf).edges reward ∧
      ∀ i step, e₁.path[i]? = some step →
        (e.graph.node step.node).Passed step.edge (flipped i reward) (e'.graph.node step.node)) ∧
    ((e.graph.node leaf).isVisited = true → (e.graph.node leaf).Revisited (e'.graph.node leaf)) ∧
    ((e.graph.node leaf).isVisited = false → (e'.graph.node leaf).Opened e.config.samples q) ∧
    (∀ id, id ≠ leaf → id ∉ e₁.path.map Step.node → e'.graph.node id = e.graph.node id) ∧
    e.graph.Grown leaf q.hash e'.graph := by
  -- the way down
  obtain ⟨t, ht, hleaf, hafoot, rfl, rfl, rfl⟩ := descend_ok hpath hroom hdescend
  have hwalk : e.graph.Walked t.engine.path t.engine.graph := Station.walked hpath hroom t ht
  have hgrown : e.graph.Grown t.node t.position.hash t.engine.graph := (Station.reached hrange hroot t ht).toGrown
  have hnot := Station.leaf_notMem_path hafoot hleaf
  -- the leaf
  obtain ⟨reward, e₂, q₂, heval, hcredit⟩ := iterate_ok hdescend hit
  have hconfig : t.selected.config = e.config := Station.config_walk t ht
  have hempty : (t.engine.graph.node t.node).isVisited = true → (t.engine.graph.node t.node).edges = #[] := by
    intro hv
    rw [Station.isLeaf, hv, Bool.not_true, Bool.false_or] at hleaf
    exact (Node.moves_eq_nil _).1 ((Node.isTerminal_iff _).1 hleaf).2
  obtain ⟨rfl, hpath₂, ⟨f, hf, hgraph₂⟩, hreward, hrevisited, hopened⟩ := evaluateLeaf_effect (e := t.selected)
    (Trail.consistent hafoot hp) (hconfig ▸ hsamples) hgrown.lt_size (hroom t ht) hempty heval
  -- the way back
  obtain ⟨htrail, _⟩ := trail_evaluateLeaf hafoot (hroom t ht) heval
  change e₂.path = t.engine.path at hpath₂
  change e₂.graph = t.engine.graph.modify t.node f at hgraph₂
  rw [hpath₂] at hcredit htrail
  obtain ⟨g', heq, hback⟩ := htrail.creditPath_distinct hdistinct reward
  obtain ⟨hpath', rfl, rfl⟩ : e'.path = [] ∧ e'.graph = g' ∧ p' = p := by
    simpa using hcredit.symm.trans heq
  rw [hgraph₂] at hback
  have hleaf' : e'.graph.node t.node = e₂.graph.node t.node := by rw [hback.rest _ hnot, hgraph₂]
  have hvisited : (t.selected.graph.node t.node).isVisited = (e.graph.node t.node).isVisited :=
    congrArg (fun visits => decide (0 < visits)) (hwalk.visits_eq hnot)
  rw [hvisited] at hreward hrevisited hopened
  rw [hconfig] at hopened
  rw [hleaf']
  refine ⟨rfl, hpath', hnot, ⟨reward, hreward, fun i step hi => ?_⟩, fun hv => ?_, hopened, fun id hid hrest => ?_,
    hgrown.repaid hf hback⟩
  · have hmem := List.mem_of_getElem? hi
    obtain ⟨m, hm⟩ := Option.isSome_iff_exists.1 (Trail.isSome_moveAt? hafoot step hmem)
    rw [Graph.moveAt?, Node.getElem?_moves, hwalk.edges, Option.map_eq_some_iff] at hm
    obtain ⟨a, ha, _⟩ := hm
    exact hwalk.passed hgrown hback hdistinct hnot hi ha (hedges step hmem a ha)
  · have hold : t.engine.graph.node t.node = e.graph.node t.node :=
      hwalk.node_eq hgrown hnot (.inl (Graph.lt_size_of_isVisited hv))
    rw [← hold]
    exact hrevisited hv
  · exact hwalk.node_repaid hgrown hback hid hrest

/-- A path of two steps to a leaf that is added and expanded without playouts: it rewards the second step with 1 and
the first with 0. -/
theorem iterate_credits_path_two :
    let p := Position.startWith ⟨.ofFn fun i => .ofNat i.val, .ofFn fun i => .ofNat (64 * (i.val + 1)), 0⟩
    let e : Engine Float ChaCha := .new ⟨1, 1.4, 0, none⟩ (.ofSeed 0) (twoNodes p ⟨⟨12⟩, ⟨20⟩⟩ ⟨⟨52⟩, ⟨44⟩⟩)
    ∃ e', e.iterate p 0 = (.ok (), e', p) ∧
      (∃ a, (e'.graph.node 1).edges[0]? = some a ∧ a.visits = 1 ∧ a.total = 1.5) ∧
      (∃ a, (e'.graph.node 0).edges[0]? = some a ∧ a.visits = 2 ∧ a.total = 0.25) ∧
      (e'.graph.node 2).visits = 1 := by
  intro p e
  let q := (p.advance ⟨⟨12⟩, ⟨20⟩⟩).advance ⟨⟨52⟩, ⟨44⟩⟩
  have hp : p.Consistent := (Position.Game.start _).consistent
  have hlost : q.isLost = false := by decide +kernel
  obtain ⟨e₁, hdescend, hpath⟩ : ∃ e₁, e.descend p 0 = (.ok 2, e₁, q) ∧ e₁.path = [⟨1, 0⟩, ⟨0, 0⟩] :=
    descend_twoNodes rfl rfl (by decide +kernel) (by decide +kernel) (by decide +kernel)
  have hroom : ∀ s ∈ (Station.mk e p 0).walk, s.HasRoom := by
    intro s hs
    have hvisits := visitsLe_walk (s := ⟨e, p, 0⟩) (visitsLe_linked _ _ _) s hs s.node
    exact Nat.lt_of_le_of_lt (Nat.succ_le_succ hvisits) (by decide)
  have hedges : ∀ step ∈ e₁.path, ∀ edge, (e.graph.node step.node).edges[step.edge]? = some edge →
      edge.visits.toNat + 1 < UInt32.size := by
    rw [hpath, List.forall_mem_cons, List.forall_mem_singleton]
    constructor
    · intro edge hedge
      cases hedge
      decide
    · intro edge hedge
      cases hedge
      decide
  obtain ⟨e', hit, _⟩ := exists_iterate_eq_of_no_samples rfl rfl hroom hdescend
  obtain ⟨_, _, _, ⟨reward, hreward, hpassed⟩, _, hopened, _, _⟩ :=
    iterate_credits_path hp rfl (inRange_linked _ _ _) (Nat.zero_lt_succ 1) (by decide) hroom hdescend
      (by rw [hpath]; decide) hedges hit
  have hopen := hopened rfl
  -- every seed is 0, so the leaf rewards with 1
  obtain ⟨best, hbest, rfl, _⟩ := hreward.best hlost rfl
  have hzero : best.total = 0.0 := (hopen.edges best hbest).2
  rw [hpath, hzero] at hpassed
  refine ⟨e', hit, ?_, ?_, hopen.visits⟩
  · obtain ⟨a, b, ha, hb, _, hvisits, htotal⟩ := (hpassed 0 ⟨1, 0⟩ rfl).credited
    cases ha
    exact ⟨b, hb, UInt32.toNat_inj.1 hvisits, htotal.trans (by decide)⟩
  · obtain ⟨a, b, ha, hb, _, hvisits, htotal⟩ := (hpassed 1 ⟨0, 0⟩ rfl).credited
    cases ha
    exact ⟨b, hb, UInt32.toNat_inj.1 hvisits, htotal.trans (by decide)⟩

end Engine

end Breakthrough.Search
