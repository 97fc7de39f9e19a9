import Mathlib.Algebra.Order.BigOperators.Group.List
import Mathlib.Algebra.Order.Ring.Nat
import Breakthrough.Proofs.Growth

/-!
# What an iteration writes down

An iteration visits the nodes that it passes on the way down, visits or expands the leaf, and credits the edges
that it has followed on the way back. `Graph.Walked`, `Graph.Evaluated` and `Graph.Credited` tell what each of
these phases changes, counted over the path, which may pass a node several times: hashes may collide and a path
may come back to a node. Together they make `Graph.Iterated`, the whole account of a successful iteration
(`iterated_iterate`); a failed one has visited nodes but no edges (`stalled_iterate`).
-/

namespace Breakthrough.Search

variable {α σ : Type}

/-! ## The visits of edges -/

theorem Edge.toNat_visits_credit [Score α] {e : Edge α} (h : e.visits.toNat + 1 < UInt32.size) (reward : α) :
    (e.credit reward).visits.toNat = e.visits.toNat + 1 := by
  rw [Edge.credit, UInt32.toNat_add, UInt32.toNat_one, Nat.mod_eq_of_lt h]

namespace Node

/-- The visits of the edges whose moves have a property. -/
def visitsAlong (n : Node α) (P : Move → Prop) [DecidablePred P] : Nat :=
  ((n.edges.toList.filter fun e => P e.move).map fun e => e.visits.toNat).sum

def edgeVisits (n : Node α) : Nat := (n.edges.toList.map fun e => e.visits.toNat).sum

variable {n : Node α} {P : Move → Prop} [DecidablePred P]

theorem visitsAlong_true (n : Node α) : n.visitsAlong (fun _ => True) = n.edgeVisits := by
  simp [visitsAlong, edgeVisits]

theorem visitsAlong_of_fresh (h : ∀ e ∈ n.edges, e.visits = 0) : n.visitsAlong P = 0 := by
  refine List.sum_eq_zero fun x hx => ?_
  obtain ⟨e, he, rfl⟩ := List.mem_map.1 hx
  rw [h e (by simpa using (List.mem_filter.1 he).1)]
  rfl

theorem visits_le_edgeVisits {i : Nat} {edge : Edge α} (h : n.edges[i]? = some edge) :
    edge.visits.toNat ≤ n.edgeVisits := by
  refine List.single_le_sum (fun _ _ => Nat.zero_le _) _ (List.mem_map.2 ⟨edge, ?_, rfl⟩)
  simpa using Array.mem_of_getElem? h

/-- The node after a reward for one of its edges. -/
def credited [Score α] (n : Node α) (edge : Nat) (reward : α) : Node α :=
  { n with edges := n.edges.modify edge (Edge.credit · reward) }

theorem visitsAlong_credited [Score α] {i : Nat} {edge : Edge α} (h : n.edges[i]? = some edge)
    (hroom : edge.visits.toNat + 1 < UInt32.size) (reward : α) :
    (n.credited i reward).visitsAlong P = n.visitsAlong P + if P edge.move then 1 else 0 := by
  have hvisits := Edge.toNat_visits_credit hroom reward
  have hlist : ∀ (l : List (Edge α)) (i : Nat), l[i]? = some edge →
      (((l.modify i (Edge.credit · reward)).filter fun e => P e.move).map fun e => e.visits.toNat).sum =
        ((l.filter fun e => P e.move).map fun e => e.visits.toNat).sum + if P edge.move then 1 else 0 := by
    intro l
    induction l with
    | nil => intro i hi; cases hi
    | cons e l ih =>
      intro i hi
      cases i with
      | zero =>
        cases hi
        have hmove : (edge.credit reward).move = edge.move := rfl
        by_cases hP : P edge.move
        · simp [hmove, hP, hvisits]; omega
        · simp [hmove, hP]
      | succ i =>
        have hrest := ih i hi
        by_cases hP : P e.move
        · simp [hP, hrest]; omega
        · simp [hP, hrest]
  rw [visitsAlong, credited, Array.toList_modify]
  exact hlist _ i (by rwa [Array.getElem?_toList])

end Node

namespace Graph

theorem node_of_size_le {g : Graph α} {id : Nat} (h : g.size ≤ id) : g.node id = .fresh 0 := by
  rw [node, Array.getElem?_eq_none h]
  rfl

theorem lt_size_of_edge {g : Graph α} {id i : Nat} {edge : Edge α}
    (h : (g.node id).edges[i]? = some edge) : id < g.size := by
  refine Nat.lt_of_not_le fun hle => ?_
  rw [node_of_size_le hle] at h
  cases h

theorem visits_locate (g : Graph α) (key : UInt64) (j : Nat) :
    ((g.locate key).2.node j).visits = (g.node j).visits := by
  rw [node_locate]
  split
  · rename_i h
    rw [node_of_size_le h.2.ge]
    rfl
  · rfl

theorem edges_locate (g : Graph α) (key : UInt64) (j : Nat) :
    ((g.locate key).2.node j).edges = (g.node j).edges := by
  rw [node_locate]
  split
  · rename_i h
    rw [node_of_size_le h.2.ge]
    rfl
  · rfl

/-! ## Crediting a path -/

/-- The move that a step of a path stands for. -/
def moveAt? (g : Graph α) (step : Step) : Option Move := (g.node step.node).moves[step.edge]?

/-- How often a path leaves a node by a move with a property. -/
def departures (g : Graph α) (path : List Step) (id : Nat) (P : Move → Prop) [DecidablePred P] : Nat :=
  path.countP fun step => step.node = id && (g.moveAt? step).any (P ·)

theorem departures_append (g : Graph α) (path rest : List Step) (id : Nat) (P : Move → Prop)
    [DecidablePred P] :
    g.departures (path ++ rest) id P = g.departures path id P + g.departures rest id P :=
  List.countP_append

theorem departures_singleton {g : Graph α} {step : Step} {m : Move} (h : g.moveAt? step = some m)
    (id : Nat) (P : Move → Prop) [DecidablePred P] :
    g.departures [step] id P = if step.node = id ∧ P m then 1 else 0 := by
  simp [departures, List.countP_cons, h]

theorem departures_congr {g g' : Graph α} {path : List Step}
    (h : ∀ step ∈ path, g'.moveAt? step = g.moveAt? step) (id : Nat) (P : Move → Prop) [DecidablePred P] :
    g'.departures path id P = g.departures path id P := by
  refine List.countP_congr fun step hstep => ?_
  rw [h step hstep]

theorem departures_true {g : Graph α} {path : List Step} (h : ∀ step ∈ path, (g.moveAt? step).isSome)
    (id : Nat) : g.departures path id (fun _ => True) = (path.map Step.node).count id := by
  rw [List.count, List.countP_map]
  refine List.countP_congr fun step hstep => ?_
  obtain ⟨m, hm⟩ := Option.isSome_iff_exists.1 (h step hstep)
  simp [hm]

/-- What the credit of a path changes: the visits of the edges that the path left by, one for each time. -/
structure Credited (path : List Step) (g g' : Graph α) : Prop where
  visits : ∀ id, (g'.node id).visits = (g.node id).visits
  moves : ∀ id, (g'.node id).moves = (g.node id).moves
  flow : ∀ id (P : Move → Prop) [DecidablePred P],
    (g'.node id).visitsAlong P = (g.node id).visitsAlong P + g.departures path id P

theorem node_credit [Score α] (g : Graph α) (id edge : Nat) (reward : α) (j : Nat) :
    (g.credit id edge reward).node j =
      if id = j ∧ j < g.size then (g.node j).credited edge reward else g.node j :=
  node_modify g id _ j

theorem visitsAlong_credit [Score α] {g : Graph α} {id i : Nat} {edge : Edge α}
    (h : (g.node id).edges[i]? = some edge) (hroom : edge.visits.toNat + 1 < UInt32.size) (reward : α)
    (j : Nat) (P : Move → Prop) [DecidablePred P] :
    ((g.credit id i reward).node j).visitsAlong P =
      (g.node j).visitsAlong P + if id = j ∧ P edge.move then 1 else 0 := by
  rw [node_credit]
  by_cases hj : id = j
  · subst hj
    rw [if_pos ⟨rfl, lt_size_of_edge h⟩, Node.visitsAlong_credited h hroom]
    simp
  · simp [hj]

theorem credited_nil (g : Graph α) : g.Credited [] g :=
  ⟨fun _ => rfl, fun _ => rfl, fun _ _ _ => rfl⟩

/-- One more step. -/
theorem Credited.credit [Score α] {g h : Graph α} {path : List Step} {step : Step} {edge : Edge α}
    (hpath : g.Credited path h) (hedge : (h.node step.node).edges[step.edge]? = some edge)
    (hroom : edge.visits.toNat + 1 < UInt32.size) (reward : α) :
    g.Credited (path ++ [step]) (h.credit step.node step.edge reward) := by
  have hmove : g.moveAt? step = some edge.move := by
    rw [moveAt?, ← hpath.moves, Node.getElem?_moves, hedge, Option.map_some]
  constructor
  · intro id
    rw [← hpath.visits, node_credit]
    split <;> rfl
  · intro id
    rw [← hpath.moves, node_credit]
    split
    · exact moves_credit _ _ _
    · rfl
  · intro id P _
    rw [visitsAlong_credit hedge hroom, hpath.flow, departures_append, departures_singleton hmove,
      Nat.add_assoc]

/-- No counter of an edge can be at its end when its turn on a path comes. -/
def HasRoomFor (path : List Step) (g : Graph α) : Prop :=
  ∀ id, (g.node id).edgeVisits + (path.map Step.node).count id < UInt32.size

theorem HasRoomFor.credit [Score α] {g : Graph α} {path : List Step} {step : Step} {edge : Edge α}
    (h : g.HasRoomFor (step :: path)) (hedge : (g.node step.node).edges[step.edge]? = some edge) (reward : α) :
    edge.visits.toNat + 1 < UInt32.size ∧ (g.credit step.node step.edge reward).HasRoomFor path := by
  have hroom : edge.visits.toNat + 1 < UInt32.size := by
    have hle := Node.visits_le_edgeVisits hedge
    have hstep := h step.node
    rw [List.map_cons, List.count_cons_self] at hstep
    omega
  refine ⟨hroom, fun id => ?_⟩
  have hid := h id
  rw [List.map_cons, List.count_cons] at hid
  rw [← Node.visitsAlong_true, visitsAlong_credit hedge hroom, Node.visitsAlong_true]
  simp only [beq_iff_eq] at hid
  simp only [and_true]
  omega

end Graph

namespace Trail

variable {g : Graph α} {p₀ p : Position} {path : List Step}

theorem isSome_moveAt? (h : Trail g p₀ path p) : ∀ step ∈ path, (g.moveAt? step).isSome := by
  induction h with
  | nil => intro step hstep; cases hstep
  | cons _ _ hm _ ih =>
    intro step hstep
    rcases List.mem_cons.1 hstep with rfl | hstep
    · rw [Graph.moveAt?, hm]
      rfl
    · exact ih step hstep

/-- If no counter of an edge can wrap, crediting a path counts every step once. -/
theorem creditPath_credited [Score α] (h : Trail g p₀ path p) (reward : α) (hroom : g.HasRoomFor path) :
    ∃ g', g.Extends g' ∧ g.Credited path g' ∧
      Engine.creditPath path reward g p = (.ok (), [], g', p₀) := by
  -- the path is credited from its newest step on
  obtain ⟨g', _, hgrow, ⟨_, done, hdone, hcredited⟩, heq⟩ := h.creditPath_induction
    (P := fun rest _ g' => g'.HasRoomFor rest ∧ ∃ done, done ++ rest = path ∧ g.Credited done g')
    reward ⟨hroom, [], rfl, g.credited_nil⟩ (by
      rintro g' step rest edge reward hedge ⟨hroom', done, rfl, hcredited⟩
      obtain ⟨hnow, hlater⟩ := hroom'.credit hedge reward
      exact ⟨hlater, done ++ [step], by simp, hcredited.credit hedge hnow reward⟩)
  rw [List.append_nil] at hdone
  subst hdone
  exact ⟨g', hgrow, hcredited, heq⟩

end Trail

/-! ## The way down -/

/-- What a descent changes: every node on its path has been visited once for each time it was passed. -/
structure Graph.Walked (path : List Step) (g g' : Graph α) : Prop where
  visits : ∀ id, (g'.node id).visits.toNat =
    (g.node id).visits.toNat + (path.map Step.node).count id
  edges : ∀ id, (g'.node id).edges = (g.node id).edges

theorem Node.toNat_visits_visit {n : Node α} (h : n.visits.toNat + 1 < UInt32.size) :
    n.visit.visits.toNat = n.visits.toNat + 1 := by
  rw [Node.visit, UInt32.toNat_add, UInt32.toNat_one, Nat.mod_eq_of_lt h]

theorem Graph.toNat_visits_visit {g : Graph α} {id : Nat} (hid : id < g.size)
    (h : (g.node id).visits.toNat + 1 < UInt32.size) (j : Nat) :
    ((g.modify id Node.visit).node j).visits.toNat =
      (g.node j).visits.toNat + if id = j then 1 else 0 := by
  rw [Graph.node_modify]
  by_cases hj : id = j
  · subst hj
    rw [if_pos ⟨rfl, hid⟩, if_pos rfl, Node.toNat_visits_visit h]
  · simp [hj]

theorem Graph.edges_visit (g : Graph α) (id j : Nat) :
    ((g.modify id Node.visit).node j).edges = (g.node j).edges := by
  rw [Graph.node_modify]
  split <;> rfl

namespace Station

variable [Score α] [Confidence α] {s t : Station α σ}

theorem walked_next? (h : s.next? = some t) (hroom : s.HasRoom) {g : Graph α}
    (hs : g.Walked s.engine.path s.engine.graph) : g.Walked t.engine.path t.engine.graph := by
  obtain ⟨edge, hleaf, _, _, rfl⟩ := next?_eq_some h
  have hid := Graph.lt_size_of_isVisited (isLeaf_eq_false hleaf).1
  constructor
  · intro id
    change (((s.counted.graph.locate _).2.node id).visits).toNat = _ +
      ((⟨s.node, s.edge⟩ :: s.engine.path).map Step.node).count id
    rw [Graph.visits_locate, counted, Graph.toNat_visits_visit hid hroom, hs.visits, List.map_cons,
      List.count_cons, Nat.add_assoc]
    simp
  · intro id
    change ((s.counted.graph.locate _).2.node id).edges = _
    rw [Graph.edges_locate, counted, Graph.edges_visit, hs.edges]

theorem walked (hpath : s.engine.path = []) (hroom : ∀ t ∈ s.walk, t.HasRoom) :
    ∀ t ∈ s.walk, s.engine.graph.Walked t.engine.path t.engine.graph := by
  refine walk_induction s ⟨fun id => ?_, fun _ => rfl⟩ fun u hu _ hnext => walked_next? hnext (hroom u hu)
  rw [hpath]
  rfl

end Station

/-! ## The leaf -/

/-- What the evaluation of a leaf changes: it has been visited once more. A leaf that was unvisited may have new
edges, none of which has been visited. -/
structure Graph.Evaluated (leaf : Nat) (g g' : Graph α) : Prop where
  visits : ∀ id, (g'.node id).visits.toNat = (g.node id).visits.toNat + if leaf = id then 1 else 0
  edges : ∀ id, leaf ≠ id ∨ (g.node id).isVisited = true → (g'.node id).edges = (g.node id).edges
  fresh : (g.node leaf).isVisited = false → ∀ e ∈ (g'.node leaf).edges, e.visits = 0

theorem mem_sortEdges [Score α] {edges : List (Edge α)} {e : Edge α} : e ∈ Engine.sortEdges edges ↔ e ∈ edges :=
  (List.mergeSort_perm edges _).mem_iff

namespace Engine

variable [Score α] [RandomSource σ]

/-- What holds of every move with a value that was sampled for it holds of all seeded edges. -/
theorem forall_mem_seedEdges {P : Edge α → Prop} {samples : Nat} {moves : List Move} {s s' : Sampler σ}
    {p q : Position} {edges : List (Edge α)} (h : seedEdges samples moves s p = (.ok edges, s', q))
    (sampled : ∀ {s s' : Sampler σ} {p q : Position} {m : Move} {value : α},
      s.sample p m samples = (.ok value, s', q) → P ⟨m, 0, value⟩) :
    ∀ e ∈ edges, P e := by
  induction moves generalizing s p edges with
  | nil =>
    cases h
    intro e he
    cases he
  | cons m moves ih =>
    rw [seedEdges] at h
    split at h
    · cases h
    rename_i hsample
    split at h
    · cases h
    rename_i hrest
    cases h
    intro e he
    rcases List.mem_cons.1 he with rfl | he
    · exact sampled hsample
    · exact ih hrest e he

theorem visits_seedEdges {samples : Nat} {moves : List Move} {s s' : Sampler σ} {p q : Position}
    {edges : List (Edge α)} (h : seedEdges samples moves s p = (.ok edges, s', q)) :
    ∀ e ∈ edges, e.visits = 0 :=
  forall_mem_seedEdges h fun _ => rfl

theorem expand_ok {e e' : Engine α σ} {p q : Position} {id : Nat} (h : e.expand p id = (.ok (), e', q)) :
    ∃ edges : Array (Edge α), (∀ x ∈ edges, x.visits = 0) ∧
      e'.graph = e.graph.modify id (expanded edges) := by
  rw [expand] at h
  simp only at h
  split at h
  · cases h
  · rename_i edges sampler r hseed
    cases h
    refine ⟨(sortEdges edges).toArray, fun x hx => ?_, rfl⟩
    exact visits_seedEdges hseed x (mem_sortEdges.1 (List.mem_toArray.1 hx))

theorem evaluated_expand {e e' : Engine α σ} {p q : Position} {id : Nat}
    (h : e.expand p id = (.ok (), e', q)) (hid : id < e.graph.size)
    (hv : (e.graph.node id).isVisited = false) : e.graph.Evaluated id e'.graph := by
  obtain ⟨edges, hfresh, hgraph⟩ := expand_ok h
  rw [hgraph]
  have hnode := Graph.node_modify e.graph id (expanded edges)
  have hzero : (e.graph.node id).visits.toNat = 0 := by
    have := (Node.isVisited_iff (e.graph.node id)).not.1 (by simp [hv])
    omega
  constructor
  · intro j
    rw [hnode]
    by_cases hj : id = j
    · subst hj
      rw [if_pos ⟨rfl, hid⟩, if_pos rfl, hzero]
      rfl
    · simp [hj]
  · rintro j (hj | hj)
    · rw [hnode, if_neg fun h => hj h.1]
    · rw [hnode, if_neg]
      rintro ⟨rfl, _⟩
      rw [hv] at hj
      cases hj
  · intro _
    rw [hnode, if_pos ⟨rfl, hid⟩]
    exact hfresh

theorem graph_expand_error {e e' : Engine α σ} {p q : Position} {id : Nat} {err : Error}
    (h : e.expand p id = (.error err, e', q)) : e'.graph = e.graph := by
  rcases e.expand_cases p id with ⟨_, _, _, heq⟩ | ⟨_, _, _, heq⟩
  · rw [heq] at h
    cases h
    rfl
  · rw [heq] at h
    cases h

theorem graph_evaluateLeaf_error {e e' : Engine α σ} {p q : Position} {leaf : Nat} {err : Error}
    (h : e.evaluateLeaf p leaf = (.error err, e', q)) : e'.graph = e.graph := by
  rcases e.evaluateLeaf_cases p leaf with ⟨_, _, heq⟩ | ⟨_, _, _, hexp, heq⟩ | ⟨_, _, _, _, heq⟩
  · rw [heq] at h
    cases h
  · rw [heq] at h
    cases h
    exact graph_expand_error hexp
  · rw [heq] at h
    cases h

theorem indexed_expand (e : Engine α σ) (p : Position) (id : Nat) (h : e.graph.Indexed) :
    (e.expand p id).2.1.graph.Indexed := by
  rcases e.expand_cases p id with ⟨err, sampler, _, heq⟩ | ⟨edges, sampler, _, heq⟩
  · rw [heq]
    exact h
  · rw [heq]
    exact h.modify rfl

theorem indexed_evaluateLeaf (e : Engine α σ) (p : Position) (leaf : Nat) (h : e.graph.Indexed) :
    (e.evaluateLeaf p leaf).2.1.graph.Indexed := by
  have hexp := indexed_expand e p leaf h
  rcases e.evaluateLeaf_cases p leaf with
    ⟨_, reward, heq⟩ | ⟨_, err, e', hexp', heq⟩ | ⟨_, reward, e', hexp', heq⟩
  · rw [heq]
    exact h.modify rfl
  · rw [hexp'] at hexp
    rwa [heq]
  · rw [hexp'] at hexp
    rwa [heq]

theorem evaluated_evaluateLeaf {e e' : Engine α σ} {p q : Position} {leaf : Nat} {reward : α}
    (h : e.evaluateLeaf p leaf = (.ok reward, e', q)) (hleaf : leaf < e.graph.size)
    (hroom : (e.graph.node leaf).visits.toNat + 1 < UInt32.size) : e.graph.Evaluated leaf e'.graph := by
  rcases e.evaluateLeaf_cases p leaf with
    ⟨hv, reward', heq⟩ | ⟨_, err, e₁, _, heq⟩ | ⟨hv, reward', e₁, hexp, heq⟩
  · rw [heq] at h
    cases h
    refine ⟨Graph.toNat_visits_visit hleaf hroom, fun id _ => Graph.edges_visit _ _ _, fun hunv => ?_⟩
    rw [hv] at hunv
    cases hunv
  · rw [heq] at h
    cases h
  · rw [heq] at h
    cases h
    exact evaluated_expand hexp hleaf hv

end Engine

/-! ## A whole iteration -/

namespace Node

/-- How much more often a node with edges has been visited than its first visit and its edges account for. -/
def surplus (n : Node α) : Int := if n.edges.isEmpty then 0 else n.visits.toNat - (1 + n.edgeVisits)

theorem edgeVisits_of_isEmpty {n : Node α} (h : n.edges.isEmpty = true) : n.edgeVisits = 0 := by
  rw [edgeVisits, Array.isEmpty_iff.1 h]
  rfl

theorem edgeVisits_le {n : Node α} (h : 0 ≤ n.surplus) : n.edgeVisits ≤ n.visits.toNat := by
  rw [surplus] at h
  split at h
  · rename_i hempty
    rw [edgeVisits_of_isEmpty hempty]
    exact Nat.zero_le _
  · omega

theorem isEmpty_of_unvisited {n : Node α} (h : 0 ≤ n.surplus) (hv : n.isVisited = false) :
    n.edges.isEmpty = true := by
  by_contra hedges
  have := (isVisited_iff n).not.1 (by simp [hv])
  rw [surplus, if_neg hedges] at h
  omega

theorem isEmpty_congr {n n' : Node α} (h : n'.moves = n.moves) : n'.edges.isEmpty = n.edges.isEmpty := by
  rw [Bool.eq_iff_iff, Array.isEmpty_iff, Array.isEmpty_iff, ← moves_eq_nil, ← moves_eq_nil, h]

theorem visitsAlong_congr {n n' : Node α} (h : n'.edges = n.edges) (P : Move → Prop) [DecidablePred P] :
    n'.visitsAlong P = n.visitsAlong P := by
  rw [visitsAlong, visitsAlong, h]

end Node

namespace Graph

/-- What a failed iteration leaves behind: visits to nodes, but none to edges. -/
structure Stalled (g g' : Graph α) : Prop where
  visits : ∀ id, (g.node id).visits.toNat ≤ (g'.node id).visits.toNat
  edges : ∀ id, (g'.node id).edges = (g.node id).edges

/-- What a successful iteration changes, given its path and its leaf. -/
structure Iterated (path : List Step) (leaf : Nat) (g g' : Graph α) : Prop where
  visits : ∀ id, (g'.node id).visits.toNat =
    (g.node id).visits.toNat + (leaf :: path.map Step.node).count id
  flow : ∀ id (P : Move → Prop) [DecidablePred P],
    (g'.node id).visitsAlong P = (g.node id).visitsAlong P + g'.departures path id P
  moves : ∀ id, leaf ≠ id ∨ (g.node id).isVisited = true → (g'.node id).moves = (g.node id).moves
  leaf : (g.node leaf).edges.isEmpty = true
  steps : ∀ step ∈ path, (g'.moveAt? step).isSome

variable {g g₁ g₂ g' : Graph α} {path : List Step} {leaf : Nat}

theorem Stalled.surplus_le (h : g.Stalled g') (id : Nat) : (g.node id).surplus ≤ (g'.node id).surplus := by
  have hvisits := h.visits id
  rw [Node.surplus, Node.surplus, Node.edgeVisits, Node.edgeVisits, h.edges]
  split <;> omega

theorem Walked.stalled (h : g.Walked path g') : g.Stalled g' :=
  ⟨fun id => by rw [h.visits]; exact Nat.le_add_right _ _, h.edges⟩

/-- An evaluation gives no edge a visit. -/
theorem Evaluated.visitsAlong (h : g.Evaluated leaf g') (hsolvent : 0 ≤ (g.node leaf).surplus) (id : Nat)
    (P : Move → Prop) [DecidablePred P] : (g'.node id).visitsAlong P = (g.node id).visitsAlong P := by
  by_cases hsame : leaf ≠ id ∨ (g.node id).isVisited = true
  · exact Node.visitsAlong_congr (h.edges id hsame) P
  · rw [not_or, not_not, Bool.not_eq_true] at hsame
    obtain ⟨rfl, hv⟩ := hsame
    have hnone := Array.isEmpty_iff.1 (Node.isEmpty_of_unvisited hsolvent hv)
    rw [Node.visitsAlong_of_fresh (h.fresh hv), Node.visitsAlong_of_fresh (by simp [hnone])]

/-- An edge is credited at most as often as its node was visited on the way down. -/
theorem Walked.hasRoomFor (hwalk : g.Walked path g₁) (hleaf : g₁.Evaluated leaf g₂)
    (hsolvent : ∀ id, 0 ≤ (g.node id).surplus) : g₂.HasRoomFor path := by
  intro id
  have hleast := le_trans (hsolvent leaf) (hwalk.stalled.surplus_le leaf)
  have hle := Node.edgeVisits_le (hsolvent id)
  have hlt : (g₁.node id).visits.toNat < UInt32.size := UInt32.toNat_lt_size _
  rw [hwalk.visits] at hlt
  rw [← Node.visitsAlong_true, hleaf.visitsAlong hleast, Node.visitsAlong_congr (hwalk.edges id),
    Node.visitsAlong_true]
  omega

/-- The way down, the leaf and the way back together. -/
theorem Walked.iterated (hwalk : g.Walked path g₁) (hleaf : g₁.Evaluated leaf g₂) (hback : g₂.Credited path g')
    (hsolvent : ∀ id, 0 ≤ (g.node id).surplus)
    (hend : (g₁.node leaf).isVisited = false ∨ (g₁.node leaf).isTerminal = true)
    (hsteps : ∀ step ∈ path, (g₂.moveAt? step).isSome) : g.Iterated path leaf g' := by
  have hsolvent₁ : 0 ≤ (g₁.node leaf).surplus := le_trans (hsolvent leaf) (hwalk.stalled.surplus_le leaf)
  have hmoveAt : ∀ step ∈ path, g'.moveAt? step = g₂.moveAt? step := fun step _ => by
    rw [moveAt?, moveAt?, hback.moves]
  constructor
  · intro id
    rw [hback.visits, hleaf.visits, hwalk.visits, List.count_cons, Nat.add_assoc]
    simp
  · intro id P _
    rw [departures_congr hmoveAt, hback.flow, hleaf.visitsAlong hsolvent₁,
      Node.visitsAlong_congr (hwalk.edges id)]
  · intro id hid
    have hid₁ : leaf ≠ id ∨ (g₁.node id).isVisited = true := by
      refine hid.imp_right fun hv => ?_
      rw [Node.isVisited_iff] at hv ⊢
      rw [hwalk.visits]
      omega
    rw [hback.moves, Node.moves, hleaf.edges id hid₁, hwalk.edges]
    rfl
  · rw [← hwalk.edges]
    rcases hend with hv | hterminal
    · exact Node.isEmpty_of_unvisited hsolvent₁ hv
    · exact (Bool.and_eq_true_iff.1 hterminal).2
  · intro step hstep
    rw [hmoveAt step hstep]
    exact hsteps step hstep

/-- A successful iteration visits a node as often as it credits the node's edges, a new leaf apart. -/
theorem Iterated.surplus_eq (h : g.Iterated path leaf g') (id : Nat) :
    (g'.node id).surplus = (g.node id).surplus := by
  have hvisits := h.visits id
  have hedges := h.flow id fun _ => True
  rw [Node.visitsAlong_true, Node.visitsAlong_true, departures_true h.steps] at hedges
  rw [List.count_cons] at hvisits
  by_cases hid : leaf = id
  · subst hid
    have hzero := Node.edgeVisits_of_isEmpty h.leaf
    rw [beq_self_eq_true, if_pos rfl] at hvisits
    rw [Node.surplus, Node.surplus, if_pos h.leaf]
    split
    · rfl
    · rename_i hnew
      -- only a leaf that was unvisited gets edges
      have hv : ¬ (g.node leaf).isVisited = true := by
        intro hv
        rw [Node.isEmpty_congr (h.moves leaf (.inr hv)), h.leaf] at hnew
        exact hnew rfl
      rw [Node.isVisited_iff] at hv
      omega
  · rw [beq_eq_false_iff_ne.2 hid, if_neg Bool.false_ne_true, Nat.add_zero] at hvisits
    rw [Node.surplus, Node.surplus, Node.isEmpty_congr (h.moves id (.inl hid))]
    split
    · rfl
    · omega

end Graph

/-! ## Stations and their nodes -/

namespace Station

/-- The station's node is the one that the index has for its position. -/
structure Placed (s : Station α σ) : Prop where
  indexed : s.engine.graph.Indexed
  place : s.engine.graph.find? s.position.hash = some s.node

variable {s t : Station α σ}

theorem Placed.lt_size (h : s.Placed) : s.node < s.engine.graph.size := ((h.indexed _ _).1 h.place).1

theorem Placed.key (h : s.Placed) : (s.engine.graph.node s.node).key = s.position.hash :=
  ((h.indexed _ _).1 h.place).2

variable [Score α] [Confidence α]

theorem Placed.next? (h : s.Placed) (hnext : s.next? = some t) : t.Placed := by
  obtain ⟨edge, _, _, _, rfl⟩ := next?_eq_some hnext
  have hcounted : s.counted.graph.Indexed := h.indexed.modify rfl
  exact ⟨hcounted.locate _, Graph.find?_locate_self _ _⟩

theorem Placed.walk (h : s.Placed) : ∀ t ∈ s.walk, t.Placed :=
  walk_induction s h fun _ _ _ hnext hu => hu.next? hnext

end Station

namespace Engine

variable [Score α] [Confidence α] [RandomSource σ] {e : Engine α σ} {p : Position} {root : Nat}

/-- The way down to a leaf and its evaluation, which leaves a way back that can be credited. -/
theorem evaluated_of_mem_walk (hpath : e.path = []) (hplaced : (Station.mk e p root).Placed)
    (hsolvent : ∀ id, 0 ≤ (e.graph.node id).surplus)
    (hroom : ∀ s ∈ (Station.mk e p root).walk, s.HasRoom) {t : Station α σ}
    (ht : t ∈ (Station.mk e p root).walk) {reward : α} {e' : Engine α σ} {q : Position}
    (heq : t.selected.evaluateLeaf t.position t.node = (.ok reward, e', q)) :
    e.graph.Walked t.engine.path t.engine.graph ∧ t.engine.graph.Evaluated t.node e'.graph ∧
      q = t.position ∧ e'.path = t.engine.path ∧ Trail e'.graph p t.engine.path t.position ∧
      e'.graph.HasRoomFor t.engine.path := by
  have hstart : (Station.mk e p root).Afoot p := Station.afoot_of_path_eq_nil hpath
  have hwalked : e.graph.Walked t.engine.path t.engine.graph := Station.walked hpath hroom t ht
  have hevaluated : t.engine.graph.Evaluated t.node e'.graph :=
    t.selected.evaluated_evaluateLeaf heq (hplaced.walk t ht).lt_size (hroom t ht)
  obtain ⟨htrail, _⟩ := trail_evaluateLeaf (hstart.walk hroom t ht) (hroom t ht) heq
  obtain ⟨_, _, heq', hpath', _, _⟩ := evaluateLeaf_keeps t.selected t.position t.node (hroom t ht)
  rw [heq] at heq'
  cases heq'
  change e'.path = t.engine.path at hpath'
  rw [hpath'] at htrail
  exact ⟨hwalked, hevaluated, rfl, hpath', htrail, hwalked.hasRoomFor hevaluated hsolvent⟩

/-- A successful iteration ends at a leaf of its walk and is told by the path to it. -/
theorem iterated_iterate (hpath : e.path = []) (hplaced : (Station.mk e p root).Placed)
    (hsolvent : ∀ id, 0 ≤ (e.graph.node id).surplus)
    (hroom : ∀ s ∈ (Station.mk e p root).walk, s.HasRoom) (hok : (e.iterate p root).1 = .ok ()) :
    ∃ t ∈ (Station.mk e p root).walk,
      e.graph.Iterated t.engine.path t.node (e.iterate p root).2.1.graph := by
  obtain ⟨t, ht, hend⟩ := exists_iterate_eq e p root
  rcases hend with
    ⟨_, edge, err, _, _, hit⟩ | ⟨_, err, e', _, hit⟩ | ⟨hleaf, reward, e', _, heq, rfl, hit⟩
  · rw [hit] at hok
    cases hok
  · rw [hit] at hok
    cases hok
  refine ⟨t, ht, ?_⟩
  obtain ⟨hwalked, hevaluated, _, hpath', htrail, hedges⟩ :=
    evaluated_of_mem_walk hpath hplaced hsolvent hroom ht heq
  have hleaf' : (t.engine.graph.node t.node).isVisited = false ∨
      (t.engine.graph.node t.node).isTerminal = true := by
    simpa [Station.isLeaf] using hleaf
  obtain ⟨g', _, hcredited, hcredit⟩ := htrail.creditPath_credited reward hedges
  rw [hit, hpath', hcredit]
  exact hwalked.iterated hevaluated hcredited hsolvent hleaf' htrail.isSome_moveAt?

/-- A failed one has gone down but not back. -/
theorem stalled_iterate {err : Error} (hpath : e.path = [])
    (hroom : ∀ s ∈ (Station.mk e p root).walk, s.HasRoom) (herr : (e.iterate p root).1 = .error err) :
    e.graph.Stalled (e.iterate p root).2.1.graph := by
  have hstart : (Station.mk e p root).Afoot p := Station.afoot_of_path_eq_nil hpath
  obtain ⟨t, ht, hend⟩ := exists_iterate_eq e p root
  have hwalked : e.graph.Walked t.engine.path t.engine.graph := Station.walked hpath hroom t ht
  rcases hend with
    ⟨hleaf, edge, err', _, _, hit⟩ | ⟨_, err', e', heq, hit⟩ | ⟨_, reward, e', _, heq, rfl, hit⟩
  · rw [hit]
    have hid := Graph.lt_size_of_isVisited (Station.isLeaf_eq_false hleaf).1
    refine ⟨fun id => ?_, fun id => ?_⟩
    · rw [Station.counted, Graph.toNat_visits_visit hid (hroom t ht), hwalked.visits, Nat.add_assoc]
      exact Nat.le_add_right _ _
    · rw [Station.counted, Graph.edges_visit, hwalked.edges]
  · rw [hit, graph_evaluateLeaf_error heq]
    exact hwalked.stalled
  · obtain ⟨htrail, _⟩ := trail_evaluateLeaf (hstart.walk hroom t ht) (hroom t ht) heq
    obtain ⟨g', _, hcredit⟩ := htrail.creditPath_eq reward
    rw [hit, hcredit] at herr
    cases herr

theorem indexed_iterate (hplaced : (Station.mk e p root).Placed) : (e.iterate p root).2.1.graph.Indexed := by
  obtain ⟨t, ht, hend⟩ := exists_iterate_eq e p root
  have hindexed := (hplaced.walk t ht).indexed
  have hleaf := t.selected.indexed_evaluateLeaf t.position t.node hindexed
  rcases hend with
    ⟨_, edge, err, _, _, hit⟩ | ⟨_, err, e', heq, hit⟩ | ⟨_, reward, e', _, heq, rfl, hit⟩
  · rw [hit]
    exact hindexed.modify rfl
  · rw [heq] at hleaf
    rwa [hit]
  · rw [heq] at hleaf
    rw [hit]
    exact creditPath_induction (P := Graph.Indexed) (fun _ _ _ _ hg => hg.modify rfl) _ _ _ hleaf

end Engine

end Breakthrough.Search
