import Breakthrough.Proofs.Budget

/-!
# What the counters of an engine say

An engine counts its selections, expansions, visits to terminal leaves, iterations and playouts. An expansion
makes one node visited, so that the visited nodes are as many as the expansions, also when a search has failed
(`Engine.Counted`). While every search succeeds, the counters and the graph tell the same story
(`Engine.Balanced`): every iteration selects one leaf, which it expands or finds terminal, and an expansion
samples every edge. `Engine.Booked` is the step that both rest on, what a part of a search adds to the counters
and to the graph.
-/

namespace Breakthrough.Search

variable {α σ : Type}

/-! ## Sums over the nodes -/

namespace Graph

/-- The sum of a number that every node has. -/
def total (g : Graph α) (f : Node α → Nat) : Nat := (g.nodes.toList.map f).sum

def visitedCount (g : Graph α) : Nat := g.total fun n => n.isVisited.toNat

def edgeCount (g : Graph α) : Nat := g.total fun n => n.edges.size

variable {g g₁ g' : Graph α} {id : Nat} {f : Node α → Nat}

theorem total_modify (hid : id < g.size) (h : Node α → Node α) :
    (g.modify id h).total f + f (g.node id) = g.total f + f (h (g.node id)) := by
  have hlist : ∀ (l : List (Node α)) (i : Nat) (n : Node α), l[i]? = some n →
      ((l.modify i h).map f).sum + f n = (l.map f).sum + f (h n) := by
    intro l
    induction l with
    | nil => intro i n hn; cases hn
    | cons a l ih =>
      intro i n hn
      cases i with
      | zero =>
        cases hn
        simp only [List.modify_zero_cons, List.map_cons, List.sum_cons]
        omega
      | succ i =>
        have hrest := ih i n hn
        simp only [List.modify_succ_cons, List.map_cons, List.sum_cons]
        omega
  have hnode : g.nodes.toList[id]? = some (g.node id) := by
    rw [Array.getElem?_toList, node, Array.getElem?_eq_getElem hid, Option.getD_some]
  rw [total, modify, Array.toList_modify]
  exact hlist _ _ _ hnode

theorem total_modify_of_eq {h : Node α → Node α} (heq : f (h (g.node id)) = f (g.node id)) :
    (g.modify id h).total f = g.total f := by
  by_cases hid : id < g.size
  · have hsum := total_modify (f := f) hid h
    omega
  · have hsame : g.nodes.modify id h = g.nodes := by
      refine Array.ext_getElem? fun j => ?_
      rw [Array.getElem?_modify]
      split
      · rename_i hj
        rw [← hj, Array.getElem?_eq_none (Nat.le_of_not_lt hid)]
        rfl
      · rfl
    rw [total, modify, hsame, total]

theorem total_locate {key : UInt64} (hf : f (.fresh key) = 0) : (g.locate key).2.total f = g.total f := by
  unfold locate
  split
  · rfl
  · simp [total, hf]

def AllVisited (g : Graph α) : Prop := ∀ id < g.size, (g.node id).isVisited = true

theorem AllVisited.visitedCount_eq (h : g.AllVisited) : g.visitedCount = g.size := by
  have hall : ∀ n ∈ g.nodes.toList, n.isVisited.toNat = 1 := by
    intro n hn
    obtain ⟨id, hid, rfl⟩ := List.getElem_of_mem hn
    have hv := h id (by simpa [size] using hid)
    rw [node, Array.getElem?_eq_getElem (by simpa using hid), Option.getD_some] at hv
    simp [hv]
  rw [visitedCount, total, List.map_congr_left hall]
  simp [size]

/-! ## What an update adds -/

/-- So many nodes of the graph have become visited and so many edges are new. -/
structure Adds (visited edges : Nat) (g g' : Graph α) : Prop where
  visitedCount : g'.visitedCount = g.visitedCount + visited
  edgeCount : g'.edgeCount = g.edgeCount + edges

theorem Adds.trans {visited edges visited' edges' : Nat} (h : g.Adds visited edges g₁)
    (h' : g₁.Adds visited' edges' g') : g.Adds (visited + visited') (edges + edges') g' :=
  ⟨by rw [h'.visitedCount, h.visitedCount, Nat.add_assoc], by rw [h'.edgeCount, h.edgeCount, Nat.add_assoc]⟩

theorem adds_refl (g : Graph α) : g.Adds 0 0 g := ⟨rfl, rfl⟩

theorem adds_locate (g : Graph α) (key : UInt64) : g.Adds 0 0 (g.locate key).2 :=
  ⟨total_locate rfl, total_locate rfl⟩

theorem adds_visit (hv : (g.node id).isVisited = true) (hroom : (g.node id).visits.toNat + 1 < UInt32.size) :
    g.Adds 0 0 (g.modify id Node.visit) := by
  have hv' := (Node.extends_visit hroom hv).1
  exact ⟨total_modify_of_eq (by rw [hv, hv']), total_modify_of_eq rfl⟩

theorem adds_credit [Score α] (g : Graph α) (id edge : Nat) (reward : α) :
    g.Adds 0 0 (g.credit id edge reward) :=
  ⟨total_modify_of_eq rfl, total_modify_of_eq Array.size_modify⟩

theorem adds_expanded (hid : id < g.size) (hv : (g.node id).isVisited = false)
    (hblank : (g.node id).edges.isEmpty = true) (edges : Array (Edge α)) :
    g.Adds 1 edges.size (g.modify id (Engine.expanded edges)) := by
  have hvisited : (g.modify id (Engine.expanded edges)).visitedCount + (g.node id).isVisited.toNat =
      g.visitedCount + 1 := total_modify hid _
  have hedges : (g.modify id (Engine.expanded edges)).edgeCount + (g.node id).edges.size =
      g.edgeCount + edges.size := total_modify hid _
  rw [hv] at hvisited
  rw [Array.isEmpty_iff.1 hblank] at hedges
  exact ⟨hvisited, hedges⟩

/-! ## Graphs without unvisited nodes -/

theorem allVisited_empty : (empty : Graph α).AllVisited := fun _ hid => absurd hid (Nat.not_lt_zero _)

theorem allVisited_modify {h : Node α → Node α} (hothers : ∀ j < g.size, j ≠ id → (g.node j).isVisited = true)
    (hnode : (h (g.node id)).isVisited = true) : (g.modify id h).AllVisited := by
  intro j hj
  rw [size_modify] at hj
  rw [node_modify]
  by_cases hid : id = j
  · rw [if_pos ⟨hid, hj⟩, ← hid]
    exact hnode
  · rw [if_neg fun h => hid h.1]
    exact hothers j hj (Ne.symm hid)

theorem AllVisited.credit [Score α] (h : g.AllVisited) (id edge : Nat) (reward : α) :
    (g.credit id edge reward).AllVisited := by
  intro j hj
  have hv := h j (by rwa [Graph.credit, size_modify] at hj)
  rw [node_credit]
  split
  · exact hv
  · exact hv

/-- The node that is asked for is the only one that may be unvisited. -/
theorem AllVisited.locate (h : g.AllVisited) (key : UInt64) :
    ∀ id < (g.locate key).2.size, id ≠ (g.locate key).1 → ((g.locate key).2.node id).isVisited = true := by
  intro id hid hne
  rw [node_locate]
  cases hfind : g.find? key with
  | some place =>
    simp only [Graph.locate, hfind] at hid
    simpa using h id hid
  | none =>
    simp only [Graph.locate, hfind, size, Array.size_push] at hid hne
    rw [if_neg fun hnew => hne hnew.2]
    exact h id (by rw [size]; omega)

end Graph

/-! ## The phases of a search -/

theorem Sampler.count_sample [Score α] [RandomSource σ] {s s' : Sampler σ} {p q : Position} {m : Move} {n : Nat}
    {value : α} (h : s.sample p m n = (.ok value, s', q)) : s'.count = s.count + n := by
  unfold sample at h
  split at h
  · rename_i hn
    cases h
    rw [hn, Nat.add_zero]
  · split at h
    · cases h
    · cases h
      rfl

namespace Engine

/-- What a part of a search adds: iterations, hits of terminal leaves, expansions and new edges, each of which has
been sampled. -/
structure Booked (iterations hits expansions edges : Nat) (e e' : Engine α σ) : Prop where
  config : e'.config = e.config
  graph : e.graph.Adds expansions edges e'.graph
  selections : e'.stats.selections = e.stats.selections + iterations
  iterations : e'.stats.iterations = e.stats.iterations + iterations
  hits : e'.stats.terminalHits = e.stats.terminalHits + hits
  expansions : e'.stats.expansions = e.stats.expansions + expansions
  playouts : e'.sampler.count = e.sampler.count + e.config.samples * edges

theorem booked_refl (e : Engine α σ) : e.Booked 0 0 0 0 e := ⟨rfl, e.graph.adds_refl, rfl, rfl, rfl, rfl, rfl⟩

theorem Booked.trans {e e₁ e' : Engine α σ} {i h x l i' h' x' l' : Nat} (hb : e.Booked i h x l e₁)
    (hb' : e₁.Booked i' h' x' l' e') : e.Booked (i + i') (h + h') (x + x') (l + l') e' where
  config := hb'.config.trans hb.config
  graph := hb.graph.trans hb'.graph
  selections := by rw [hb'.selections, hb.selections, Nat.add_assoc]
  iterations := by rw [hb'.iterations, hb.iterations, Nat.add_assoc]
  hits := by rw [hb'.hits, hb.hits, Nat.add_assoc]
  expansions := by rw [hb'.expansions, hb.expansions, Nat.add_assoc]
  playouts := by rw [hb'.playouts, hb.playouts, hb.config, Nat.mul_add, Nat.add_assoc]

section Phases

variable [Score α] [RandomSource σ] {e e' : Engine α σ} {p q : Position}

theorem count_seedEdges {samples : Nat} {moves : List Move} {s s' : Sampler σ} {edges : List (Edge α)}
    (h : seedEdges samples moves s p = (.ok edges, s', q)) :
    s'.count = s.count + samples * edges.length := by
  induction moves generalizing s p edges with
  | nil =>
    cases h
    rfl
  | cons m moves ih =>
    rw [seedEdges] at h
    split at h
    · cases h
    rename_i hsample
    split at h
    · cases h
    rename_i hrest
    cases h
    rw [ih hrest, Sampler.count_sample hsample, List.length_cons, Nat.mul_succ]
    omega

theorem booked_expand {id : Nat} (h : e.expand p id = (.ok (), e', q)) (hid : id < e.graph.size)
    (hv : (e.graph.node id).isVisited = false) (hblank : (e.graph.node id).edges.isEmpty = true) :
    ∃ edges, e.Booked 0 0 1 edges e' := by
  rw [expand] at h
  simp only at h
  split at h
  · cases h
  · rename_i edges sampler r hseed
    cases h
    refine ⟨(sortEdges edges).toArray.size, rfl, Graph.adds_expanded hid hv hblank _, rfl, rfl, rfl, rfl, ?_⟩
    rw [count_seedEdges hseed, List.size_toArray, sortEdges, List.length_mergeSort]

theorem stats_expand_error {id : Nat} {err : Error} (h : e.expand p id = (.error err, e', q)) :
    e'.stats = e.stats := by
  rcases e.expand_cases p id with ⟨_, _, _, heq⟩ | ⟨_, _, _, heq⟩
  · rw [heq] at h
    cases h
    rfl
  · rw [heq] at h
    cases h

theorem allVisited_expand {id : Nat} (h : e.expand p id = (.ok (), e', q))
    (hothers : ∀ j < e.graph.size, j ≠ id → (e.graph.node j).isVisited = true) : e'.graph.AllVisited := by
  obtain ⟨edges, _, hgraph⟩ := expand_ok h
  rw [hgraph]
  exact Graph.allVisited_modify hothers rfl

/-- A leaf in its place is found terminal or expanded, unless its expansion fails. -/
theorem evaluateLeaf_books {leaf : Nat} (hid : leaf < e.graph.size)
    (hroom : (e.graph.node leaf).visits.toNat + 1 < UInt32.size)
    (hblank : (e.graph.node leaf).isVisited = false → (e.graph.node leaf).edges.isEmpty = true) :
    (∃ err e', e.evaluateLeaf p leaf = (.error err, e', p) ∧ e'.graph = e.graph ∧ e'.stats = e.stats) ∨
    ∃ reward e' hits expansions edges, e.evaluateLeaf p leaf = (.ok reward, e', p) ∧
      hits + expansions = 1 ∧ e.Booked 0 hits expansions edges e' ∧
      ((∀ id < e.graph.size, id ≠ leaf → (e.graph.node id).isVisited = true) → e'.graph.AllVisited) := by
  rcases e.evaluateLeaf_cases p leaf with
    ⟨hv, reward, heq⟩ | ⟨_, err, e', hexp, heq⟩ | ⟨hv, reward, e', hexp, heq⟩
  · refine .inr ⟨reward, _, 1, 0, 0, heq, rfl, ⟨rfl, Graph.adds_visit hv hroom, rfl, rfl, rfl, rfl, rfl⟩, ?_⟩
    exact fun hothers => Graph.allVisited_modify hothers (Node.extends_visit hroom hv).1
  · exact .inl ⟨err, e', heq, graph_expand_error hexp, stats_expand_error hexp⟩
  · obtain ⟨edges, hbooked⟩ := booked_expand hexp hid hv (hblank hv)
    exact .inr ⟨reward, e', 0, 1, edges, heq, rfl, hbooked, allVisited_expand hexp⟩

end Phases

end Engine

/-! ## Iterations -/

namespace Station

variable [Score α] [Confidence α] {s t : Station α σ}

theorem booked_next? {e : Engine α σ} (h : s.next? = some t) (hroom : s.HasRoom)
    (hs : e.Booked 0 0 0 0 s.engine) : e.Booked 0 0 0 0 t.engine := by
  obtain ⟨edge, hleaf, _, _, rfl⟩ := next?_eq_some h
  have hvisit := Graph.adds_visit (isLeaf_eq_false hleaf).1 hroom
  exact ⟨hs.config, (hs.graph.trans hvisit).trans (Graph.adds_locate _ _), hs.selections, hs.iterations, hs.hits,
    hs.expansions, hs.playouts⟩

/-- On its way down a search counts nothing but visits. -/
theorem booked_walk (hroom : ∀ t ∈ s.walk, t.HasRoom) : ∀ t ∈ s.walk, s.engine.Booked 0 0 0 0 t.engine :=
  walk_induction s s.engine.booked_refl fun u hu _ hnext => booked_next? hnext (hroom u hu)

/-- On its way down a search makes no node that it does not stop at. -/
theorem others_visited (hroom : ∀ t ∈ s.walk, t.HasRoom) (h : s.engine.graph.AllVisited) :
    ∀ t ∈ s.walk, ∀ id < t.engine.graph.size, id ≠ t.node → (t.engine.graph.node id).isVisited = true := by
  refine walk_induction s (fun id hid _ => h id hid) ?_
  intro u hu t hnext hothers
  obtain ⟨edge, hleaf, _, _, rfl⟩ := next?_eq_some hnext
  have hcounted : u.counted.graph.AllVisited :=
    Graph.allVisited_modify hothers (Node.extends_visit (hroom u hu) (isLeaf_eq_false hleaf).1).1
  exact hcounted.locate _

end Station

namespace Engine

variable [Score α] [Confidence α] [RandomSource σ] {e e' : Engine α σ} {p q : Position} {root : Nat}

/-- An iteration that fails adds nothing, another one adds a hit or an expansion. -/
theorem Ready.iterate_books (h : e.Ready p root) (hroom : ∀ s ∈ (Station.mk e p root).walk, s.HasRoom) :
    (∃ err, (e.iterate p root).1 = .error err ∧ e.graph.Adds 0 0 (e.iterate p root).2.1.graph ∧
      (e.iterate p root).2.1.stats.expansions = e.stats.expansions) ∨
    ((e.iterate p root).1 = .ok () ∧ ∃ hits expansions edges, hits + expansions = 1 ∧
      e.Booked 1 hits expansions edges (e.iterate p root).2.1 ∧
      (e.graph.AllVisited → (e.iterate p root).2.1.graph.AllVisited)) := by
  have hstart : (Station.mk e p root).Afoot p := by rw [Station.Afoot, h.path]; exact .nil
  obtain ⟨t, ht, hend⟩ := exists_iterate_eq e p root
  have hdown : e.Booked 0 0 0 0 t.engine := Station.booked_walk hroom t ht
  have hblank : (t.engine.graph.node t.node).isVisited = false →
      (t.engine.graph.node t.node).edges.isEmpty = true :=
    Node.isEmpty_of_unvisited
      (le_trans (h.solvent.surplus _) ((Station.walked h.path hroom t ht).stalled.surplus_le _))
  have hleaf := t.selected.evaluateLeaf_books (p := t.position) (h.placed.walk t ht).lt_size (hroom t ht) hblank
  rcases hend with
    ⟨hinner, edge, err, _, _, hit⟩ | ⟨_, err, e', heq, hit⟩ | ⟨_, reward, e', _, heq, rfl, hit⟩
  · rw [hit]
    have hvisit := Graph.adds_visit (Station.isLeaf_eq_false hinner).1 (hroom t ht)
    exact .inl ⟨err, rfl, hdown.graph.trans hvisit, hdown.expansions⟩
  · rw [heq] at hleaf
    rcases hleaf with ⟨_, _, hleaf, hgraph, hstats⟩ | ⟨_, _, _, _, _, hleaf, _⟩
    · cases hleaf
      rw [hit, hgraph, hstats]
      exact .inl ⟨err, rfl, hdown.graph, hdown.expansions⟩
    · cases hleaf
  · rw [heq] at hleaf
    rcases hleaf with ⟨_, _, hleaf, _⟩ | ⟨_, _, hits, expansions, edges, hleaf, hsum, hbooked, hall⟩
    · cases hleaf
    cases hleaf
    obtain ⟨htrail, _⟩ := trail_evaluateLeaf (hstart.walk hroom t ht) (hroom t ht) heq
    obtain ⟨g', _, hcredit⟩ := htrail.creditPath_eq reward
    have hback := creditPath_induction (P := fun g => e'.graph.Adds 0 0 g ∧ (e'.graph.AllVisited → g.AllVisited))
      (fun g id edge reward hg =>
        ⟨hg.1.trans (g.adds_credit id edge reward), fun h => (hg.2 h).credit id edge reward⟩)
      e'.path reward t.position ⟨e'.graph.adds_refl, fun h => h⟩
    rw [hcredit] at hback
    rw [hit, hcredit]
    -- a selection comes before the leaf, an iteration is counted after it
    have hturn : t.engine.Booked 1 hits expansions edges
        { e' with stats.iterations := e'.stats.iterations + 1, path := [], graph := g' } :=
      ⟨hbooked.config, hbooked.graph.trans hback.1, hbooked.selections, congrArg (· + 1) hbooked.iterations,
        hbooked.hits, hbooked.expansions, hbooked.playouts⟩
    refine .inr ⟨rfl, hits, expansions, edges, hsum, by simpa using hdown.trans hturn, ?_⟩
    exact fun h => hback.2 (hall (Station.others_visited hroom h t ht))

/-! ## Searches -/

/-- There are as many visited nodes as expansions. -/
def Counted (e : Engine α σ) : Prop := e.graph.visitedCount = e.stats.expansions

omit [Score α] [Confidence α] [RandomSource σ] in
theorem Counted.booked {i h x l : Nat} (hc : e.Counted) (hb : e.Booked i h x l e') : e'.Counted := by
  rw [Counted, hb.graph.visitedCount, hb.expansions, hc]

theorem Ready.counted_iterate (h : e.Ready p root) (hroom : ∀ s ∈ (Station.mk e p root).walk, s.HasRoom)
    (hc : e.Counted) : (e.iterate p root).2.1.Counted := by
  rcases h.iterate_books hroom with ⟨err, _, hgraph, hexpansions⟩ | ⟨_, _, _, _, _, hbooked, _⟩
  · rw [Counted, hgraph.visitedCount, hexpansions]
    exact hc
  · exact hc.booked hbooked

theorem Ready.counted_iterateTimes (n : Nat) (h : e.Ready p root)
    (hroom : ∀ s ∈ iterationStations n e p root, s.HasRoom) (hc : e.Counted) :
    (iterateTimes n e p root).2.1.Counted := by
  induction n generalizing e with
  | zero => exact hc
  | succ n ih =>
    unfold iterationStations at hroom
    have hroom₁ := fun s hs => hroom s (List.mem_append_left _ hs)
    have hone := h.counted_iterate hroom₁ hc
    unfold iterateTimes
    split
    · rename_i hit
      rwa [hit] at hone
    · rename_i e' q hit
      rw [hit] at hone hroom
      obtain ⟨rfl, hready⟩ := h.iterate hroom₁ hit
      exact ih hready (fun s hs => hroom s (List.mem_append_right _ hs)) hone

omit [Confidence α] in
/-- Entering a root adds an expansion if it was unvisited, unless that fails. -/
theorem enterRoot_books (h : e.graph.Solvent) :
    (∃ err e', e.enterRoot p = (.error err, e', p) ∧ e.graph.Adds 0 0 e'.graph ∧ e'.stats = e.stats) ∨
    ∃ e' edges, e.enterRoot p = (.ok (e.rootOf p), e', p) ∧
      e.Booked 0 0 (if (e.graph.visited? p.hash).isNone then 1 else 0) edges e' ∧
      (e.graph.AllVisited → e'.graph.AllVisited) := by
  have hplaced := e.placed_atRoot p h.indexed
  have hlocate : e.graph.Adds 0 0 (e.atRoot p).graph := e.graph.adds_locate p.hash
  have hfound : e.Booked 0 0 0 0 (e.atRoot p) := ⟨rfl, hlocate, rfl, rfl, rfl, rfl, rfl⟩
  have hothers : e.graph.AllVisited → ∀ id < (e.atRoot p).graph.size, id ≠ e.rootOf p →
      ((e.atRoot p).graph.node id).isVisited = true := fun hall => hall.locate p.hash
  have hvisited := e.visited?_eq_root p
  rcases e.enterRoot_cases p with ⟨hv, heq⟩ | ⟨_, err, e₁, hexp, heq⟩ | ⟨hv, e₁, hexp, heq⟩
  · refine .inr ⟨_, 0, heq, by simpa [hvisited, hv] using hfound, fun hall id hid => ?_⟩
    by_cases hroot : id = e.rootOf p
    · rw [hroot]
      exact hv
    · exact hothers hall id hid hroot
  · exact .inl ⟨err, e₁, heq, graph_expand_error hexp ▸ hlocate, stats_expand_error (e := e.atRoot p) hexp⟩
  · have hconserves : e.graph.Conserves True (e.atRoot p).graph := Graph.conserves_locate h.indexed p.hash
    have hsolvent := hconserves.solvent h
    obtain ⟨edges, hbooked⟩ :=
      booked_expand hexp hplaced.lt_size hv (Node.isEmpty_of_unvisited (hsolvent.surplus _) hv)
    have hboth := hfound.trans hbooked
    exact .inr ⟨e₁, _, heq, by simpa [hvisited, hv] using hboth, fun hall => allVisited_expand hexp (hothers hall)⟩

theorem counted_choose (h : e.graph.Solvent) (hwrap : e.NoWrap p) (hc : e.Counted) :
    (e.choose p).2.2.1.Counted := by
  unfold NoWrap stations at hwrap
  unfold choose
  split
  · exact hc
  rename_i hlost
  rw [if_neg hlost] at hwrap
  rcases enterRoot_books (p := p) h with ⟨err, e₁, hroot, hgraph, hstats⟩ | ⟨e₁, edges, hroot, hbooked, _⟩
  · rw [hroot, Counted, hgraph.visitedCount, hstats]
    exact hc
  · have hready := (enterRoot_conserves h hroot).2 rfl
    rw [hroot] at hwrap ⊢
    have htimes := hready.counted_iterateTimes _ hwrap (hc.booked hbooked)
    simp only
    split
    · rename_i hr
      rw [hr] at htimes
      exact htimes
    · rename_i hr
      rw [hr] at htimes
      exact htimes

/-- A successful search keeps its settings. -/
theorem config_choose {m : Move} (h : e.graph.Solvent) (hwrap : e.NoWrap p) (hok : (e.choose p).1 = .ok m) :
    (e.choose p).2.2.1.config = e.config := by
  obtain ⟨e₁, hroot, hready, hlost, hstations, htimes, _⟩ := choose_ok h hok
  obtain ⟨_, _, hroot', _, hconfig, _⟩ := e.enterRoot_keeps p
  rw [hroot] at hroot'
  cases hroot'
  rw [NoWrap, hstations] at hwrap
  have hend := hready.iterateTimes_induction (k := 0) (Q := fun _ => True) (P := fun _ e' => e'.config = e.config)
    hwrap (fun _ _ => trivial) htimes hconfig (by
      intro _ e' hready' hroom _ hit hconfig'
      rcases hready'.iterate_books hroom with ⟨err, herr, _⟩ | ⟨_, _, _, _, _, hbooked, _⟩
      · rw [hit] at herr
        cases herr
      · rw [hbooked.config, hconfig'])
  cases hr : iterateTimes e.config.iterations e₁ p (e.rootOf p) with
  | mk result rest =>
    rw [hr] at hend htimes
    obtain rfl : result = .ok () := htimes
    have hengine := (choose_of_iterateTimes hlost hroot (hconfig.symm ▸ hr)).2
    rw [hengine]
    exact hend

/-- What the counters and the graph say after searches that have all succeeded, of `budget` iterations together,
with `s` playouts for an edge and `fresh` roots that were unvisited. -/
structure Balanced (s budget fresh : Nat) (e : Engine α σ) : Prop where
  allVisited : e.graph.AllVisited
  selections : e.stats.selections = budget
  iterations : e.stats.iterations = budget
  leaves : e.stats.terminalHits + e.stats.expansions = budget + fresh
  playouts : e.sampler.count = s * e.graph.edgeCount

omit [Score α] [Confidence α] [RandomSource σ] in
theorem Balanced.booked {s budget fresh i h x l new : Nat} (hb : e.Balanced s budget fresh)
    (hbooked : e.Booked i h x l e') (hs : e.config.samples = s) (hsum : h + x = i + new)
    (hall : e'.graph.AllVisited) : e'.Balanced s (budget + i) (fresh + new) where
  allVisited := hall
  selections := by rw [hbooked.selections, hb.selections]
  iterations := by rw [hbooked.iterations, hb.iterations]
  leaves := by
    have hleaves := hb.leaves
    rw [hbooked.hits, hbooked.expansions]
    omega
  playouts := by rw [hbooked.playouts, hb.playouts, hbooked.graph.edgeCount, hs, Nat.mul_add]

/-- A successful search of a balanced engine. -/
theorem balanced_choose {s budget fresh : Nat} {m : Move} (h : e.graph.Solvent) (hwrap : e.NoWrap p)
    (hok : (e.choose p).1 = .ok m) (hs : e.config.samples = s) (hb : e.Balanced s budget fresh) :
    (e.choose p).2.2.1.Balanced s (budget + e.config.iterations)
      (fresh + if (e.graph.visited? p.hash).isNone then 1 else 0) ∧
    (e.choose p).2.2.1.stats.rollouts = (e.choose p).2.2.1.sampler.count := by
  obtain ⟨e₁, hroot, hready, hlost, hstations, htimes, _⟩ := choose_ok h hok
  rw [NoWrap, hstations] at hwrap
  rcases enterRoot_books (p := p) h with ⟨err, e', hroot', _⟩ | ⟨e', edges, hroot', hbooked, hall⟩
  · rw [hroot] at hroot'
    cases hroot'
  rw [hroot] at hroot'
  cases hroot'
  have hstart := hb.booked hbooked hs rfl (hall hb.allVisited)
  have hend := hready.iterateTimes_induction (k := 0) (Q := fun _ => True)
    (P := fun n e' => e'.Balanced s (budget + n) (fresh + if (e.graph.visited? p.hash).isNone then 1 else 0) ∧
      e'.config.samples = s)
    hwrap (fun _ _ => trivial) htimes ⟨hstart, by rw [hbooked.config, hs]⟩ (by
      rintro n e' hready' hroom _ hit ⟨hbalanced, hsamples⟩
      rcases hready'.iterate_books hroom with ⟨err, herr, _⟩ | ⟨_, hits, x, l, hsum, hbooked', hall'⟩
      · rw [hit] at herr
        cases herr
      · have hafter := hbalanced.booked hbooked' hsamples (hsum.trans (Nat.add_zero 1).symm)
          (hall' hbalanced.allVisited)
        exact ⟨hafter, by rw [hbooked'.config, hsamples]⟩)
  cases hr : iterateTimes e.config.iterations e₁ p (e.rootOf p) with
  | mk result rest =>
    obtain ⟨e₂, q⟩ := rest
    rw [hr, Nat.zero_add] at hend
    rw [hr] at htimes
    obtain rfl : result = .ok () := htimes
    have hengine := (choose_of_iterateTimes hlost hroot (hbooked.config.symm ▸ hr)).2
    rw [hengine]
    exact ⟨⟨hend.1.allVisited, hend.1.selections, hend.1.iterations, hend.1.leaves, hend.1.playouts⟩, rfl⟩

/-! ## Runs -/

theorem counted_searches (requests : List (Request α)) (h : e.graph.Solvent)
    (hwrap : ∀ c ∈ e.searches requests, c.1.NoWrap c.2) (hc : e.Counted) : (e.serveAll requests).Counted := by
  induction requests generalizing e with
  | nil => exact hc
  | cons r requests ih =>
    cases r with
    | search p =>
      rw [searches, List.forall_mem_cons] at hwrap
      exact ih (e := e.serve (.search p)) ((conserves_choose h hwrap.1).solvent h) hwrap.2
        (counted_choose h hwrap.1 hc)
    | configure config => exact ih (e := e.serve (.configure config)) h hwrap hc
    | reset => exact ih (e := e.serve .reset) Graph.solvent_empty hwrap rfl

/-- The iterations that the searches of a run are set to. -/
def budget (calls : List (Engine α σ × Position)) : Nat := (calls.map fun c => c.1.config.iterations).sum

/-- The searches of a run whose root is unvisited when they begin. -/
def freshRoots (calls : List (Engine α σ × Position)) : Nat :=
  calls.countP fun c => (c.1.graph.visited? c.2.hash).isNone

omit [Score α] [Confidence α] [RandomSource σ] in
theorem budget_cons (c : Engine α σ × Position) (calls : List (Engine α σ × Position)) :
    budget (c :: calls) = c.1.config.iterations + budget calls := by
  rw [budget, List.map_cons, List.sum_cons, budget]

omit [Score α] [Confidence α] [RandomSource σ] in
theorem freshRoots_cons (c : Engine α σ × Position) (calls : List (Engine α σ × Position)) :
    freshRoots (c :: calls) = (if (c.1.graph.visited? c.2.hash).isNone then 1 else 0) + freshRoots calls := by
  rw [freshRoots, List.countP_cons, Nat.add_comm, freshRoots]

/-- A run without resets whose searches all succeed. -/
theorem balanced_searches {s k f : Nat} (requests : List (Request α)) (hreset : .reset ∉ requests)
    (h : e.graph.Solvent) (hwrap : ∀ c ∈ e.searches requests, c.1.NoWrap c.2)
    (hall : ∀ c ∈ e.searches requests, c.1.config.samples = s ∧ ∃ m, (c.1.choose c.2).1 = .ok m)
    (hb : e.Balanced s k f) (hrollouts : e.stats.rollouts = e.sampler.count) :
    (e.serveAll requests).Balanced s (k + budget (e.searches requests)) (f + freshRoots (e.searches requests)) ∧
    (e.serveAll requests).stats.rollouts = (e.serveAll requests).sampler.count := by
  induction requests generalizing e k f with
  | nil => exact ⟨hb, hrollouts⟩
  | cons r requests ih =>
    have hrest := List.not_mem_of_not_mem_cons hreset
    cases r with
    | search p =>
      rw [searches, List.forall_mem_cons] at hwrap hall
      obtain ⟨⟨hs, m, hok⟩, hall⟩ := hall
      obtain ⟨hbalanced, hcount⟩ := balanced_choose h hwrap.1 hok hs hb
      have hend := ih (e := e.serve (.search p)) hrest ((conserves_choose h hwrap.1).solvent h) hwrap.2 hall
        hbalanced hcount
      rw [searches, budget_cons, freshRoots_cons, ← Nat.add_assoc, ← Nat.add_assoc]
      exact hend
    | configure config =>
      have hb' : (e.serve (.configure config)).Balanced s k f :=
        ⟨hb.allVisited, hb.selections, hb.iterations, hb.leaves, hb.playouts⟩
      exact ih (e := e.serve (.configure config)) hrest h hwrap hall hb' hrollouts
    | reset => exact absurd List.mem_cons_self hreset

/-- **The counters agree with the graph.** An engine that starts without a graph is asked for searches of any
positions, new settings and resets in any order. If no visit counter wraps, then

* there are as many visited nodes as expansions, also after searches that have failed;
* if every search since the last reset has succeeded, with `s` playouts for an edge, then every node is visited,
  selections and iterations are what the searches were set to, each iteration has hit a terminal leaf or expanded
  one, and so has each search with an unvisited root, and there were `s` playouts for every edge. -/
theorem searches_keep_counters (config : Config α) (source : σ) (requests : List (Request α))
    (hwrap : ∀ c ∈ (new config source .empty : Engine α σ).searches requests, c.1.NoWrap c.2) :
    let e : Engine α σ := new config source .empty
    let last := e.serveAll requests
    last.graph.visitedCount = last.stats.expansions ∧
    ∀ s before after, before ++ after = requests → (before = [] ∨ ∃ earlier, before = earlier ++ [.reset]) →
      .reset ∉ after →
      let calls := (e.serveAll before).searches after
      (∀ c ∈ calls, c.1.config.samples = s ∧ ∃ m, (c.1.choose c.2).1 = .ok m) →
      last.graph.AllVisited ∧ last.graph.size = last.stats.expansions ∧
      last.stats.selections = budget calls ∧ last.stats.iterations = budget calls ∧
      last.stats.terminalHits + last.stats.expansions = last.stats.iterations + freshRoots calls ∧
      last.stats.rollouts = s * last.graph.edgeCount := by
  intro e last
  have hcounted : last.Counted := counted_searches requests Graph.solvent_empty hwrap rfl
  refine ⟨hcounted, ?_⟩
  intro s before after happend hbefore hreset calls hall
  -- the graph is empty and the counters are at nothing when the last stretch begins
  obtain ⟨hgraph, hstats, hcount⟩ : (e.serveAll before).graph = .empty ∧ (e.serveAll before).stats = {} ∧
      (e.serveAll before).sampler.count = 0 := by
    rcases hbefore with rfl | ⟨earlier, rfl⟩
    · exact ⟨rfl, rfl, rfl⟩
    · rw [serveAll, List.foldl_append]
      exact ⟨rfl, rfl, rfl⟩
  have hstart : (e.serveAll before).Balanced s 0 0 :=
    ⟨hgraph ▸ Graph.allVisited_empty, by rw [hstats], by rw [hstats], by rw [hstats], by rw [hcount, hgraph]; rfl⟩
  have hlast : (e.serveAll before).serveAll after = last := by
    rw [serveAll, serveAll, ← List.foldl_append, happend]
    rfl
  have hsolvent : (e.serveAll before).graph.Solvent := by
    rw [hgraph]
    exact Graph.solvent_empty
  rw [← happend, searches_append, List.forall_mem_append] at hwrap
  obtain ⟨hend, hrollouts⟩ := balanced_searches after hreset hsolvent hwrap.2 hall hstart (by rw [hstats, hcount])
  rw [hlast, Nat.zero_add, Nat.zero_add] at hend
  rw [hlast] at hrollouts
  exact ⟨hend.allVisited, hend.allVisited.visitedCount_eq.symm.trans hcounted, hend.selections, hend.iterations,
    hend.iterations.symm ▸ hend.leaves, hrollouts.trans hend.playouts⟩

/-- A search of an empty board fails. After it and a reset, one iteration from the start. -/
theorem searches_keep_counters_start :
    let e : Engine Float ChaCha := .new ⟨1, 1.4, 1, none⟩ (.ofSeed 0) .empty
    let lost := Position.ofBoard (.replicate 64 none) .white Position.bitStart.keys
    let last := e.serveAll [.search lost, .reset, .search .bitStart]
    (e.choose lost).1 = .error (.searchAfterEnd .white) ∧ last.graph.AllVisited ∧
      last.graph.size = last.stats.expansions ∧ last.stats.iterations = 1 ∧
      last.stats.terminalHits + last.stats.expansions = 2 ∧ last.stats.rollouts = last.graph.edgeCount := by
  intro e lost last
  have hlost : e.choose lost = (.error (.searchAfterEnd .white), [], e, lost) := by
    rw [choose, if_pos (by decide +kernel)]
    rfl
  let e' : Engine Float ChaCha := (e.serve (.search lost)).reset
  have hserve : e.serve (.search lost) = e := by rw [serve, hlost]
  have hconfig : e'.config = e.config := congrArg (fun e => e.reset.config) hserve
  obtain ⟨hwrap, _, hok⟩ := choose_bitStart (e := e') rfl (congrArg Config.iterations hconfig)
  have hwrap' : e.NoWrap lost := by
    rw [NoWrap, stations, if_pos (by decide +kernel)]
    simp
  obtain ⟨_, hrest⟩ := searches_keep_counters ⟨1, 1.4, 1, none⟩ (ChaCha.ofSeed 0)
    [.search lost, .reset, .search .bitStart] (by
      intro c hc
      rcases List.mem_cons.1 hc with rfl | hc
      · exact hwrap'
      · rw [List.mem_singleton.1 hc]
        exact hwrap)
  obtain ⟨hall, hsize, _, hiterations, hleaves, hrollouts⟩ := hrest 1 [.search lost, .reset] [.search .bitStart]
    rfl (.inr ⟨[.search lost], rfl⟩) (by simp) (by
      intro c hc
      rw [List.mem_singleton.1 hc]
      exact ⟨congrArg Config.samples hconfig, hok⟩)
  have hbudget : budget [(e', Position.bitStart)] = 1 := by
    rw [budget_cons, hconfig]
    rfl
  have hfresh : freshRoots [(e', Position.bitStart)] = 1 := by
    rw [freshRoots_cons, if_pos (by simp [e', reset, Graph.visited?, Graph.find?, Graph.empty])]
    rfl
  have hiterations' : last.stats.iterations = 1 := hiterations.trans hbudget
  have hleaves' : last.stats.terminalHits + last.stats.expansions = last.stats.iterations + 1 :=
    hleaves.trans (congrArg (last.stats.iterations + ·) hfresh)
  exact ⟨by rw [hlost], hall, hsize, hiterations', by rw [hleaves', hiterations'],
    hrollouts.trans (Nat.one_mul _)⟩

end Engine

end Breakthrough.Search
