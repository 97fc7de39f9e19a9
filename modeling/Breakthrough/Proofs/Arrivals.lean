import Mathlib.Algebra.BigOperators.Group.Finset.Piecewise
import Breakthrough.Proofs.Conservation

/-!
# No visit is lost above a node

All move orders that lead to a position share its node, and so do the searches that start from it. If hashes do
not collide, the visits of a node are those of all edges that lead to it, and those of the searches that begin
there. `Graph.excess` is the difference between the visits of a key's node and of the edges that lead to the key.
A step of a descent raises both at once, so an iteration changes the excess of its root only.
-/

namespace Breakthrough

namespace Position

variable {S : Position → Prop} {p q : Position}

/-- A move leads from the positions of a set that have one hash to positions that have another. -/
def LeadsTo (S : Position → Prop) (key : UInt64) (m : Move) (k : UInt64) : Prop :=
  ∃ q, S q ∧ q.hash = key ∧ (q.advance m).hash = k

/-- What a move does to the hash depends on the board and the side to move only. -/
theorem hash_advance_congr (hhash : p.hash = q.hash) (hkeys : p.keys = q.keys) (hboard : p.board = q.board)
    (hside : p.side = q.side) (m : Move) : (p.advance m).hash = (q.advance m).hash := by
  rw [hash_advance, hash_advance, hashAfter, hashAfter, cell, cell, hhash, hkeys, hboard, hside]

theorem leadsTo_iff {keys : KeyTable} (hfree : CollisionFree S) (hkeys : ∀ q, S q → q.keys = keys) (hp : S p)
    (m : Move) (k : UInt64) : LeadsTo S p.hash m k ↔ (p.advance m).hash = k := by
  constructor
  · rintro ⟨q, hq, hhash, rfl⟩
    obtain ⟨hboard, hside⟩ := hfree q p hq hp hhash
    exact (hash_advance_congr hhash ((hkeys q hq).trans (hkeys p hp).symm) hboard hside m).symm
  · intro h
    exact ⟨p, hp, rfl, h⟩

end Position

namespace Search

variable {α σ : Type} {S : Position → Prop}

/-! ## Arrivals at a key -/

namespace Graph

variable {g g' : Graph α}

open Classical in
/-- The visits of the edges, of all nodes, that lead to a key. -/
noncomputable def arrivals (S : Position → Prop) (g : Graph α) (k : UInt64) : Nat :=
  ∑ id ∈ Finset.range g.size, (g.node id).visitsAlong (Position.LeadsTo S (g.node id).key · k)

/-- The visits of the node of a key. -/
def visitsOf (g : Graph α) (k : UInt64) : Nat := ((g.find? k).map fun id => (g.node id).visits.toNat).getD 0

/-- How much more often the node of a key has been visited than the edges that lead to it. -/
noncomputable def excess (S : Position → Prop) (g : Graph α) (k : UInt64) : Int :=
  g.visitsOf k - g.arrivals S k

/-- A node of a graph keeps its key while the graph grows. -/
theorem Indexed.key_eq {id : Nat} (h : g.Indexed) (h' : g'.Indexed) (hgrow : g.Extends g') (hid : id < g.size) :
    id < g'.size ∧ (g'.node id).key = (g.node id).key :=
  (h' _ _).1 (hgrow.index _ _ ((h _ _).2 ⟨hid, rfl⟩))

open Classical in
/-- The arrivals of a graph, told by the keys of a larger one. -/
theorem arrivals_of_extends (h : g.Indexed) (h' : g'.Indexed) (hgrow : g.Extends g') (k : UInt64) :
    g.arrivals S k =
      ∑ id ∈ Finset.range g'.size, (g.node id).visitsAlong (Position.LeadsTo S (g'.node id).key · k) := by
  have hsize : Finset.range g.size ⊆ Finset.range g'.size := by
    intro id hid
    rw [Finset.mem_range] at hid ⊢
    exact (h.key_eq h' hgrow hid).1
  rw [arrivals]
  refine Finset.sum_subset_zero_on_sdiff hsize ?_ ?_
  · intro id hid
    rw [Finset.mem_sdiff, Finset.mem_range, Finset.mem_range] at hid
    exact Node.visitsAlong_of_fresh (by simp [node_of_size_le (Nat.le_of_not_lt hid.2), Node.fresh])
  · intro id hid
    rw [(h.key_eq h' hgrow (Finset.mem_range.1 hid)).2]

/-- So are its visits. -/
theorem visitsOf_of_extends (h : g.Indexed) (h' : g'.Indexed) (hgrow : g.Extends g') (k : UInt64) :
    g.visitsOf k = ((g'.find? k).map fun id => (g.node id).visits.toNat).getD 0 := by
  cases hfind : g.find? k with
  | some id => rw [visitsOf, hfind, hgrow.index k id hfind]
  | none =>
    rw [visitsOf, hfind]
    cases hfind' : g'.find? k with
    | none => rfl
    | some id =>
      -- the node is one of those that have been added
      have hid : g.size ≤ id := by
        refine Nat.le_of_not_lt fun hlt => ?_
        have hkey := (h.key_eq h' hgrow hlt).2
        rw [((h' _ _).1 hfind').2] at hkey
        rw [(h _ _).2 ⟨hlt, hkey.symm⟩] at hfind
        cases hfind
      simp [node_of_size_le hid, Node.fresh]

open Classical in
theorem sum_departures {path : List Step} {n : Nat} (h : ∀ step ∈ path, step.node < n)
    (P : Nat → Move → Prop) :
    ∑ id ∈ Finset.range n, g.departures path id (P id) =
      path.countP fun step => (g.moveAt? step).any (P step.node ·) := by
  induction path with
  | nil => simp [departures]
  | cons step path ih =>
    rw [List.forall_mem_cons] at h
    have hcons : ∀ id, g.departures (step :: path) id (P id) = g.departures path id (P id) +
        if step.node = id then (if (g.moveAt? step).any (P step.node ·) then 1 else 0) else 0 := by
      intro id
      by_cases hid : step.node = id
      · subst hid
        simp [departures, List.countP_cons]
      · simp [departures, hid]
    simp only [hcons, Finset.sum_add_distrib, ih h.2, Finset.sum_ite_eq, Finset.mem_range, h.1, if_true,
      List.countP_cons]

/-- A new node is at no edge's end yet. -/
theorem excess_locate (h : g.Indexed) (key k : UInt64) : (g.locate key).2.excess S k = g.excess S k := by
  have hgrow := g.extends_locate key
  rw [excess, excess, arrivals_of_extends h (h.locate key) hgrow, visitsOf_of_extends h (h.locate key) hgrow]
  simp only [arrivals, visitsOf, visits_locate, Node.visitsAlong, edges_locate]

theorem excess_empty (k : UInt64) : (empty : Graph α).excess S k = 0 := by
  simp [excess, arrivals, visitsOf, empty, size, find?]

theorem isSome_visited?_of_extends {k : UInt64} (hgrow : g.Extends g') (h : (g.visited? k).isSome = true) :
    (g'.visited? k).isSome = true := by
  cases hfind : g.find? k with
  | none => simp [visited?, hfind] at h
  | some id =>
    have hv : (g.node id).isVisited = true := by
      simpa [visited?, hfind, Option.filter_some, apply_ite Option.isSome] using h
    simp [visited?, hgrow.index k id hfind, Option.filter_some, (hgrow.node id hv).1]

section Iterated

variable {path : List Step} {leaf : Nat}

theorem Iterated.lt_size (hit : g.Iterated path leaf g') : ∀ step ∈ path, step.node < g'.size := by
  intro step hstep
  obtain ⟨m, hm⟩ := Option.isSome_iff_exists.1 (hit.steps step hstep)
  rw [moveAt?, Node.getElem?_moves, Option.map_eq_some_iff] at hm
  obtain ⟨edge, hedge, _⟩ := hm
  exact lt_size_of_edge hedge

open Classical in
/-- An iteration adds an arrival for each of its steps. -/
theorem Iterated.arrivals_eq (hit : g.Iterated path leaf g') (h : g.Indexed) (h' : g'.Indexed)
    (hgrow : g.Extends g') (k : UInt64) :
    g'.arrivals S k = g.arrivals S k +
      path.countP fun step => (g'.moveAt? step).any (Position.LeadsTo S (g'.node step.node).key · k) := by
  rw [arrivals_of_extends h h' hgrow, arrivals, ← sum_departures hit.lt_size fun id m =>
    Position.LeadsTo S (g'.node id).key m k, ← Finset.sum_add_distrib]
  exact Finset.sum_congr rfl fun id _ => hit.flow id _

/-- It adds a visit for each node that it passes. -/
theorem Iterated.visitsOf_eq (hit : g.Iterated path leaf g') (h : g.Indexed) (h' : g'.Indexed)
    (hgrow : g.Extends g') (hleaf : leaf < g'.size) (k : UInt64) :
    g'.visitsOf k =
      g.visitsOf k + (leaf :: path.map Step.node).countP (fun id => (g'.node id).key = k) := by
  have hkey : ∀ id ∈ leaf :: path.map Step.node, (g'.node id).key = k ↔ g'.find? k = some id := by
    intro id hid
    have hlt : id < g'.size := by
      rcases List.mem_cons.1 hid with rfl | hid
      · exact hleaf
      · obtain ⟨step, hstep, rfl⟩ := List.mem_map.1 hid
        exact hit.lt_size step hstep
    simp [h' k id, hlt]
  rw [visitsOf_of_extends h h' hgrow, visitsOf]
  cases hfind : g'.find? k with
  | none =>
    have hzero : (leaf :: path.map Step.node).countP (fun id => (g'.node id).key = k) = 0 := by
      refine List.countP_eq_zero.2 fun id hid hid' => ?_
      rw [decide_eq_true_iff, hkey id hid, hfind] at hid'
      cases hid'
    simp [hzero]
  | some id =>
    simp only [Option.map_some, Option.getD_some, hit.visits]
    congr 1
    refine List.countP_congr fun j hj => ?_
    rw [decide_eq_true_iff, hkey j hj, hfind, Option.some_inj, beq_iff_eq]
    exact eq_comm

end Iterated

end Graph

/-! ## Searches -/

namespace Engine

variable [Score α] [Confidence α] [RandomSource σ] {e e' : Engine α σ} {p : Position} {root : Nat} {keys : KeyTable}

/-- The nodes of a walk have the hashes of its positions, also after the iteration. -/
theorem Ready.key_walk (h : e.Ready p root) (hroom : ∀ s ∈ (Station.mk e p root).walk, s.HasRoom)
    {t : Station α σ} (ht : t ∈ (Station.mk e p root).walk) :
    ((e.iterate p root).2.1.graph.node t.node).key = t.position.hash := by
  have hplace := (extends_iterate_of_mem_walk hroom ht).index _ _ (h.placed.walk t ht).place
  exact ((indexed_iterate h.placed _ _).1 hplace).2

/-- So do the edges that it follows keep their moves. -/
theorem moveAt?_walk (hroom : ∀ s ∈ (Station.mk e p root).walk, s.HasRoom) {u : Station α σ}
    (hu : u ∈ (Station.mk e p root).walk) {edge : Edge α} (hleaf : u.isLeaf = false)
    (hedge : (u.engine.graph.node u.node).edges[u.edge]? = some edge) :
    (e.iterate p root).2.1.graph.moveAt? ⟨u.node, u.edge⟩ = some edge.move := by
  obtain ⟨_, _, hmoves⟩ :=
    (extends_iterate_of_mem_walk hroom hu).node u.node (Station.isLeaf_eq_false hleaf).1
  rw [Graph.moveAt?, hmoves, Node.getElem?_moves, hedge, Option.map_some]

open Classical in
/-- A descent arrives at a key where it starts there and where a step leads there. -/
theorem countP_key_walk (h : e.Ready p root) (hroom : ∀ s ∈ (Station.mk e p root).walk, s.HasRoom)
    (hfree : Position.CollisionFree S) (hkeys : ∀ q, S q → q.keys = keys)
    (hmet : ∀ s ∈ (Station.mk e p root).walk, S s.position) (k : UInt64) :
    let g := (e.iterate p root).2.1.graph
    ∀ t ∈ (Station.mk e p root).walk,
      (t.node :: t.engine.path.map Step.node).countP (fun id => (g.node id).key = k) =
        (if p.hash = k then 1 else 0) + t.engine.path.countP fun step =>
          (g.moveAt? step).any (Position.LeadsTo S (g.node step.node).key · k) := by
  intro g
  have hkey : ∀ t ∈ (Station.mk e p root).walk, (g.node t.node).key = t.position.hash :=
    fun t ht => h.key_walk hroom ht
  refine Station.walk_induction _ ?_ ?_
  · simp [h.path, hkey _ (Station.mem_walk_self _)]
  · intro u hu t hnext ih
    have ht := Station.mem_walk_of_next? hu hnext
    obtain ⟨edge, hleaf, hedge, _, rfl⟩ := Station.next?_eq_some hnext
    have hmove : g.moveAt? ⟨u.node, u.edge⟩ = some edge.move := moveAt?_walk hroom hu hleaf hedge
    have hlead : (g.moveAt? ⟨u.node, u.edge⟩).any (Position.LeadsTo S (g.node u.node).key · k) =
        decide ((u.follow edge.move).position.hash = k) := by
      rw [hmove, hkey u hu]
      simp only [Option.any_some, Position.leadsTo_iff hfree hkeys (hmet u hu)]
      rfl
    change ((u.follow edge.move).node :: u.node :: u.engine.path.map Step.node).countP _ =
      _ + (⟨u.node, u.edge⟩ :: u.engine.path).countP _
    rw [List.countP_cons, List.countP_cons (l := u.engine.path), ih, hkey _ ht, hlead, Nat.add_assoc]

/-- A successful iteration visits the key of its root once more than edges lead there. -/
theorem excess_iterate (h : e.Ready p root) (hroom : ∀ s ∈ (Station.mk e p root).walk, s.HasRoom)
    (hfree : Position.CollisionFree S) (hkeys : ∀ q, S q → q.keys = keys)
    (hmet : ∀ s ∈ (Station.mk e p root).walk, S s.position) (hok : (e.iterate p root).1 = .ok ())
    (k : UInt64) :
    (e.iterate p root).2.1.graph.excess S k = e.graph.excess S k + if p.hash = k then 1 else 0 := by
  obtain ⟨t, ht, hit⟩ := h.iterated hroom hok
  have hindexed := indexed_iterate h.placed
  have hgrow := extends_iterate e p root hroom
  have hleaf := (extends_iterate_of_mem_walk hroom ht).index _ _ (h.placed.walk t ht).place
  rw [Graph.excess, Graph.excess, hit.arrivals_eq h.placed.indexed hindexed hgrow,
    hit.visitsOf_eq h.placed.indexed hindexed hgrow ((hindexed _ _).1 hleaf).1,
    countP_key_walk h hroom hfree hkeys hmet k t ht]
  split <;> omega

omit [Confidence α] in
/-- So does the expansion of a root. -/
theorem excess_enterRoot (h : e.graph.Solvent) (hroot : e.enterRoot p = (.ok (e.rootOf p), e', p)) (k : UInt64) :
    e'.graph.excess S k =
      e.graph.excess S k + if p.hash = k ∧ (e.graph.visited? k).isNone then 1 else 0 := by
  have hplaced := e.placed_atRoot p h.indexed
  have hlocate : (e.atRoot p).graph.excess S k = e.graph.excess S k := Graph.excess_locate h.indexed p.hash k
  have hvisited := e.visited?_eq_root p
  have hready := (enterRoot_conserves h hroot).2 rfl
  rcases e.enterRoot_cases p with ⟨hv, heq⟩ | ⟨_, err, e₁, hexp, heq⟩ | ⟨hv, e₁, hexp, heq⟩
  · rw [hroot] at heq
    cases heq
    rw [hlocate, if_neg, add_zero]
    rintro ⟨rfl, hnone⟩
    simp [hvisited, hv] at hnone
  · rw [hroot] at heq
    cases heq
  · rw [hroot] at heq
    cases heq
    have hconserves : e.graph.Conserves True (e.atRoot p).graph := Graph.conserves_locate h.indexed p.hash
    have hit := (evaluated_expand hexp hplaced.lt_size hv).iterated (hconserves.solvent h) hv
    obtain ⟨_, _, _, hgrow, _⟩ := expand_keeps hexp hv
    rw [← hlocate, Graph.excess, Graph.excess,
      hit.arrivals_eq hplaced.indexed hready.placed.indexed hgrow,
      hit.visitsOf_eq hplaced.indexed hready.placed.indexed hgrow hready.placed.lt_size]
    by_cases hk : p.hash = k
    · subst hk
      simp [hvisited, hv, hready.placed.key]
      omega
    · have hkey : (e'.graph.node (e.rootOf p)).key = p.hash := hready.placed.key
      simp [hkey, hk]

/-- A successful search visits the key of its root once for each iteration, and once to expand it. -/
theorem excess_choose {m : Move} (h : e.graph.Solvent) (hwrap : e.NoWrap p)
    (hfree : Position.CollisionFree S) (hkeys : ∀ q, S q → q.keys = keys)
    (hmet : ∀ q ∈ e.met p, S q) (hok : (e.choose p).1 = .ok m) (k : UInt64) :
    (e.choose p).2.2.1.graph.excess S k = e.graph.excess S k +
      (if p.hash = k then e.config.iterations else 0 : Nat) +
      if p.hash = k ∧ (e.graph.visited? k).isNone then 1 else 0 := by
  obtain ⟨e₁, hroot, hready, hlost, hstations, htimes, _, hgraph⟩ := choose_ok h hok
  rw [NoWrap, hstations] at hwrap
  simp only [met, hlost, hstations, Bool.false_eq_true, if_false, List.forall_mem_cons,
    List.forall_mem_map] at hmet
  have hiterations := hready.iterateTimes_induction (k := 0)
    (P := fun n e' => e'.graph.excess S k = e₁.graph.excess S k + (if p.hash = k then n else 0 : Nat))
    (Q := fun s => S s.position) hwrap hmet.2 htimes (by simp) (by
      intro n e' hready' hroom hmet' hit hn
      rw [excess_iterate hready' hroom hfree hkeys hmet' hit, hn]
      split
      · omega
      · omega)
  rw [hgraph, hiterations, excess_enterRoot h hroot, Nat.zero_add]
  omega

theorem isSome_visited?_choose {m : Move} (h : e.graph.Solvent) (hwrap : e.NoWrap p)
    (hok : (e.choose p).1 = .ok m) :
    ((e.choose p).2.2.1.graph.visited? p.hash).isSome = true := by
  obtain ⟨e₁, _, hready, _, hstations, _, _, hgraph⟩ := choose_ok h hok
  rw [NoWrap, hstations] at hwrap
  rw [hgraph]
  refine Graph.isSome_visited?_of_extends (extends_iterateTimes _ _ _ _ hwrap) ?_
  have hplace : e₁.graph.find? p.hash = some (e.rootOf p) := hready.placed.place
  simp [Graph.visited?, hplace, Option.filter_some, hready.visited]

/-! ## Runs -/

/-- Without a reset, a key that has been visited stays so. -/
theorem isSome_visited?_searches (requests : List (Request α)) (hreset : .reset ∉ requests)
    (hwrap : ∀ c ∈ e.searches requests, c.1.NoWrap c.2) {k : UInt64}
    (hv : (e.graph.visited? k).isSome = true) :
    ∀ c ∈ e.searches requests, (c.1.graph.visited? k).isSome = true := by
  induction requests generalizing e with
  | nil => exact nofun
  | cons r requests ih =>
    have hrest := List.not_mem_of_not_mem_cons hreset
    cases r with
    | search p =>
      rw [searches, List.forall_mem_cons] at hwrap ⊢
      exact ⟨hv, ih (e := e.serve (.search p)) hrest hwrap.2
        (Graph.isSome_visited?_of_extends (extends_choose e p hwrap.1) hv)⟩
    | configure config => exact ih (e := e.serve (.configure config)) hrest hwrap hv
    | reset => exact absurd List.mem_cons_self hreset

/-- The iterations of searches whose root has a hash. -/
def iterationsFrom (k : UInt64) (calls : List (Engine α σ × Position)) : Nat :=
  ((calls.filter fun c => c.2.hash = k).map fun c => c.1.config.iterations).sum

/-- Whether one of these searches has found its root unvisited and expanded it. -/
def expandsRoot (k : UInt64) (calls : List (Engine α σ × Position)) : Bool :=
  calls.any fun c => c.2.hash = k && (c.1.graph.visited? k).isNone

theorem excess_searches (requests : List (Request α)) (hreset : .reset ∉ requests) (h : e.graph.Solvent)
    (hfree : Position.CollisionFree S) (hkeys : ∀ q, S q → q.keys = keys)
    (hwrap : ∀ c ∈ e.searches requests, c.1.NoWrap c.2) (hmet : ∀ c ∈ e.searches requests, ∀ q ∈ c.1.met c.2, S q)
    (hok : ∀ c ∈ e.searches requests, ∃ m, (c.1.choose c.2).1 = .ok m) (k : UInt64) :
    (e.serveAll requests).graph.excess S k = e.graph.excess S k +
      iterationsFrom k (e.searches requests) + (expandsRoot k (e.searches requests)).toNat := by
  induction requests generalizing e with
  | nil => simp [serveAll, searches, iterationsFrom, expandsRoot]
  | cons r requests ih =>
    have hrest := List.not_mem_of_not_mem_cons hreset
    cases r with
    | search p =>
      rw [searches, List.forall_mem_cons] at hwrap hmet hok
      obtain ⟨⟨m, hm⟩, hok⟩ := hok
      simp only at hwrap hmet hm
      have hone : (e.serve (.search p)).graph.excess S k = _ :=
        excess_choose h hwrap.1 hfree hkeys hmet.1 hm k
      have hexcess := ih (e := e.serve (.search p)) hrest ((conserves_choose h hwrap.1).solvent h)
        hwrap.2 hmet.2 hok
      change ((e.serve (.search p)).serveAll requests).graph.excess S k = _
      rw [hexcess, hone, searches]
      by_cases hk : p.hash = k
      · subst hk
        -- the node of this root is visited from here on, so no later search expands it
        have hlater : expandsRoot p.hash ((e.serve (.search p)).searches requests) = false := by
          refine List.any_eq_false.2 fun c hc => ?_
          have hv := isSome_visited?_searches requests hrest hwrap.2
            (isSome_visited?_choose h hwrap.1 hm) c hc
          simp [Option.isNone_eq_false_iff.2 hv]
        rw [hlater]
        unfold expandsRoot at hlater
        cases hnone : (e.graph.visited? p.hash).isNone
        · simp [iterationsFrom, expandsRoot, hnone, hlater]
          omega
        · simp [iterationsFrom, expandsRoot, hnone]
          omega
      · simp [iterationsFrom, expandsRoot, hk]
    | configure config => exact ih (e := e.serve (.configure config)) hrest h hwrap hmet hok
    | reset => exact absurd List.mem_cons_self hreset

theorem stations_of_no_iterations (h : e.config.iterations = 0) (p : Position) : e.stations p = [] := by
  obtain ⟨result, e₁, hroot, _, hconfig, _, _⟩ := e.enterRoot_keeps p
  unfold stations
  split
  · rfl
  · rw [hroot]
    cases result with
    | error err => rfl
    | ok root => simp only [hconfig, h, iterationStations]

/-- **The visits of a node are accounted for by the edges that lead to it and by the searches from it.** An
engine that starts without a graph is asked for searches, which all succeed, and new settings in any order. If
no visit counter wraps and the hashes, all with the same keys, tell the positions of a set apart that has all
positions met, then a node has been visited as often as the edges, of all nodes, that lead to its hash together,
and once for each iteration of a search from its hash, and once more if such a search has expanded it. -/
theorem searches_conserve_arrivals (e : Engine α σ) (hempty : e.graph = .empty) (requests : List (Request α))
    (hreset : .reset ∉ requests) (hfree : Position.CollisionFree S) (hkeys : ∀ q, S q → q.keys = keys)
    (hwrap : ∀ c ∈ e.searches requests, c.1.NoWrap c.2)
    (hmet : ∀ c ∈ e.searches requests, ∀ q ∈ c.1.met c.2, S q)
    (hok : ∀ c ∈ e.searches requests, ∃ m, (c.1.choose c.2).1 = .ok m) :
    let g := (e.serveAll requests).graph
    ∀ id < g.size, let k := (g.node id).key
      (g.node id).visits.toNat = g.arrivals S k + iterationsFrom k (e.searches requests) +
        (expandsRoot k (e.searches requests)).toNat := by
  intro g id hid k
  have hsolvent : e.graph.Solvent := hempty ▸ Graph.solvent_empty
  have hindexed : g.Indexed := (solvent_searches requests hsolvent hwrap).1.indexed
  have hvisits : g.visitsOf k = (g.node id).visits.toNat := by
    rw [Graph.visitsOf, (hindexed k id).2 ⟨hid, rfl⟩]
    rfl
  have hexcess : g.excess S k = _ := excess_searches requests hreset hsolvent hfree hkeys hwrap hmet hok k
  rw [hempty, Graph.excess_empty, Graph.excess] at hexcess
  omega

/-- One iteration from the start, then a search from a successor that only makes sure it is expanded. -/
theorem searches_conserve_arrivals_start :
    let e : Engine Float ChaCha := .new ⟨1, 1.4, 1, none⟩ (.ofSeed 0) .empty
    let successor := Position.bitStart.advance ⟨⟨12⟩, ⟨20⟩⟩
    let requests : List (Request Float) :=
      [.search .bitStart, .configure ⟨0, 1.4, 1, none⟩, .search successor]
    let g := (e.serveAll requests).graph
    (∀ c ∈ e.searches requests, c.1.NoWrap c.2 ∧ ∃ m, (c.1.choose c.2).1 = .ok m) ∧
      ∀ id < g.size, (g.node id).key = Position.bitStart.hash →
        (g.node id).visits.toNat = g.arrivals Position.NearBitStart Position.bitStart.hash + 2 := by
  intro e successor requests g
  have hlegal : Position.bitStart.isLegal ⟨⟨12⟩, ⟨20⟩⟩ = true := by decide +kernel
  obtain ⟨hwrap, hmet, hok⟩ := choose_bitStart (e := e) rfl rfl
  obtain ⟨hsound, _⟩ := e.choose_of_sound Position.game_bitStart Graph.sound_empty
    Position.collisionFree_nearBitStart hwrap hmet
  -- the second search meets its root only
  let e' : Engine Float ChaCha := { (e.choose .bitStart).2.2.1 with config := ⟨0, 1.4, 1, none⟩ }
  have hstations : e'.stations successor = [] := stations_of_no_iterations rfl successor
  have hwrap' : e'.NoWrap successor := by simp [NoWrap, hstations]
  have hopen : successor.isLost = false := by decide +kernel
  have hmet' : ∀ q ∈ e'.met successor, q.NearBitStart := by
    simp only [met, hopen, hstations, Bool.false_eq_true, if_false, List.map_nil, List.mem_singleton]
    rintro q rfl
    exact .inr ⟨_, hlegal, rfl⟩
  obtain ⟨m, hok', _⟩ := (e'.choose_of_sound (Position.game_bitStart.step hlegal) hsound
    Position.collisionFree_nearBitStart hwrap' hmet').2 hopen
  have hcalls : e.searches requests = [(e, .bitStart), (e', successor)] := rfl
  have hall : ∀ c ∈ e.searches requests, c.1.NoWrap c.2 ∧ ∃ m, (c.1.choose c.2).1 = .ok m := by
    rw [hcalls, List.forall_mem_cons, List.forall_mem_singleton]
    exact ⟨⟨hwrap, hok⟩, hwrap', m, hok'⟩
  refine ⟨hall, ?_⟩
  intro id hid hkey
  have hkeys : ∀ q : Position, q.NearBitStart → q.keys = Position.bitStart.keys := by
    rintro q (rfl | ⟨m, _, rfl⟩)
    · rfl
    · rfl
  have hvisits := searches_conserve_arrivals e rfl requests (by simp [requests])
    Position.collisionFree_nearBitStart hkeys (fun c hc => (hall c hc).1)
    (by rw [hcalls, List.forall_mem_cons, List.forall_mem_singleton]; exact ⟨hmet, hmet'⟩)
    (fun c hc => (hall c hc).2) id hid
  have hother : successor.hash ≠ Position.bitStart.hash := Position.hash_advance_bitStart hlegal
  have hnone : e.graph.visited? Position.bitStart.hash = none := by
    simp [e, new, Graph.visited?, Graph.find?, Graph.empty]
  have hone : e.config.iterations = 1 := rfl
  rw [hkey, hcalls] at hvisits
  rw [hvisits]
  simp [g, iterationsFrom, expandsRoot, hother, hnone, hone]

end Engine

end Search

end Breakthrough
