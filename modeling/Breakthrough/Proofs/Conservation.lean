import Breakthrough.Proofs.Runs
import Breakthrough.Proofs.Tally

/-!
# No visit is lost below a node

A node is visited on the way down and its edge is credited on the way back, so within an iteration the two
differ, and a failed iteration leaves them so. Between iterations the visits of a node with edges are the first
one, which expanded it, and those of its edges, and a surplus that only failures leave behind.
-/

namespace Breakthrough

namespace Search

variable {α σ : Type}

/-- The index is right, and no node has been visited less often than its edges account for. -/
structure Graph.Solvent (g : Graph α) : Prop where
  indexed : g.Indexed
  surplus : ∀ id, 0 ≤ (g.node id).surplus

/-- The surplus of no node has shrunk and, if all went well, none has changed. -/
structure Graph.Conserves (ok : Prop) (g g' : Graph α) : Prop where
  indexed : g'.Indexed
  surplus_le : ∀ id, (g.node id).surplus ≤ (g'.node id).surplus
  surplus_eq : ok → ∀ id, (g'.node id).surplus = (g.node id).surplus

namespace Graph

variable {g g₁ g' : Graph α} {ok : Prop}

theorem solvent_empty : (empty : Graph α).Solvent := ⟨indexed_empty, fun _ => le_rfl⟩

theorem Conserves.solvent (h : g.Conserves ok g') (hg : g.Solvent) : g'.Solvent :=
  ⟨h.indexed, fun id => le_trans (hg.surplus id) (h.surplus_le id)⟩

theorem conserves_refl (h : g.Indexed) : g.Conserves ok g :=
  ⟨h, fun _ => le_rfl, fun _ _ => rfl⟩

theorem Conserves.trans (h : g.Conserves ok g₁) (h' : g₁.Conserves ok g') : g.Conserves ok g' := by
  refine ⟨h'.indexed, fun id => le_trans (h.surplus_le id) (h'.surplus_le id), ?_⟩
  intro hok id
  rw [h'.surplus_eq hok, h.surplus_eq hok]

theorem Conserves.imp {ok' : Prop} (h : g.Conserves ok g') (himp : ok' → ok) : g.Conserves ok' g' :=
  ⟨h.indexed, h.surplus_le, fun hok => h.surplus_eq (himp hok)⟩

theorem conserves_locate (h : g.Indexed) (key : UInt64) : g.Conserves ok (g.locate key).2 := by
  have hsurplus : ∀ id, ((g.locate key).2.node id).surplus = (g.node id).surplus := by
    intro id
    simp only [Node.surplus, Node.edgeVisits, visits_locate, edges_locate]
  exact ⟨h.locate key, fun id => (hsurplus id).ge, fun _ => hsurplus⟩

/-- The expansion of a node is an iteration without a path. -/
theorem Evaluated.iterated {leaf : Nat} (h : g.Evaluated leaf g') (hg : g.Solvent)
    (hv : (g.node leaf).isVisited = false) : g.Iterated [] leaf g' :=
  Walked.iterated ⟨fun _ => rfl, fun _ => rfl⟩ h (credited_nil g') hg.surplus (.inl hv) (by simp)

theorem Iterated.conserves {path : List Step} {leaf : Nat} (h : g.Iterated path leaf g') (h' : g'.Indexed) :
    g.Conserves ok g' :=
  ⟨h', fun id => (h.surplus_eq id).ge, fun _ => h.surplus_eq⟩

end Graph

namespace Engine

variable [Score α] [Confidence α] [RandomSource σ] {e e' : Engine α σ} {p q : Position} {root : Nat}

/-! ## Iterations -/

/-- The engine is ready to search a position from its node. -/
structure Ready (p : Position) (root : Nat) (e : Engine α σ) : Prop where
  path : e.path = []
  placed : (Station.mk e p root).Placed
  visited : (e.graph.node root).isVisited = true
  solvent : e.graph.Solvent

/-- A successful iteration from the root, told by a station of its walk. -/
theorem Ready.iterated (h : e.Ready p root) (hroom : ∀ s ∈ (Station.mk e p root).walk, s.HasRoom)
    (hok : (e.iterate p root).1 = .ok ()) :
    ∃ t ∈ (Station.mk e p root).walk,
      e.graph.Iterated t.engine.path t.node (e.iterate p root).2.1.graph :=
  iterated_iterate h.path h.placed h.solvent.surplus hroom hok

theorem Ready.conserves_iterate (h : e.Ready p root)
    (hroom : ∀ s ∈ (Station.mk e p root).walk, s.HasRoom) :
    e.graph.Conserves ((e.iterate p root).1 = .ok ()) (e.iterate p root).2.1.graph := by
  have hindexed := indexed_iterate h.placed
  cases hr : (e.iterate p root).1 with
  | error err =>
    exact ⟨hindexed, (stalled_iterate h.path hroom hr).surplus_le, nofun⟩
  | ok u =>
    obtain ⟨t, _, hit⟩ := h.iterated hroom hr
    exact hit.conserves hindexed

/-- A successful iteration ends as it began. -/
theorem Ready.iterate (h : e.Ready p root) (hroom : ∀ s ∈ (Station.mk e p root).walk, s.HasRoom)
    (hit : e.iterate p root = (.ok (), e', q)) : q = p ∧ e'.Ready p root := by
  have hacc := accounted_iterate e p root h.path hroom
  have hconserves := h.conserves_iterate hroom
  have hgrown := extends_iterate e p root hroom
  rw [hit] at hacc hconserves hgrown
  exact ⟨hacc.position_eq rfl, hacc.home rfl, ⟨hconserves.indexed, hgrown.index _ _ h.placed.place⟩,
    (hgrown.node root h.visited).1, hconserves.solvent h.solvent⟩

/-- What every successful iteration keeps, with the number of iterations counted. -/
theorem Ready.iterateTimes_induction {P : Nat → Engine α σ → Prop} {Q : Station α σ → Prop} {n k : Nat}
    (h : e.Ready p root) (hroom : ∀ s ∈ iterationStations n e p root, s.HasRoom)
    (hQ : ∀ s ∈ iterationStations n e p root, Q s) (hok : (iterateTimes n e p root).1 = .ok ())
    (start : P k e)
    (step : ∀ k e, e.Ready p root → (∀ s ∈ (Station.mk e p root).walk, s.HasRoom) →
      (∀ s ∈ (Station.mk e p root).walk, Q s) → (e.iterate p root).1 = .ok () → P k e →
        P (k + 1) (e.iterate p root).2.1) :
    P (k + n) (iterateTimes n e p root).2.1 := by
  induction n generalizing e k with
  | zero => exact start
  | succ n ih =>
    unfold iterationStations at hroom hQ
    unfold iterateTimes at hok ⊢
    have hroom₁ := fun s hs => hroom s (List.mem_append_left _ hs)
    have hQ₁ := fun s hs => hQ s (List.mem_append_left _ hs)
    have hstep := fun hit => step k e h hroom₁ hQ₁ hit start
    split at hok
    · cases hok
    · rename_i e' q hit
      rw [hit] at hroom hQ hstep
      obtain ⟨rfl, hready⟩ := h.iterate hroom₁ hit
      rw [Nat.add_comm n 1, ← Nat.add_assoc]
      exact ih hready (fun s hs => hroom s (List.mem_append_right _ hs))
        (fun s hs => hQ s (List.mem_append_right _ hs)) hok (hstep rfl)

theorem Ready.conserves_iterateTimes (n : Nat) (h : e.Ready p root)
    (hroom : ∀ s ∈ iterationStations n e p root, s.HasRoom) :
    e.graph.Conserves ((iterateTimes n e p root).1 = .ok ()) (iterateTimes n e p root).2.1.graph := by
  induction n generalizing e with
  | zero => exact Graph.conserves_refl h.placed.indexed
  | succ n ih =>
    unfold iterationStations at hroom
    have hroom₁ := fun s hs => hroom s (List.mem_append_left _ hs)
    have hone := h.conserves_iterate hroom₁
    unfold iterateTimes
    split
    · rename_i hit
      rw [hit] at hone
      exact hone.imp fun hok => by cases hok
    · rename_i e' q hit
      rw [hit] at hone hroom
      obtain ⟨rfl, hready⟩ := h.iterate hroom₁ hit
      have hrest := ih hready fun s hs => hroom s (List.mem_append_right _ hs)
      exact (hone.imp fun _ => rfl).trans hrest

/-! ## Searches -/

omit [Confidence α] in
theorem enterRoot_ok (h : e.enterRoot p = (.ok root, e', q)) : root = e.rootOf p := by
  rcases e.enterRoot_cases p with ⟨_, heq⟩ | ⟨_, err, e₁, _, heq⟩ | ⟨_, e₁, _, heq⟩
  · rw [h] at heq
    cases heq
    rfl
  · rw [h] at heq
    cases heq
  · rw [h] at heq
    cases heq
    rfl

/-- A search is refused at once, fails to expand the root, or iterates. -/
theorem choose_cases (e : Engine α σ) (p : Position) :
    ((∃ err, (e.choose p).1 = .error err) ∧ (e.choose p).2.2.1.graph = e.graph) ∨
    (∃ err e₁, e.enterRoot p = (.error err, e₁, p) ∧ (e.choose p).1 = .error err ∧
      (e.choose p).2.2.1.graph = e₁.graph) ∨
    ∃ e₁, p.isLost = false ∧ e.enterRoot p = (.ok (e.rootOf p), e₁, p) ∧
      e.stations p = iterationStations e.config.iterations e₁ p (e.rootOf p) ∧
      (e.choose p).2.2.1.graph = (iterateTimes e.config.iterations e₁ p (e.rootOf p)).2.1.graph ∧
      ∀ m, (e.choose p).1 = .ok m → (iterateTimes e.config.iterations e₁ p (e.rootOf p)).1 = .ok () ∧
        (iterateTimes e.config.iterations e₁ p (e.rootOf p)).2.1.answer (e.rootOf p) p.hash = .ok m := by
  unfold choose stations
  split
  · exact .inl ⟨⟨_, rfl⟩, rfl⟩
  rename_i hlost
  right
  obtain ⟨result, e₁, hroot, _, hconfig, _, _⟩ := e.enterRoot_keeps p
  cases result with
  | error err => exact .inl ⟨err, e₁, hroot, by rw [hroot], by rw [hroot]⟩
  | ok root =>
    obtain rfl := enterRoot_ok hroot
    refine .inr ⟨e₁, by simpa using hlost, hroot, by rw [hroot, ← hconfig], ?_⟩
    rw [hroot, ← hconfig]
    simp only
    split
    · rename_i hr
      rw [hr]
      exact ⟨rfl, nofun⟩
    · rename_i hr
      rw [hr]
      exact ⟨rfl, fun m hm => ⟨rfl, hm⟩⟩

/-- Only a search that iterates has stations. -/
theorem mem_stations {t : Station α σ} (h : t ∈ e.stations p) :
    ∃ e₁, e.enterRoot p = (.ok (e.rootOf p), e₁, p) ∧
      e.stations p = iterationStations e.config.iterations e₁ p (e.rootOf p) := by
  obtain ⟨result, e₁, hroot, _, hconfig, _, _⟩ := e.enterRoot_keeps p
  unfold stations at h
  split at h
  · cases h
  rename_i hlost
  rw [hroot] at h
  cases result with
  | error err => cases h
  | ok root =>
    obtain rfl := enterRoot_ok hroot
    exact ⟨e₁, hroot, by rw [stations, if_neg hlost, hroot, ← hconfig]⟩

omit [Score α] [Confidence α] [RandomSource σ] in
theorem placed_atRoot (e : Engine α σ) (p : Position) (h : e.graph.Indexed) :
    (Station.mk (e.atRoot p) p (e.rootOf p)).Placed :=
  ⟨h.locate p.hash, Graph.find?_locate_self _ _⟩

omit [Confidence α] in
/-- Finding the root is no visit, expanding it is its first. -/
theorem enterRoot_conserves {result : Except Error Nat} (h : e.graph.Solvent)
    (hroot : e.enterRoot p = (result, e', p)) :
    e.graph.Conserves True e'.graph ∧ (result = .ok (e.rootOf p) → e'.Ready p (e.rootOf p)) := by
  have hplaced := e.placed_atRoot p h.indexed
  have hlocate : e.graph.Conserves True (e.atRoot p).graph := Graph.conserves_locate h.indexed p.hash
  rcases e.enterRoot_cases p with ⟨hv, heq⟩ | ⟨_, err, e₁, hexp, heq⟩ | ⟨hv, e₁, hexp, heq⟩
  · rw [hroot] at heq
    cases heq
    exact ⟨hlocate, fun _ => ⟨rfl, hplaced, hv, hlocate.solvent h⟩⟩
  · rw [hroot] at heq
    cases heq
    rw [graph_expand_error hexp]
    exact ⟨hlocate, nofun⟩
  · rw [hroot] at heq
    cases heq
    have hindexed := (e.atRoot p).indexed_expand p (e.rootOf p) hplaced.indexed
    rw [hexp] at hindexed
    have hit := (evaluated_expand hexp hplaced.lt_size hv).iterated (hlocate.solvent h) hv
    have hboth := hlocate.trans (hit.conserves hindexed)
    obtain ⟨_, hpath, _, hgrown, _⟩ := expand_keeps hexp hv
    have hv' : (e'.graph.node (e.rootOf p)).isVisited = true := by simp [Node.isVisited_iff, hit.visits]
    exact ⟨hboth, fun _ => ⟨hpath, ⟨hindexed, hgrown.index _ _ hplaced.place⟩, hv', hboth.solvent h⟩⟩

theorem conserves_choose (h : e.graph.Solvent) (hwrap : e.NoWrap p) :
    e.graph.Conserves (∃ m, (e.choose p).1 = .ok m) (e.choose p).2.2.1.graph := by
  rcases e.choose_cases p with
    ⟨⟨err, herr⟩, hgraph⟩ | ⟨err, e₁, hroot, herr, hgraph⟩ | ⟨e₁, _, hroot, hstations, hgraph, hok⟩
  · rw [hgraph]
    exact Graph.conserves_refl h.indexed
  · rw [hgraph]
    exact (enterRoot_conserves h hroot).1.imp fun _ => trivial
  · rw [NoWrap, hstations] at hwrap
    obtain ⟨hconserves, hready⟩ := enterRoot_conserves h hroot
    rw [hgraph]
    refine (hconserves.imp fun _ => trivial).trans (((hready rfl).conserves_iterateTimes _ hwrap).imp ?_)
    rintro ⟨m, hm⟩
    exact (hok m hm).1

/-- A successful search is the entry to the root and as many successful iterations as it is set to. -/
theorem choose_ok {m : Move} (h : e.graph.Solvent) (hok : (e.choose p).1 = .ok m) :
    ∃ e₁, e.enterRoot p = (.ok (e.rootOf p), e₁, p) ∧ e₁.Ready p (e.rootOf p) ∧ p.isLost = false ∧
      e.stations p = iterationStations e.config.iterations e₁ p (e.rootOf p) ∧
      (iterateTimes e.config.iterations e₁ p (e.rootOf p)).1 = .ok () ∧
      (iterateTimes e.config.iterations e₁ p (e.rootOf p)).2.1.answer (e.rootOf p) p.hash = .ok m ∧
      (e.choose p).2.2.1.graph = (iterateTimes e.config.iterations e₁ p (e.rootOf p)).2.1.graph := by
  rcases e.choose_cases p with
    ⟨⟨err, herr⟩, _⟩ | ⟨err, e₁, _, herr, _⟩ | ⟨e₁, hlost, hroot, hstations, hgraph, hall⟩
  · rw [hok] at herr
    cases herr
  · rw [hok] at herr
    cases herr
  · obtain ⟨htimes, hanswer⟩ := hall m hok
    exact ⟨e₁, hroot, (enterRoot_conserves h hroot).2 rfl, hlost, hstations, htimes, hanswer, hgraph⟩

/-! ## The root -/

omit [RandomSource σ] in
/-- A descent that does not come back to the hash of its first position passes the root once. -/
theorem count_root (h : e.Ready p root) (hroom : ∀ s ∈ (Station.mk e p root).walk, s.HasRoom)
    (honce : ∀ s ∈ (Station.mk e p root).walk, p.depth < s.position.depth → s.position.hash ≠ p.hash) :
    ∀ t ∈ (Station.mk e p root).walk, (t.node :: t.engine.path.map Step.node).count root = 1 := by
  have hall : ∀ t ∈ (Station.mk e p root).walk, p.depth ≤ t.position.depth ∧
      (t.node :: t.engine.path.map Step.node).count root = 1 := by
    refine Station.walk_induction _ ⟨Nat.le_refl _, by simp [h.path]⟩ ?_
    intro u hu t hnext hcount
    have ht := Station.mem_walk_of_next? hu hnext
    have hplaced := h.placed.walk t ht
    have hindex := (Station.extends_walk hroom t ht).index _ _ h.placed.place
    obtain ⟨edge, _, _, _, rfl⟩ := Station.next?_eq_some hnext
    have hdeeper : (u.follow edge.move).position.depth = u.position.depth + 1 :=
      Position.depth_advance _ _
    have hother : (u.follow edge.move).node ≠ root := by
      intro hsame
      have hkey := hplaced.key
      rw [hsame, ((hplaced.indexed _ _).1 hindex).2] at hkey
      exact honce _ ht (by omega) hkey.symm
    refine ⟨by omega, ?_⟩
    rw [List.count_cons_of_ne hother]
    exact hcount.2
  exact fun t ht => (hall t ht).2

omit [Score α] [Confidence α] [RandomSource σ] in
/-- The visited node of a position is the root, if that has been visited. -/
theorem visited?_eq_root (e : Engine α σ) (p : Position) :
    let root := (e.atRoot p).graph.node (e.rootOf p)
    e.graph.visited? p.hash = if root.isVisited then some root else none := by
  intro root
  cases hfind : e.graph.find? p.hash with
  | none =>
    have hroot : root = .fresh p.hash := by
      have hplace : e.rootOf p = e.graph.size := by simp [rootOf, Graph.locate, hfind]
      simp [root, atRoot, hplace, Graph.node_locate, hfind]
    simp [Graph.visited?, hfind, hroot, Node.isVisited, Node.fresh]
  | some id => simp [Graph.visited?, hfind, root, atRoot, rootOf, Graph.locate, Option.filter_some]

omit [Confidence α] in
/-- The root that a search starts from. -/
theorem enterRoot_node (h : e.graph.Indexed) (hroot : e.enterRoot p = (.ok (e.rootOf p), e', p)) :
    (∀ n, e.graph.visited? p.hash = some n → e'.graph.node (e.rootOf p) = n) ∧
    (e.graph.visited? p.hash = none →
      (e'.graph.node (e.rootOf p)).visits.toNat = 1 ∧ (e'.graph.node (e.rootOf p)).edgeVisits = 0) := by
  have hvisited := e.visited?_eq_root p
  have hplaced := e.placed_atRoot p h
  rcases e.enterRoot_cases p with ⟨hv, heq⟩ | ⟨_, err, e₁, hexp, heq⟩ | ⟨hv, e₁, hexp, heq⟩
  · rw [hroot] at heq
    cases heq
    simp only [hvisited, hv, if_true]
    exact ⟨fun n hn => Option.some.inj hn, nofun⟩
  · rw [hroot] at heq
    cases heq
  · rw [hroot] at heq
    cases heq
    simp only [hvisited, hv, Bool.false_eq_true, if_false]
    refine ⟨nofun, fun _ => ?_⟩
    obtain ⟨edges, hfresh, hgraph⟩ := expand_ok hexp
    rw [hgraph, Graph.node_modify, if_pos ⟨rfl, hplaced.lt_size⟩, ← Node.visitsAlong_true]
    exact ⟨rfl, Node.visitsAlong_of_fresh hfresh⟩

omit [Score α] [Confidence α] [RandomSource σ] in
theorem edges_of_answer {key : UInt64} {m : Move} (h : e.answer root key = .ok m) :
    (e.graph.node root).edges.isEmpty = false := by
  by_contra hempty
  rw [Bool.not_eq_false, Array.isEmpty_iff] at hempty
  simp [answer, hempty] at h

/-- A successful search of a position whose hash does not come back below it visits the root and its edges once
for each iteration. -/
theorem choose_root {m : Move} (h : e.graph.Solvent) (hwrap : e.NoWrap p) (hok : (e.choose p).1 = .ok m)
    (honce : ∀ q ∈ e.met p, p.depth < q.depth → q.hash ≠ p.hash) :
    ∃ after, (e.choose p).2.2.1.graph.visited? p.hash = some after ∧
      (∀ before, e.graph.visited? p.hash = some before →
        after.visits.toNat = before.visits.toNat + e.config.iterations ∧
        after.edgeVisits = before.edgeVisits + e.config.iterations) ∧
      (e.graph.visited? p.hash = none →
        after.visits.toNat = e.config.iterations + 1 ∧ after.edgeVisits = e.config.iterations) := by
  obtain ⟨e₁, hroot, hready, hlost, hstations, htimes, hanswer, hgraph⟩ := choose_ok h hok
  rw [NoWrap, hstations] at hwrap
  simp only [met, hlost, hstations, Bool.false_eq_true, if_false, List.forall_mem_cons,
    List.forall_mem_map] at honce
  have hvisits := hready.iterateTimes_induction (k := 0)
    (P := fun k e' => (e'.graph.node (e.rootOf p)).visits.toNat =
      (e₁.graph.node (e.rootOf p)).visits.toNat + k)
    (Q := fun s => p.depth < s.position.depth → s.position.hash ≠ p.hash) hwrap honce.2 htimes rfl (by
      intro k e' hready' hroom honce' hit hk
      obtain ⟨t, ht, hiterated⟩ := hready'.iterated hroom hit
      rw [hiterated.visits, count_root hready' hroom honce' t ht, hk, Nat.add_assoc])
  have hsurplus := (hready.conserves_iterateTimes _ hwrap).surplus_eq htimes (e.rootOf p)
  have hgrown := extends_iterateTimes _ _ _ _ hwrap
  have hedges := edges_of_answer hanswer
  rw [hgraph]
  generalize (iterateTimes e.config.iterations e₁ p (e.rootOf p)).2.1 = e₂ at *
  obtain ⟨hv, _, hmoves⟩ := hgrown.node _ hready.visited
  have hedges₁ : (e₁.graph.node (e.rootOf p)).edges.isEmpty = false := by
    rw [← Node.isEmpty_congr hmoves, hedges]
  rw [Node.surplus, Node.surplus, hedges, hedges₁, if_neg (by simp), if_neg (by simp)] at hsurplus
  refine ⟨e₂.graph.node (e.rootOf p), ?_, ?_, ?_⟩
  · rw [Graph.visited?, hgrown.index _ _ hready.placed.place, Option.map_some, Option.filter_some, if_pos hv]
  · intro before hbefore
    have hsame := (enterRoot_node h.indexed hroot).1 before hbefore
    rw [hsame] at hvisits hsurplus
    omega
  · intro hnone
    have hfirst := (enterRoot_node h.indexed hroot).2 hnone
    omega

/-! ## Runs -/

/-- A run keeps the graph solvent, and without a surplus while every search succeeds. -/
theorem solvent_searches (requests : List (Request α)) (h : e.graph.Solvent)
    (hwrap : ∀ c ∈ e.searches requests, c.1.NoWrap c.2) :
    (e.serveAll requests).graph.Solvent ∧ (∀ c ∈ e.searches requests, c.1.graph.Solvent) ∧
    ((∀ id, (e.graph.node id).surplus = 0) → (∀ c ∈ e.searches requests, ∃ m, (c.1.choose c.2).1 = .ok m) →
      ∀ id, ((e.serveAll requests).graph.node id).surplus = 0) := by
  induction requests generalizing e with
  | nil => exact ⟨h, nofun, fun hzero _ => hzero⟩
  | cons r requests ih =>
    cases r with
    | search p =>
      rw [searches, List.forall_mem_cons] at hwrap
      have hconserves := conserves_choose h hwrap.1
      obtain ⟨hend, hall, hzero⟩ := ih (e := e.serve (.search p)) (hconserves.solvent h) hwrap.2
      rw [searches, List.forall_mem_cons, List.forall_mem_cons]
      refine ⟨hend, ⟨h, hall⟩, fun hzero' hok => hzero (fun id => ?_) hok.2⟩
      rw [← hzero' id]
      exact hconserves.surplus_eq hok.1 id
    | configure config => exact ih (e := e.serve (.configure config)) h hwrap
    | reset =>
      obtain ⟨hend, hall, hzero⟩ := ih (e := e.serve .reset) Graph.solvent_empty hwrap
      exact ⟨hend, hall, fun _ => hzero fun _ => rfl⟩

/-! ## Every run -/

/-- **The visits of a node are accounted for by its edges.** An engine that starts without a graph is asked for
searches of any positions, new settings and resets in any order. If no visit counter wraps, whatever the hashes
are, then

* a node with edges has been visited at least once more than its edges together, and exactly once more if every
  search so far has succeeded;
* a successful search of a position whose hash does not come back below it visits the root once for each
  iteration, and once more if it was unvisited, and its edges once for each iteration. -/
theorem searches_conserve_visits (e : Engine α σ) (hempty : e.graph = .empty) (requests : List (Request α))
    (hwrap : ∀ c ∈ e.searches requests, c.1.NoWrap c.2) :
    (∀ id, let node := (e.serveAll requests).graph.node id
      node.edges ≠ #[] → 1 + node.edgeVisits ≤ node.visits.toNat ∧
        ((∀ c ∈ e.searches requests, ∃ m, (c.1.choose c.2).1 = .ok m) →
          node.visits.toNat = 1 + node.edgeVisits)) ∧
    ∀ c ∈ e.searches requests, ∀ m, (c.1.choose c.2).1 = .ok m →
      (∀ q ∈ c.1.met c.2, c.2.depth < q.depth → q.hash ≠ c.2.hash) →
      ∃ after, (c.1.choose c.2).2.2.1.graph.visited? c.2.hash = some after ∧
        (∀ before, c.1.graph.visited? c.2.hash = some before →
          after.visits.toNat = before.visits.toNat + c.1.config.iterations ∧
          after.edgeVisits = before.edgeVisits + c.1.config.iterations) ∧
        (c.1.graph.visited? c.2.hash = none →
          after.visits.toNat = c.1.config.iterations + 1 ∧ after.edgeVisits = c.1.config.iterations) := by
  have hzero : ∀ id, (e.graph.node id).surplus = 0 := by
    intro id
    rw [hempty]
    rfl
  obtain ⟨hsolvent, hsearches, hbalanced⟩ :=
    solvent_searches requests (hempty ▸ Graph.solvent_empty) hwrap
  refine ⟨?_, ?_⟩
  · intro id node hedges
    have hnonempty : ¬ node.edges.isEmpty = true := by rwa [Array.isEmpty_iff]
    have hle : 0 ≤ node.surplus := hsolvent.surplus id
    rw [Node.surplus, if_neg hnonempty] at hle
    refine ⟨by omega, fun hok => ?_⟩
    have heq : node.surplus = 0 := hbalanced hzero hok id
    rw [Node.surplus, if_neg hnonempty] at heq
    omega
  · intro c hc m hok honce
    exact choose_root (hsearches c hc) (hwrap c hc) hok honce

/-- One iteration from the start: the root has been visited twice, its edges once. -/
theorem searches_conserve_visits_start :
    let e : Engine Float ChaCha := .new ⟨1, 1.4, 1, none⟩ (.ofSeed 0) .empty
    e.NoWrap .bitStart ∧ ∃ root, (e.choose .bitStart).2.2.1.graph.visited? Position.bitStart.hash = some root ∧
      root.visits.toNat = 2 ∧ root.edgeVisits = 1 := by
  intro e
  obtain ⟨hwrap, hmet, m, hok⟩ := choose_bitStart (e := e) rfl rfl
  obtain ⟨_, hroot⟩ := searches_conserve_visits e rfl [.search .bitStart] (by simpa [searches] using hwrap)
  have honce : ∀ q ∈ e.met .bitStart, Position.bitStart.depth < q.depth → q.hash ≠ Position.bitStart.hash := by
    intro q hq hdepth
    rcases hmet q hq with rfl | ⟨m, hm, rfl⟩
    · exact absurd hdepth (Nat.lt_irrefl _)
    · exact Position.hash_advance_bitStart hm
  obtain ⟨root, hvisited, _, hfirst⟩ := hroot (e, .bitStart) (by simp [searches]) m hok honce
  exact ⟨hwrap, root, hvisited, hfirst (by simp [e, new, Graph.visited?, Graph.find?, Graph.empty])⟩

end Engine

end Search

end Breakthrough
