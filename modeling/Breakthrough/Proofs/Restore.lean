import Breakthrough.Proofs.Descent
import Breakthrough.Proofs.Playout
import Breakthrough.Proofs.Rules
import Breakthrough.Random.Rejection

/-!
# A search gives the position back

Whatever the graph holds, whatever the settings and the random stream are and whether a search succeeds, the
position that comes back from it is the one it was given, with its whole history, as long as no visit counter
overflows on the way (`NoWrap`). That a search comes back at all is part of the definitions: `descend` and
`playToEnd` recurse on the room that is left in the history.
-/

namespace Breakthrough.Search

variable {α σ : Type} [Score α] [RandomSource σ]

/-! ## Expanding a node -/

theorem Sampler.sample_cases (s : Sampler σ) (p : Position) (m : Move) (n : Nat) :
    (∃ err s', err.isFatal = false ∧
      (s.sample p m n : Except Error α × Sampler σ × Position) = (.error err, s', p)) ∨
    ∃ value s', (s.sample p m n : Except Error α × Sampler σ × Position) = (.ok value, s', p) := by
  unfold sample
  split
  · exact .inr ⟨_, _, rfl⟩
  have hp := position_countWins m n 0 p s.source
  split
  · rename_i e q g hr
    obtain rfl : q = p := by rwa [hr] at hp
    exact .inl ⟨e, _, mild_countWins m n 0 q s.source e (by rw [hr]), rfl⟩
  · rename_i wins q g hr
    obtain rfl : q = p := by rwa [hr] at hp
    exact .inr ⟨_, _, rfl⟩

namespace Engine

/-- Seeding keeps the position; if it succeeds there is one edge per move, in the order of the moves. -/
theorem seedEdges_cases (samples : Nat) (moves : List Move) (s : Sampler σ) (p : Position) :
    (∃ err s', err.isFatal = false ∧
      (seedEdges samples moves s p : Except Error (List (Edge α)) × Sampler σ × Position) =
        (.error err, s', p)) ∨
    ∃ (edges : List (Edge α)) (s' : Sampler σ), edges.map Edge.move = moves ∧
      seedEdges samples moves s p = (.ok edges, s', p) := by
  induction moves generalizing s with
  | nil => exact .inr ⟨[], s, rfl, rfl⟩
  | cons m moves ih =>
    rcases s.sample_cases (α := α) p m samples with ⟨err, s', herr, hs⟩ | ⟨value, s', hs⟩
    · exact .inl ⟨err, s', herr, by rw [seedEdges, hs]⟩
    rcases ih s' with ⟨err, s'', herr, hs'⟩ | ⟨edges, s'', hedges, hs'⟩
    · refine .inl ⟨err, s'', herr, ?_⟩
      simp only [seedEdges, hs, hs']
    · refine .inr ⟨⟨m, 0, value⟩ :: edges, s'', by rw [List.map_cons, hedges], ?_⟩
      simp only [seedEdges, hs, hs']

def expanded (edges : Array (Edge α)) (n : Node α) : Node α := { n with edges, visits := 1 }

theorem expand_of_error {e : Engine α σ} {p q : Position} {err : Error} {sampler : Sampler σ}
    (h : seedEdges (α := α) e.config.samples p.legalMoves e.sampler p = (.error err, sampler, q)) (id : Nat) :
    e.expand p id = (.error err, { e with sampler }, q) := by
  unfold Position.legalMoves at h
  simp only [expand, h]

theorem expand_of_ok {e : Engine α σ} {p q : Position} {edges : List (Edge α)} {sampler : Sampler σ}
    (h : seedEdges e.config.samples p.legalMoves e.sampler p = (.ok edges, sampler, q)) (id : Nat) :
    e.expand p id = (.ok (), { e with
      sampler
      graph := e.graph.modify id (expanded (sortEdges edges).toArray)
      stats.expansions := e.stats.expansions + 1 }, q) := by
  unfold Position.legalMoves at h
  simp only [expand, h]
  rfl

theorem expand_cases (e : Engine α σ) (p : Position) (id : Nat) :
    (∃ err sampler, err.isFatal = false ∧ e.expand p id = (.error err, { e with sampler }, p)) ∨
    ∃ edges sampler, (edges.toList.map Edge.move).Perm p.legalMoves ∧
      e.expand p id = (.ok (), { e with
        sampler
        graph := e.graph.modify id (expanded edges)
        stats.expansions := e.stats.expansions + 1 }, p) := by
  rcases seedEdges_cases (α := α) e.config.samples p.legalMoves e.sampler p with
    ⟨err, sampler, herr, hs⟩ | ⟨edges, sampler, hedges, hs⟩
  · exact .inl ⟨err, sampler, herr, expand_of_error hs id⟩
  · refine .inr ⟨(sortEdges edges).toArray, sampler, ?_, expand_of_ok hs id⟩
    rw [← hedges]
    exact (List.mergeSort_perm edges _).map Edge.move

/-- A leaf that was visited is counted once more, another one is expanded. -/
theorem evaluateLeaf_cases (e : Engine α σ) (p : Position) (leaf : Nat) :
    ((e.graph.node leaf).isVisited = true ∧ ∃ reward, e.evaluateLeaf p leaf = (.ok reward, { e with
      graph := e.graph.modify leaf Node.visit
      stats.terminalHits := e.stats.terminalHits + 1 }, p)) ∨
    ((e.graph.node leaf).isVisited = false ∧ ∃ err e', e.expand p leaf = (.error err, e', p) ∧
      e.evaluateLeaf p leaf = (.error err, e', p)) ∨
    ((e.graph.node leaf).isVisited = false ∧ ∃ reward e', e.expand p leaf = (.ok (), e', p) ∧
      e.evaluateLeaf p leaf = (.ok reward, e', p)) := by
  unfold evaluateLeaf
  split
  · rename_i hv
    exact .inl ⟨hv, _, rfl⟩
  rename_i hv
  rw [Bool.not_eq_true] at hv
  rcases e.expand_cases p leaf with ⟨err, sampler, _, hexp⟩ | ⟨edges, sampler, _, hexp⟩
  · exact .inr (.inl ⟨hv, err, _, hexp, by rw [hexp]⟩)
  · refine .inr (.inr ⟨hv, ?_⟩)
    rw [hexp]
    simp only
    split
    · exact ⟨_, _, rfl, rfl⟩
    · exact ⟨_, _, rfl, rfl⟩

/-- An expansion keeps the path, and the graph grows if the node was unvisited. -/
theorem expand_keeps {e e' : Engine α σ} {p q : Position} {id : Nat} {result : Except Error Unit}
    (h : e.expand p id = (result, e', q)) (hv : (e.graph.node id).isVisited = false) :
    q = p ∧ e'.path = e.path ∧ e'.config = e.config ∧ e.graph.Extends e'.graph ∧ Mild result := by
  rcases e.expand_cases p id with ⟨err, sampler, herr, heq⟩ | ⟨edges, sampler, _, heq⟩
  · rw [heq] at h
    cases h
    exact ⟨rfl, rfl, rfl, .refl _, mild_error herr⟩
  · rw [heq] at h
    cases h
    exact ⟨rfl, rfl, rfl, Graph.extends_modify_of_unvisited hv, mild_ok _⟩

/-- Whatever an evaluation does, it keeps the position and the path, and the graph grows. -/
theorem evaluateLeaf_keeps (e : Engine α σ) (p : Position) (leaf : Nat)
    (hroom : (e.graph.node leaf).visits.toNat + 1 < UInt32.size) :
    ∃ result e', e.evaluateLeaf p leaf = (result, e', p) ∧ e'.path = e.path ∧
      e.graph.Extends e'.graph ∧ Mild result := by
  rcases e.evaluateLeaf_cases p leaf with
    ⟨_, reward, heq⟩ | ⟨hv, err, e', hexp, heq⟩ | ⟨hv, reward, e', hexp, heq⟩
  · exact ⟨_, _, heq, rfl, Graph.extends_modify (Node.extends_visit hroom), mild_ok _⟩
  · obtain ⟨_, hpath, _, hgrow, hmild⟩ := expand_keeps hexp hv
    exact ⟨_, e', heq, hpath, hgrow, mild_error (hmild err rfl)⟩
  · obtain ⟨_, hpath, _, hgrow, _⟩ := expand_keeps hexp hv
    exact ⟨_, e', heq, hpath, hgrow, mild_ok _⟩

/-- What every credited edge keeps is kept by the credit of a path, also of one that fails. -/
theorem creditPath_induction {P : Graph α → Prop}
    (credit : ∀ g id edge reward, P g → P (g.credit id edge reward)) (path : List Step) (reward : α)
    {g : Graph α} (p : Position) (h : P g) : P (creditPath path reward g p).2.2.1 := by
  induction path generalizing reward g p with
  | nil => exact h
  | cons step path ih =>
    have hstep := credit g step.node step.edge reward h
    unfold creditPath
    split
    · exact h
    simp only
    split
    · exact hstep
    · exact ih _ _ hstep

/-! ## Iterations -/

variable [Confidence α]

/-- What an iteration from `p₀` leaves behind: a way back, which is empty if it succeeded. -/
structure Accounted (p₀ : Position) (r : Except Error Unit × Engine α σ × Position) : Prop where
  trail : Trail r.2.1.graph p₀ r.2.1.path r.2.2
  home : r.1 = .ok () → r.2.1.path = []
  mild : Mild r.1

omit [Score α] [RandomSource σ] [Confidence α] in
theorem Accounted.position_eq {p₀ : Position} {r : Except Error Unit × Engine α σ × Position}
    (h : Accounted p₀ r) (hok : r.1 = .ok ()) : r.2.2 = p₀ := by
  have htrail := h.trail
  rw [h.home hok] at htrail
  exact htrail.eq_of_nil

/-- An iteration ends at one of its stations: it meets a refused edge, fails to expand a leaf, or evaluates
a leaf and goes back. -/
theorem exists_iterate_eq (e : Engine α σ) (p : Position) (root : Nat) :
    ∃ t ∈ (Station.mk e p root).walk,
      (t.isLeaf = false ∧ ∃ edge err, (t.engine.graph.node t.node).edges[t.edge]? = some edge ∧
        t.position.refusal? edge.move = some err ∧
        e.iterate p root = (.error err, t.counted, t.position)) ∨
      (t.isLeaf = true ∧ ∃ err e', t.selected.evaluateLeaf t.position t.node = (.error err, e', t.position) ∧
        e.iterate p root = (.error err, e', t.position)) ∨
      (t.isLeaf = true ∧ ∃ reward e' credited,
        t.selected.evaluateLeaf t.position t.node = (.ok reward, e', t.position) ∧
        creditPath e'.path reward e'.graph t.position = credited ∧
        e.iterate p root = (credited.1, { e' with
          stats.iterations := e'.stats.iterations + 1
          path := credited.2.1
          graph := credited.2.2.1 }, credited.2.2.2)) := by
  obtain ⟨t, ht, hend⟩ := exists_descend_eq (Station.mk e p root)
  refine ⟨t, ht, ?_⟩
  unfold iterate
  rcases hend with ⟨hleaf, hdesc⟩ | ⟨hleaf, edge, err, hedge, herr, hdesc⟩
  · right
    simp only at hdesc
    rcases t.selected.evaluateLeaf_cases t.position t.node with
      ⟨_, reward, heq⟩ | ⟨_, err, e', _, heq⟩ | ⟨_, reward, e', _, heq⟩
    · exact .inr ⟨hleaf, reward, _, _, heq, rfl, by simp only [hdesc, heq]⟩
    · exact .inl ⟨hleaf, err, e', heq, by simp only [hdesc, heq]⟩
    · exact .inr ⟨hleaf, reward, e', _, heq, rfl, by simp only [hdesc, heq]⟩
  · left
    simp only at hdesc
    exact ⟨hleaf, edge, err, hedge, herr, by rw [hdesc]⟩

omit [Confidence α] in
/-- The trail that an evaluation at a station leaves. -/
theorem trail_evaluateLeaf {p₀ : Position} {t : Station α σ} (h : t.Afoot p₀) (hroom : t.HasRoom)
    {result : Except Error α} {e' : Engine α σ} {q : Position}
    (heq : t.selected.evaluateLeaf t.position t.node = (result, e', q)) :
    Trail e'.graph p₀ e'.path t.position ∧ Mild result := by
  obtain ⟨result', e'', heq', hpath, hgrow, hmild⟩ :=
    evaluateLeaf_keeps t.selected t.position t.node hroom
  rw [heq'] at heq
  cases heq
  refine ⟨?_, hmild⟩
  rw [hpath]
  exact h.mono hgrow

theorem accounted_iterate (e : Engine α σ) (p : Position) (root : Nat) (hpath : e.path = [])
    (hroom : ∀ s ∈ (Station.mk e p root).walk, s.HasRoom) : Accounted p (e.iterate p root) := by
  have hstart : (Station.mk e p root).Afoot p := Station.afoot_of_path_eq_nil hpath
  obtain ⟨t, ht, hend⟩ := exists_iterate_eq e p root
  have hafoot := hstart.walk hroom t ht
  rcases hend with
    ⟨_, edge, err, _, herr, hit⟩ | ⟨_, err, e', heq, hit⟩ | ⟨_, reward, e', _, heq, rfl, hit⟩
  · rw [hit]
    exact ⟨hafoot.mono (Station.extends_counted (hroom t ht)), nofun,
      mild_error (Position.isFatal_of_refusal? herr)⟩
  · rw [hit]
    obtain ⟨htrail, hmild⟩ := trail_evaluateLeaf hafoot (hroom t ht) heq
    exact ⟨htrail, nofun, mild_error (hmild err rfl)⟩
  · obtain ⟨htrail, _⟩ := trail_evaluateLeaf hafoot (hroom t ht) heq
    obtain ⟨g', _, hcredit⟩ := htrail.creditPath_eq reward
    rw [hit, hcredit]
    exact ⟨.nil, fun _ => rfl, mild_ok _⟩

/-- The stations of a number of iterations, up to the first that fails. -/
def iterationStations : Nat → Engine α σ → Position → (root : Nat) → List (Station α σ)
  | 0, _, _, _ => []
  | n + 1, e, p, root =>
    (Station.mk e p root).walk ++ match e.iterate p root with
      | (.error _, _, _) => []
      | (.ok (), e, p) => iterationStations n e p root

theorem accounted_iterateTimes (n : Nat) (e : Engine α σ) (p : Position) (root : Nat)
    (hpath : e.path = []) (hroom : ∀ s ∈ iterationStations n e p root, s.HasRoom) :
    Accounted p (iterateTimes n e p root) := by
  induction n generalizing e with
  | zero => exact ⟨by rw [iterateTimes, hpath]; exact .nil, fun _ => hpath, mild_ok _⟩
  | succ n ih =>
    unfold iterationStations at hroom
    have hone := accounted_iterate e p root hpath fun s hs => hroom s (List.mem_append_left _ hs)
    unfold iterateTimes
    split
    · rename_i hr
      rwa [hr] at hone
    · rename_i e' q hr
      rw [hr] at hone hroom
      -- a successful iteration is back where it began
      obtain rfl : q = p := hone.position_eq rfl
      exact ih e' (hone.home rfl) fun s hs => hroom s (List.mem_append_right _ hs)

/-! ## A whole search -/

/-- The engine at the root of a search, whose node has been added if there was none. -/
def atRoot (e : Engine α σ) (p : Position) : Engine α σ :=
  { e with graph := (e.graph.locate p.hash).2, path := [] }

def rootOf (e : Engine α σ) (p : Position) : Nat := (e.graph.locate p.hash).1

omit [Confidence α] in
theorem enterRoot_eq (e : Engine α σ) (p : Position) :
    e.enterRoot p = if ((e.atRoot p).graph.node (e.rootOf p)).isVisited then (.ok (e.rootOf p), e.atRoot p, p)
      else match (e.atRoot p).expand p (e.rootOf p) with
        | (.error err, e', q) => (.error err, e', q)
        | (.ok (), e', q) => (.ok (e.rootOf p), e', q) := rfl

omit [Confidence α] in
theorem enterRoot_cases (e : Engine α σ) (p : Position) :
    let visited := ((e.atRoot p).graph.node (e.rootOf p)).isVisited
    (visited = true ∧ e.enterRoot p = (.ok (e.rootOf p), e.atRoot p, p)) ∨
    (visited = false ∧ ∃ err e', (e.atRoot p).expand p (e.rootOf p) = (.error err, e', p) ∧
      e.enterRoot p = (.error err, e', p)) ∨
    (visited = false ∧ ∃ e', (e.atRoot p).expand p (e.rootOf p) = (.ok (), e', p) ∧
      e.enterRoot p = (.ok (e.rootOf p), e', p)) := by
  intro visited
  rw [enterRoot_eq]
  split
  · rename_i hv
    exact .inl ⟨hv, rfl⟩
  rename_i hv
  right
  rw [Bool.not_eq_true] at hv
  rcases (e.atRoot p).expand_cases p (e.rootOf p) with ⟨err, sampler, _, hexp⟩ | ⟨edges, sampler, _, hexp⟩
  · exact .inl ⟨hv, err, _, hexp, by rw [hexp]⟩
  · exact .inr ⟨hv, _, hexp, by rw [hexp]⟩

omit [Confidence α] in
theorem enterRoot_keeps (e : Engine α σ) (p : Position) :
    ∃ result e', e.enterRoot p = (result, e', p) ∧ e'.path = [] ∧ e'.config = e.config ∧
      e.graph.Extends e'.graph ∧ Mild result := by
  have hlocate : e.graph.Extends (e.atRoot p).graph := Graph.extends_locate e.graph p.hash
  rcases e.enterRoot_cases p with ⟨_, heq⟩ | ⟨hv, err, e', hexp, heq⟩ | ⟨hv, e', hexp, heq⟩
  · exact ⟨_, _, heq, rfl, rfl, hlocate, mild_ok _⟩
  · obtain ⟨_, hpath, hconfig, hgrow, hmild⟩ := expand_keeps hexp hv
    exact ⟨_, e', heq, hpath, hconfig, hlocate.trans hgrow, mild_error (hmild err rfl)⟩
  · obtain ⟨_, hpath, hconfig, hgrow, _⟩ := expand_keeps hexp hv
    exact ⟨_, e', heq, hpath, hconfig, hlocate.trans hgrow, mild_ok _⟩

/-- The stations of all descents of a search. -/
def stations (e : Engine α σ) (p : Position) : List (Station α σ) :=
  if p.isLost then []
  else
    match e.enterRoot p with
    | (.error _, _, _) => []
    | (.ok root, e, p) => iterationStations e.config.iterations e p root

/-- No visit counter is at its end when a search raises it. A descent raises the counter of every station,
and the one of a leaf is raised by its evaluation. -/
def NoWrap (e : Engine α σ) (p : Position) : Prop := ∀ s ∈ e.stations p, s.HasRoom

/-! ## When no counter wraps

A search passes at most `maxPly + 1` stations per iteration, so its counters are safe as long as none of them
comes within that distance of the end. -/

omit [RandomSource σ] in
/-- Along a descent the counters grow no faster than the game. -/
theorem visitsLe_walk {s : Station α σ} {n : Nat} (h : s.engine.graph.VisitsLe n) :
    ∀ t ∈ s.walk, t.engine.graph.VisitsLe (n + maxPly) := by
  -- a station is as far from the first as moves were played, and none is played in a full history
  have hdepth : ∀ t ∈ s.walk, s.position.depth ≤ t.position.depth ∧
      (t.position.depth ≤ maxPly ∨ t.position.depth = s.position.depth) ∧
      t.engine.graph.VisitsLe (n + (t.position.depth - s.position.depth)) := by
    refine Station.walk_induction s ⟨Nat.le_refl _, .inr rfl, by rwa [Nat.sub_self]⟩ ?_
    intro u _ t hnext hu
    obtain ⟨hle, hroom, hvisits⟩ := hu
    obtain ⟨edge, _, _, hm, rfl⟩ := Station.next?_eq_some hnext
    have hdeeper : (u.follow edge.move).position.depth = u.position.depth + 1 :=
      Position.depth_advance _ _
    have hlt : u.position.depth < maxPly := hm.room
    refine ⟨by omega, .inl (by omega), ?_⟩
    rw [hdeeper, Nat.sub_add_comm hle, ← Nat.add_assoc]
    exact (hvisits.visit u.node).locate _
  intro t ht
  obtain ⟨_, hroom, hvisits⟩ := hdepth t ht
  exact hvisits.mono (by omega)

omit [Confidence α] in
theorem visitsLe_expand (e : Engine α σ) (p : Position) (id : Nat) {n : Nat} (hn : 1 ≤ n)
    (h : e.graph.VisitsLe n) : (e.expand p id).2.1.graph.VisitsLe n := by
  rcases e.expand_cases p id with ⟨err, sampler, _, heq⟩ | ⟨edges, sampler, _, heq⟩
  · rw [heq]
    exact h
  · rw [heq]
    exact h.modify hn

omit [Confidence α] in
theorem visitsLe_evaluateLeaf (e : Engine α σ) (p : Position) (leaf : Nat) {n : Nat} (hn : 1 ≤ n)
    (h : e.graph.VisitsLe n) : (e.evaluateLeaf p leaf).2.1.graph.VisitsLe (n + 1) := by
  have hexp := (visitsLe_expand e p leaf hn h).mono (Nat.le_succ n)
  rcases e.evaluateLeaf_cases p leaf with
    ⟨_, reward, heq⟩ | ⟨_, err, e', hexp', heq⟩ | ⟨_, reward, e', hexp', heq⟩
  · rw [heq]
    exact h.visit leaf
  · rw [hexp'] at hexp
    rwa [heq]
  · rw [hexp'] at hexp
    rwa [heq]

theorem visitsLe_iterate (e : Engine α σ) (p : Position) (root : Nat) {n : Nat} (hn : 1 ≤ n)
    (h : e.graph.VisitsLe n) : (e.iterate p root).2.1.graph.VisitsLe (n + (maxPly + 1)) := by
  obtain ⟨t, ht, hend⟩ := exists_iterate_eq e p root
  have hvisits := visitsLe_walk (s := ⟨e, p, root⟩) h t ht
  have hleaf := visitsLe_evaluateLeaf t.selected t.position t.node (by omega) hvisits
  rcases hend with
    ⟨_, edge, err, _, _, hit⟩ | ⟨_, err, e', heq, hit⟩ | ⟨_, reward, e', _, heq, rfl, hit⟩
  · rw [hit]
    exact hvisits.visit t.node
  · rw [heq] at hleaf
    rwa [hit]
  · rw [heq] at hleaf
    rw [hit]
    refine creditPath_induction (P := fun g => g.VisitsLe (n + (maxPly + 1))) ?_ _ _ _ hleaf
    intro g id _ _ hg
    exact hg.modify (hg id)

theorem hasRoom_of_visitsLe (k : Nat) (e : Engine α σ) (p : Position) (root : Nat) {n : Nat} (hn : 1 ≤ n)
    (h : e.graph.VisitsLe n) (hk : n + k * (maxPly + 1) < UInt32.size) :
    ∀ s ∈ iterationStations k e p root, s.HasRoom := by
  induction k generalizing e p n with
  | zero => intro s hs; cases hs
  | succ k ih =>
    rw [Nat.add_mul, Nat.one_mul] at hk
    intro s hs
    unfold iterationStations at hs
    rcases List.mem_append.1 hs with hs | hs
    · have hvisits : s.visits.toNat ≤ _ := visitsLe_walk (s := ⟨e, p, root⟩) h s hs s.node
      unfold Station.HasRoom
      omega
    · have hvisits := visitsLe_iterate e p root hn h
      split at hs
      · cases hs
      · rename_i hr
        rw [hr] at hvisits
        exact ih _ _ (by omega) hvisits (by omega) s hs

/-- **Counters that are far from their end do not wrap.** -/
theorem noWrap_of_visitsLe (e : Engine α σ) (p : Position) {n : Nat} (hn : 1 ≤ n)
    (h : e.graph.VisitsLe n) (hk : n + e.config.iterations * (maxPly + 1) < UInt32.size) : e.NoWrap p := by
  have hlocate : (e.atRoot p).graph.VisitsLe n := h.locate p.hash
  have hexpand := visitsLe_expand (e.atRoot p) p (e.rootOf p) hn hlocate
  obtain ⟨result, e', heq, _, hconfig, _, _⟩ := e.enterRoot_keeps p
  have hvisits : e'.graph.VisitsLe n := by
    rcases e.enterRoot_cases p with ⟨_, heq'⟩ | ⟨_, err, e'', hexp, heq'⟩ | ⟨_, e'', hexp, heq'⟩
    · rw [heq] at heq'
      cases heq'
      exact hlocate
    · rw [heq] at heq'
      cases heq'
      rwa [hexp] at hexpand
    · rw [heq] at heq'
      cases heq'
      rwa [hexp] at hexpand
  unfold NoWrap stations
  split
  · exact nofun
  rw [heq]
  cases result with
  | error err => exact nofun
  | ok root => exact hasRoom_of_visitsLe _ e' p root hn hvisits (by rwa [hconfig])

omit [Score α] [RandomSource σ] [Confidence α] in
theorem mild_answer (e : Engine α σ) (root : Nat) (key : UInt64) : Mild (e.answer root key) := by
  unfold answer
  simp only
  split
  · exact mild_ok _
  · exact mild_error rfl

/-- **A search gives the position back.** For every graph, setting and stream and on every outcome the
position after a search equals the one before it, the path is empty, the way back is found without a
warning, and a failure is never one that ends the run. -/
theorem choose_restores (e : Engine α σ) (p : Position) (h : e.NoWrap p) :
    (e.choose p).2.2.2 = p ∧
    ((p.isLost = true → e.path = []) → (e.choose p).2.2.1.path = []) ∧
    (∀ line ∈ (e.choose p).2.1, line.level ≠ .warn) ∧
    ∀ err, (e.choose p).1 = .error err → err.isFatal = false := by
  unfold NoWrap stations at h
  unfold choose
  split
  · rename_i hlost
    exact ⟨rfl, fun hpath => hpath hlost, by simp, mild_error rfl⟩
  rename_i hlost
  rw [if_neg hlost] at h
  obtain ⟨result, e', hroot, hpath, _, _, hmild⟩ := e.enterRoot_keeps p
  rw [hroot] at h ⊢
  cases result with
  | error err =>
    exact ⟨rfl, fun _ => hpath, by simp, mild_error (hmild err rfl)⟩
  | ok root =>
    have hacc := accounted_iterateTimes e'.config.iterations e' p root hpath h
    simp only
    split
    · rename_i err e'' q hr
      rw [hr] at hacc
      have hback : abandonPath e''.graph e''.path q = ([], p) := hacc.trail.abandonPath_eq
      simp only [hback]
      exact ⟨trivial, fun _ => trivial, by simp, mild_error (hacc.mild err rfl)⟩
    · rename_i e'' q hr
      rw [hr] at hacc
      exact ⟨hacc.position_eq rfl, fun _ => hacc.home rfl, by simp [summaryLine, LogLine.debug],
        mild_answer _ root _⟩

/-- With keys that are all zero every position is at the one node of this graph, whose only move can be
played once. -/
theorem choose_restores_loop :
    let p := Position.startWith ⟨.replicate 64 0, .replicate 64 0, 0⟩
    let graph : Graph Float := ⟨#[⟨0, 7, #[⟨⟨⟨12⟩, ⟨20⟩⟩, 3, 2⟩]⟩], .ofList [(0, 0)]⟩
    let e : Engine Float ChaCha := .new .default (.ofSeed 0) graph
    e.NoWrap p ∧ (e.choose p).2.2.2 = p ∧ (e.choose p).2.2.1.path = [] := by
  intro p graph e
  have hvisits : graph.VisitsLe 7 := by
    intro id
    cases id with
    | zero => exact Nat.le_refl 7
    | succ id => exact Nat.zero_le 7
  have hwrap : e.NoWrap p := noWrap_of_visitsLe e p (by decide) hvisits (by decide)
  obtain ⟨hp, hpath, _⟩ := choose_restores e p hwrap
  exact ⟨hwrap, hp, hpath fun _ => rfl⟩

end Engine

end Breakthrough.Search
