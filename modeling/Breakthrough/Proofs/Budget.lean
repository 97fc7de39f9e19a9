import Breakthrough.Proofs.Conservation

/-!
# A search in instalments

The iterations of a search may be spent in several searches of the same position, one after the other: the second
of them goes on where the first has stopped (`choose_iterations_add`). It finds the node of the position, which
stays visited, and the engine differs from one in the middle of a longer search only in what no iteration looks
at: the number of iterations that it is set to, and the counters of searches and playouts, which are written down
when a search has ended. `Engine.tuned` changes just these.
-/

namespace Breakthrough.Search

variable {α σ : Type}

/-! ## The index -/

/-- Every place in the index is the place of a node. The nodes may have any keys. -/
def Graph.InRange (g : Graph α) : Prop := ∀ key id, g.find? key = some id → id < g.size

namespace Graph

/-- So it is in every graph that an engine has built. -/
theorem Indexed.inRange {g : Graph α} (h : g.Indexed) : g.InRange := fun key id hid => ((h key id).1 hid).1

theorem InRange.locate {g : Graph α} (h : g.InRange) (key : UInt64) :
    (g.locate key).1 < (g.locate key).2.size := by
  cases hfind : g.find? key with
  | some id =>
    rw [locate_of_find?_eq_some hfind]
    exact h key id hfind
  | none =>
    rw [size_locate_of_find?_eq_none hfind, locate_of_find?_eq_none hfind]
    exact Nat.lt_succ_self _

end Graph

namespace Engine

/-! ## What an iteration does not look at -/

/-- The engine with another number of iterations to make and other counts of searches and playouts. -/
def tuned (iterations searches rollouts : Nat) (e : Engine α σ) : Engine α σ :=
  { e with
    config.iterations := iterations
    stats.searches := searches
    stats.rollouts := rollouts }

/-- An outcome with the engine tuned. -/
def retuned {β : Type} (iterations searches rollouts : Nat) (x : Except Error β × Engine α σ × Position) :
    Except Error β × Engine α σ × Position :=
  (x.1, x.2.1.tuned iterations searches rollouts, x.2.2)

section Tuned

variable (k a b : Nat)

theorem graph_tuned (e : Engine α σ) : (e.tuned k a b).graph = e.graph := rfl

variable [Score α]

theorem descend_tuned [Confidence α] (s : Station α σ) :
    (s.engine.tuned k a b).descend s.position s.node = retuned k a b (s.engine.descend s.position s.node) := by
  -- the way down ends because the history fills up
  induction hroom : maxPly - s.position.depth using Nat.strong_induction_on generalizing s with
  | _ room ih =>
    let s' : Station α σ := ⟨s.engine.tuned k a b, s.position, s.node⟩
    cases hleaf : s.isLeaf with
    | true => rw [descend_of_isLeaf hleaf, descend_of_isLeaf (s := s') hleaf]; rfl
    | false =>
      obtain ⟨_, edge, hedge⟩ := Station.isLeaf_eq_false hleaf
      cases hm : s.position.refusal? edge.move with
      | none =>
        have hnext : s.next? = some (s.follow edge.move) := Station.next?_of_accepted hleaf hedge hm
        have hnext' : s'.next? = some (s'.follow edge.move) := Station.next?_of_accepted hleaf hedge hm
        rw [descend_of_next? hnext, descend_of_next? (s := s') hnext']
        exact ih _ (hroom ▸ Station.room_next?_lt hnext) (s.follow edge.move) rfl
      | some err =>
        rw [descend_of_refusal hleaf hedge hm, descend_of_refusal (s := s') hleaf hedge hm]
        rfl

variable [RandomSource σ]

theorem expand_tuned (e : Engine α σ) (p : Position) (id : Nat) :
    (e.tuned k a b).expand p id = retuned k a b (e.expand p id) := by
  unfold expand
  simp only [tuned]
  split
  · rfl
  · rfl

theorem evaluateLeaf_tuned (e : Engine α σ) (p : Position) (leaf : Nat) :
    (e.tuned k a b).evaluateLeaf p leaf = retuned k a b (e.evaluateLeaf p leaf) := by
  unfold evaluateLeaf
  rw [expand_tuned, graph_tuned]
  cases (e.graph.node leaf).isVisited with
  | true => rfl
  | false =>
    obtain ⟨result, e', q⟩ := e.expand p leaf
    cases result with
    | error err => rfl
    | ok u =>
      simp only [retuned, graph_tuned]
      cases (e'.graph.node leaf).edges[0]? with
      | none => rfl
      | some best => rfl

theorem enterRoot_tuned (e : Engine α σ) (p : Position) :
    (e.tuned k a b).enterRoot p = retuned k a b (e.enterRoot p) := by
  have hroot : (e.tuned k a b).rootOf p = e.rootOf p := rfl
  have hatRoot : (e.tuned k a b).atRoot p = (e.atRoot p).tuned k a b := rfl
  rw [enterRoot_eq, enterRoot_eq, hroot, hatRoot, expand_tuned, graph_tuned]
  cases ((e.atRoot p).graph.node (e.rootOf p)).isVisited with
  | true => rfl
  | false =>
    obtain ⟨result, e', q⟩ := (e.atRoot p).expand p (e.rootOf p)
    cases result with
    | error err => rfl
    | ok u => rfl

variable [Confidence α]

theorem iterate_tuned (e : Engine α σ) (p : Position) (root : Nat) :
    (e.tuned k a b).iterate p root = retuned k a b (e.iterate p root) := by
  unfold iterate
  rw [descend_tuned k a b ⟨e, p, root⟩]
  obtain ⟨result, e₁, q⟩ := e.descend p root
  cases result with
  | error err => rfl
  | ok leaf =>
    simp only [retuned]
    rw [evaluateLeaf_tuned]
    obtain ⟨result, e₂, q⟩ := e₁.evaluateLeaf q leaf
    cases result with
    | error err => rfl
    | ok reward => rfl

theorem iterateTimes_tuned (n : Nat) (e : Engine α σ) (p : Position) (root : Nat) :
    iterateTimes n (e.tuned k a b) p root = retuned k a b (iterateTimes n e p root) := by
  induction n generalizing e p with
  | zero => rfl
  | succ n ih =>
    unfold iterateTimes
    rw [iterate_tuned]
    obtain ⟨result, e', q⟩ := e.iterate p root
    cases result with
    | error err => rfl
    | ok u => exact ih e' q

end Tuned

variable [Score α] [Confidence α] [RandomSource σ] {e e₁ e₂ : Engine α σ} {p q : Position} {root : Nat}

/-! ## Iterations one after the other -/

theorem iterateTimes_add (m n : Nat) (e : Engine α σ) (p : Position) (root : Nat) :
    iterateTimes (m + n) e p root = match iterateTimes m e p root with
      | (.error err, e', q) => (.error err, e', q)
      | (.ok (), e', q) => iterateTimes n e' q root := by
  induction m generalizing e p with
  | zero => rw [Nat.zero_add, iterateTimes]
  | succ m ih =>
    rw [Nat.add_right_comm, iterateTimes, iterateTimes]
    obtain ⟨result, e', q⟩ := e.iterate p root
    cases result with
    | error err => rfl
    | ok u => exact ih e' q

theorem iterationStations_add (m n : Nat) (e : Engine α σ) (p : Position) (root : Nat) :
    iterationStations (m + n) e p root = iterationStations m e p root ++ match iterateTimes m e p root with
      | (.error _, _, _) => []
      | (.ok (), e', q) => iterationStations n e' q root := by
  induction m generalizing e p with
  | zero => rw [Nat.zero_add, iterateTimes, iterationStations, List.nil_append]
  | succ m ih =>
    rw [Nat.add_right_comm, iterationStations, iterationStations, iterateTimes, List.append_assoc]
    obtain ⟨result, e', q⟩ := e.iterate p root
    cases result with
    | error err => rfl
    | ok u => exact congrArg ((Station.mk e p root).walk ++ ·) (ih e' q)

/-- An iteration at a root without moves only counts a visit. -/
theorem iterate_of_isTerminal (hpath : e.path = []) (h : (e.graph.node root).isTerminal = true) (p : Position) :
    (e.iterate p root).1 = .ok () := by
  have hv := ((Node.isTerminal_iff _).1 h).1
  have hleaf : (Station.mk e p root).isLeaf = true := by simp [Station.isLeaf, h]
  rw [iterate, descend_of_isLeaf hleaf]
  simp only [evaluateLeaf, Station.selected, hv, if_true, hpath, creditPath]

/-- If an iteration succeeds on every graph with a property that growth keeps, any number of them do. -/
theorem iterateTimes_of_extends {P : Graph α → Prop} (hextends : ∀ {g g'}, g.Extends g' → P g → P g')
    (hiterate : ∀ {e : Engine α σ}, e.path = [] → P e.graph → (∀ s ∈ (Station.mk e p root).walk, s.HasRoom) →
      (e.iterate p root).1 = .ok ())
    (n : Nat) (hpath : e.path = []) (h : P e.graph) (hroom : ∀ s ∈ iterationStations n e p root, s.HasRoom) :
    (iterateTimes n e p root).1 = .ok () := by
  induction n generalizing e with
  | zero => rfl
  | succ n ih =>
    unfold iterationStations at hroom
    have hroom₁ := fun s hs => hroom s (List.mem_append_left _ hs)
    have hok := hiterate hpath h hroom₁
    have hacc := accounted_iterate e p root hpath hroom₁
    have hgrown := extends_iterate e p root hroom₁
    unfold iterateTimes
    generalize e.iterate p root = r at hok hacc hgrown hroom ⊢
    obtain ⟨result, e', q⟩ := r
    obtain rfl : result = .ok () := hok
    obtain rfl : q = p := hacc.position_eq rfl
    exact ih (hacc.home rfl) (hextends hgrown h) fun s hs => hroom s (List.mem_append_right _ hs)

theorem iterateTimes_of_isTerminal (n : Nat) (hpath : e.path = []) (h : (e.graph.node root).isTerminal = true)
    (hroom : ∀ s ∈ iterationStations n e p root, s.HasRoom) : (iterateTimes n e p root).1 = .ok () :=
  iterateTimes_of_extends (P := fun g => (g.node root).isTerminal = true)
    (fun hgrown => hgrown.isTerminal) (fun hpath h _ => iterate_of_isTerminal hpath h p) n hpath h hroom

omit [Score α] [Confidence α] [RandomSource σ] in
/-- There is no answer where there are no moves, and only there. -/
theorem answer_eq_error_iff {key : UInt64} {err : Error} :
    e.answer root key = .error err ↔ (e.graph.node root).moves = [] ∧ err = .notSearched key := by
  unfold answer
  simp only
  by_cases hmoves : (e.graph.node root).moves = []
  · have hedges := (Node.moves_eq_nil _).1 hmoves
    simp [hmoves, hedges, Node.mostVisited?, eq_comm]
  · obtain ⟨i, edge, hmost, hbest⟩ := (e.graph.node root).exists_isMostVisited hmoves
    simp [hmoves, hmost, hbest.1]

/-! ## The root -/

/-- The root of a search is in its place and visited, and the engine is at it. -/
structure Settled (p : Position) (root : Nat) (e : Engine α σ) : Prop where
  path : e.path = []
  place : e.graph.find? p.hash = some root
  visited : (e.graph.node root).isVisited = true

omit [Confidence α] in
theorem settled_enterRoot (hrange : e.graph.InRange) (h : e.enterRoot p = (.ok root, e₁, q)) :
    e₁.Settled p root := by
  have hlt : e.rootOf p < (e.atRoot p).graph.size := hrange.locate p.hash
  have hfind := e.find?_enterRoot p p.hash
  rw [h, Graph.find?_locate_self] at hfind
  rcases e.enterRoot_cases p with ⟨hv, heq⟩ | ⟨_, err, e', _, heq⟩ | ⟨hv, e', hexp, heq⟩
  · rw [h] at heq
    cases heq
    exact ⟨rfl, hfind, hv⟩
  · rw [h] at heq
    cases heq
  · rw [h] at heq
    cases heq
    obtain ⟨edges, _, hgraph⟩ := expand_ok hexp
    refine ⟨(expand_keeps hexp hv).2.1, hfind, ?_⟩
    rw [hgraph, Graph.node_modify, if_pos ⟨rfl, hlt⟩]
    rfl

namespace Settled

omit [Confidence α] in
/-- Whoever enters a settled root again finds nothing to do. -/
theorem enterRoot_eq (h : e.Settled p root) : e.enterRoot p = (.ok root, e, p) := by
  obtain ⟨config, graph, sampler, path, stats⟩ := e
  obtain rfl : path = [] := h.path
  have hlocate : graph.locate p.hash = (root, graph) := Graph.locate_of_find?_eq_some h.place
  simp only [enterRoot, hlocate]
  exact if_pos h.visited

/-- Iterations fail or come back to the root. -/
theorem iterateTimes_cases (h : e.Settled p root) (n : Nat)
    (hroom : ∀ s ∈ iterationStations n e p root, s.HasRoom) :
    (∃ err e₁ q, iterateTimes n e p root = (.error err, e₁, q)) ∨
    ∃ e₁, iterateTimes n e p root = (.ok (), e₁, p) ∧ e₁.Settled p root := by
  have hacc := accounted_iterateTimes n e p root h.path hroom
  have hgrown := extends_iterateTimes n e p root hroom
  generalize iterateTimes n e p root = r at hacc hgrown ⊢
  obtain ⟨result, e₁, q⟩ := r
  cases result with
  | error err => exact .inl ⟨err, e₁, q, rfl⟩
  | ok u =>
    obtain rfl : q = p := hacc.position_eq rfl
    exact .inr ⟨e₁, rfl, hacc.home rfl, hgrown.index _ _ h.place, (hgrown.node root h.visited).1⟩

/-- Where there is no answer, more iterations succeed. -/
theorem iterateTimes_of_answer_error {n : Nat} {key : UInt64} {err : Error} (h : e.Settled p root)
    (hroom : ∀ s ∈ iterationStations n e p root, s.HasRoom) (hanswer : e.answer root key = .error err) :
    (iterateTimes n e p root).1 = .ok () :=
  iterateTimes_of_isTerminal n h.path
    ((Node.isTerminal_iff _).2 ⟨h.visited, (answer_eq_error_iff.1 hanswer).1⟩) hroom

/-- More iterations do not make an answer, nor do they lose one. -/
theorem answer_iterateTimes {n : Nat} (h : e.Settled p root)
    (hroom : ∀ s ∈ iterationStations n e p root, s.HasRoom) (key : UInt64) (err : Error) :
    (iterateTimes n e p root).2.1.answer root key = .error err ↔ e.answer root key = .error err := by
  obtain ⟨_, _, hmoves⟩ := (extends_iterateTimes n e p root hroom).node root h.visited
  rw [answer_eq_error_iff, answer_eq_error_iff, hmoves]

end Settled

/-! ## Searches -/

/-- A search is refused before its first iteration, or iterates from a settled root. -/
theorem refused_or_settled (hrange : e.graph.InRange) (hwrap : e.NoWrap p) :
    (p.isLost = true ∨ ∃ err e₁, e.enterRoot p = (.error err, e₁, p)) ∨
    ∃ root e₁, p.isLost = false ∧ e.enterRoot p = (.ok root, e₁, p) ∧ e₁.Settled p root ∧
      ∀ s ∈ iterationStations e.config.iterations e₁ p root, s.HasRoom := by
  obtain ⟨result, e₁, hroot, _, hconfig, _, _⟩ := e.enterRoot_keeps p
  cases hlost : p.isLost with
  | true => exact .inl (.inl rfl)
  | false =>
    cases result with
    | error err => exact .inl (.inr ⟨err, e₁, hroot⟩)
    | ok root =>
      rw [NoWrap, stations, hlost, if_neg Bool.false_ne_true, hroot] at hwrap
      exact .inr ⟨root, e₁, rfl, hroot, settled_enterRoot hrange hroot, hconfig ▸ hwrap⟩

theorem choose_of_iterateTimes (hlost : p.isLost = false) (hroot : e.enterRoot p = (.ok root, e₁, p))
    (htimes : iterateTimes e₁.config.iterations e₁ p root = (.ok (), e₂, q)) :
    (e.choose p).1 = e₂.answer root p.hash ∧
    (e.choose p).2.2 = (e₂.tuned e₂.config.iterations (e₂.stats.searches + 1) e₂.sampler.count, q) := by
  simp only [choose, hlost, hroot, htimes, Bool.false_eq_true, if_false]
  exact ⟨rfl, rfl⟩

theorem choose_of_iterateTimes_error {err : Error} (hlost : p.isLost = false)
    (hroot : e.enterRoot p = (.ok root, e₁, p))
    (htimes : iterateTimes e₁.config.iterations e₁ p root = (.error err, e₂, q)) :
    (e.choose p).1 = .error err := by
  simp only [choose, hlost, hroot, htimes, Bool.false_eq_true, if_false]

section Choose

variable (k a b : Nat)

/-- What a search that is set to `k` iterations gives if they succeed. -/
theorem choose_tuned_of_ok (hlost : p.isLost = false) (hroot : e.enterRoot p = (.ok root, e₁, p))
    (htimes : iterateTimes k e₁ p root = (.ok (), e₂, q)) :
    ((e.tuned k a b).choose p).1 = e₂.answer root p.hash ∧
    ((e.tuned k a b).choose p).2.2 = (e₂.tuned k (a + 1) e₂.sampler.count, q) := by
  have hroot' := enterRoot_tuned k a b e p
  have htimes' := iterateTimes_tuned k a b k e₁ p root
  rw [hroot] at hroot'
  rw [htimes] at htimes'
  exact choose_of_iterateTimes hlost hroot' htimes'

theorem choose_tuned_of_error {err : Error} (hlost : p.isLost = false)
    (hroot : e.enterRoot p = (.ok root, e₁, p)) (htimes : iterateTimes k e₁ p root = (.error err, e₂, q)) :
    ((e.tuned k a b).choose p).1 = .error err := by
  have hroot' := enterRoot_tuned k a b e p
  have htimes' := iterateTimes_tuned k a b k e₁ p root
  rw [hroot] at hroot'
  rw [htimes] at htimes'
  exact choose_of_iterateTimes_error hlost hroot' htimes'

/-- A search that is refused before its first iteration fails whatever the number of iterations is. -/
theorem choose_tuned_of_refused (h : p.isLost = true ∨ ∃ err e₁, e.enterRoot p = (.error err, e₁, p)) :
    ∃ err, (e.choose p).1 = .error err ∧ ((e.tuned k a b).choose p).1 = .error err := by
  have hroot' := enterRoot_tuned k a b e p
  unfold choose
  cases hlost : p.isLost with
  | true => exact ⟨_, rfl, rfl⟩
  | false =>
    obtain hlost' | ⟨err, e₁, hroot⟩ := h
    · rw [hlost] at hlost'
      cases hlost'
    · rw [hroot', hroot]
      exact ⟨err, rfl, rfl⟩

end Choose

/-- A search of `m + n` iterations fails, with the error of a search of `m` iterations if that fails, or it goes on
where the other has ended. -/
theorem choose_add_cases (e : Engine α σ) (p : Position) (m n a b : Nat) (hrange : e.graph.InRange)
    (hwrap : NoWrap (e.tuned (m + n) a b) p) :
    let whole := (e.tuned (m + n) a b).choose p
    let first := (e.tuned m a b).choose p
    (∃ err, whole.1 = .error err ∧ ∀ err', first.1 = .error err' → err' = err) ∨
    ∃ root e₁ e₂, p.isLost = false ∧ e₁.Settled p root ∧ iterateTimes n e₁ p root = (.ok (), e₂, p) ∧
      (∀ s ∈ iterationStations n e₁ p root, s.HasRoom) ∧
      (first.1 = e₁.answer root p.hash ∧ first.2.2 = (e₁.tuned m (a + 1) e₁.sampler.count, p)) ∧
      whole.1 = e₂.answer root p.hash ∧ whole.2.2 = (e₂.tuned (m + n) (a + 1) e₂.sampler.count, p) := by
  intro whole first
  let e₀ := e.tuned (m + n) a b
  rcases refused_or_settled (e := e₀) hrange hwrap with hrefused | ⟨root, e', hlost, hroot, hsettled, hroom⟩
  · obtain ⟨err, hwhole, hfirst⟩ : ∃ err, whole.1 = .error err ∧ first.1 = .error err :=
      choose_tuned_of_refused m a b hrefused
    exact .inl ⟨err, hwhole, fun err' h => by cases hfirst.symm.trans h; rfl⟩
  have hadd := iterateTimes_add m n e' p root
  change ∀ s ∈ iterationStations (m + n) e' p root, s.HasRoom at hroom
  rw [iterationStations_add, List.forall_mem_append] at hroom
  rcases hsettled.iterateTimes_cases m hroom.1 with ⟨err, e₁, q, htimes⟩ | ⟨e₁, htimes, hsettled₁⟩
  · rw [htimes] at hadd
    have hfirst : first.1 = .error err := choose_tuned_of_error (e := e₀) m a b hlost hroot htimes
    exact .inl ⟨err, choose_tuned_of_error (e := e₀) (m + n) a b hlost hroot hadd,
      fun err' h => by cases hfirst.symm.trans h; rfl⟩
  rw [htimes] at hadd hroom
  have hfirst : first.1 = e₁.answer root p.hash ∧ first.2.2 = (e₁.tuned m (a + 1) e₁.sampler.count, p) :=
    choose_tuned_of_ok (e := e₀) m a b hlost hroot htimes
  rcases hsettled₁.iterateTimes_cases n hroom.2 with ⟨err, e₂, q, htimes₂⟩ | ⟨e₂, htimes₂, _⟩
  · refine .inl ⟨err, choose_tuned_of_error (e := e₀) (m + n) a b hlost hroot (hadd.trans htimes₂), ?_⟩
    intro err' h
    have hok := hsettled₁.iterateTimes_of_answer_error hroom.2 (hfirst.1.symm.trans h)
    rw [htimes₂] at hok
    cases hok
  · exact .inr ⟨root, e₁, e₂, hlost, hsettled₁, htimes₂, hroom.2, hfirst,
      choose_tuned_of_ok (e := e₀) (m + n) a b hlost hroot (hadd.trans htimes₂)⟩

/-! ## Iterations that can be followed -/

/-- A graph of two nodes: the only move from the position `p` leads to a successor with these edges. -/
def linked (p : Position) (m : Move) (edges : Array (Edge Float)) : Graph Float where
  nodes := #[⟨p.hash, 2, #[⟨m, 1, 0.25⟩]⟩, ⟨(p.advance m).hash, 1, edges⟩]
  index := ((∅ : Std.HashMap UInt64 Nat).insert p.hash 0).insert (p.advance m).hash 1

section Linked

variable (p : Position) (m : Move) (edges : Array (Edge Float))

theorem find?_linked (k : UInt64) : (linked p m edges).find? k =
    if (p.advance m).hash = k then some 1 else if p.hash = k then some 0 else none := by
  simp only [linked, Graph.find?, Std.HashMap.getElem?_insert, beq_iff_eq, Std.HashMap.getElem?_empty]

theorem inRange_linked : (linked p m edges).InRange := by
  intro key id hid
  rw [find?_linked] at hid
  split at hid
  · cases hid
    exact Nat.lt_succ_self 1
  · split at hid
    · cases hid
      exact Nat.zero_lt_succ 1
    · cases hid

theorem visitsLe_linked : (linked p m edges).VisitsLe 2 := by
  intro id
  match id with
  | 0 => exact Nat.le_refl 2
  | 1 => exact Nat.le_succ 1
  | id + 2 => exact Nat.zero_le 2

end Linked

/-- The root has the one move `m`, which leads to a visited node without moves. -/
structure DeadEnd (p : Position) (m : Move) (root leaf : Nat) (g : Graph α) : Prop where
  visited : (g.node root).isVisited = true
  moves : (g.node root).moves = [m]
  place : g.find? (p.advance m).hash = some leaf
  terminal : (g.node leaf).isTerminal = true

namespace DeadEnd

variable {m : Move} {leaf : Nat}

omit [Score α] [Confidence α] [RandomSource σ] in
theorem mono {g g' : Graph α} (h : DeadEnd p m root leaf g) (hgrown : g.Extends g') : DeadEnd p m root leaf g' := by
  obtain ⟨hv, _, hmoves⟩ := hgrown.node root h.visited
  exact ⟨hv, hmoves.trans h.moves, hgrown.index _ _ h.place, hgrown.isTerminal h.terminal⟩

/-- An iteration plays the move, meets a leaf and comes back. -/
theorem iterate (h : DeadEnd p m root leaf e.graph) (hm : p.refusal? m = none) (hpath : e.path = [])
    (hroom : ∀ s ∈ (Station.mk e p root).walk, s.HasRoom) : (e.iterate p root).1 = .ok () := by
  obtain ⟨edge, hlist, rfl⟩ := List.map_eq_singleton_iff.1 h.moves
  have hedges : (e.graph.node root).edges = #[edge] := Array.toList_inj.1 hlist
  let t : Station α σ := ⟨{ e with graph := e.graph.modify root Node.visit, path := ⟨root, 0⟩ :: e.path },
    p.advance edge.move, leaf⟩
  have hnext : (Station.mk e p root).next? = some t :=
    Station.next?_of_single h.visited hedges hm (Graph.locate_of_find?_eq_some h.place)
  have hterminal : (t.engine.graph.node leaf).isTerminal = true :=
    (Station.extends_counted (hroom _ (Station.mem_walk_self _))).isTerminal h.terminal
  have hleaf : t.isLeaf = true := by rw [Station.isLeaf, hterminal, Bool.or_true]
  have ht := Station.mem_walk_of_next? (Station.mem_walk_self _) hnext
  have hafoot : t.Afoot p := (Station.afoot_of_path_eq_nil hpath).walk hroom t ht
  obtain ⟨reward, e₁, heval⟩ : ∃ reward e₁,
      t.selected.evaluateLeaf t.position t.node = (.ok reward, e₁, t.position) := by
    have hv : (t.selected.graph.node t.node).isVisited = true := ((Node.isTerminal_iff _).1 hterminal).1
    rw [evaluateLeaf, if_pos hv]
    exact ⟨_, _, rfl⟩
  obtain ⟨g', _, hcredit⟩ := (trail_evaluateLeaf hafoot (hroom t ht) heval).1.creditPath_eq reward
  rw [Engine.iterate, descend_of_next? hnext, descend_of_isLeaf hleaf]
  simp only [heval, hcredit]

/-- So a search of any number of iterations succeeds. -/
theorem choose (h : DeadEnd p m root leaf e.graph) (hsettled : e.Settled p root) (hlost : p.isLost = false)
    (hm : p.refusal? m = none) (hwrap : e.NoWrap p) : ∃ answer, (e.choose p).1 = .ok answer := by
  have hroot := hsettled.enterRoot_eq
  rw [NoWrap, stations, hlost, if_neg Bool.false_ne_true, hroot] at hwrap
  have hok : (iterateTimes e.config.iterations e p root).1 = .ok () :=
    iterateTimes_of_extends (fun hgrown h => h.mono hgrown) (fun hpath h => h.iterate hm hpath) _ hsettled.path h hwrap
  rcases hsettled.iterateTimes_cases e.config.iterations hwrap with ⟨err, e₁, q, htimes⟩ | ⟨e₁, htimes, _⟩
  · rw [htimes] at hok
    cases hok
  have hanswer := hsettled.answer_iterateTimes hwrap p.hash
  rw [htimes] at hanswer
  rw [(choose_of_iterateTimes hlost hroot htimes).1]
  cases hr : e₁.answer root p.hash with
  | ok answer => exact ⟨answer, rfl⟩
  | error err =>
    have hmoves := (answer_eq_error_iff.1 ((hanswer err).1 hr)).1
    rw [h.moves] at hmoves
    cases hmoves

end DeadEnd

/-- **The iterations of a search may be spent in two searches.** If the places in the index are places of nodes and
no visit counter wraps in a search of `m + n` iterations, then

* if that search succeeds, so do a search of `m` iterations and after it one of `n` iterations of the same
  position, which gives the same answer and leaves the same engine, but for its settings and one more search;
* if the search of `m` iterations fails, so does that of `m + n`, with the same error. -/
theorem choose_iterations_add (e : Engine α σ) (p : Position) (m n : Nat) (hrange : e.graph.InRange)
    (hwrap : NoWrap { e with config.iterations := m + n } p) :
    let whole := choose { e with config.iterations := m + n } p
    let first := choose { e with config.iterations := m } p
    let second := choose { first.2.2.1 with config.iterations := n } first.2.2.2
    (∀ answer, whole.1 = .ok answer →
      (∃ answer', first.1 = .ok answer') ∧ first.2.2.2 = p ∧ second.1 = .ok answer ∧ second.2.2.2 = p ∧
      second.2.2.1 = { whole.2.2.1 with
        config.iterations := n
        stats.searches := whole.2.2.1.stats.searches + 1 }) ∧
    ∀ err, first.1 = .error err → whole.1 = .error err := by
  intro whole first second
  let a := e.stats.searches
  rcases choose_add_cases e p m n a e.stats.rollouts hrange hwrap with
    ⟨err, hwhole, hfirst⟩ | ⟨root, e₁, e₂, hlost, hsettled, htimes, hroom, hfirst, hwhole⟩
  · refine ⟨fun answer h => absurd (hwhole.symm.trans h) (by simp), fun err' h => ?_⟩
    rw [hfirst err' h]
    exact hwhole
  obtain ⟨hanswer₁, hleft₁⟩ : first.1 = e₁.answer root p.hash ∧
    first.2.2 = (e₁.tuned m (a + 1) e₁.sampler.count, p) := hfirst
  obtain ⟨hanswer, hleft⟩ : whole.1 = e₂.answer root p.hash ∧
    whole.2.2 = (e₂.tuned (m + n) (a + 1) e₂.sampler.count, p) := hwhole
  -- the second search starts from the engine that the first has left
  have hsecond : second = (e₁.tuned n (a + 1) e₁.sampler.count).choose p := by
    simp only [second, hleft₁]
    rfl
  obtain ⟨hanswer₂, hleft₂⟩ :=
    choose_tuned_of_ok n (a + 1) e₁.sampler.count hlost hsettled.enterRoot_eq htimes
  have hsame := hsettled.answer_iterateTimes hroom p.hash
  rw [htimes] at hsame
  rw [hsecond, hanswer₂, hleft₂, hleft₁, hanswer, hanswer₁, hleft]
  refine ⟨fun answer h => ⟨?_, rfl, h, rfl, rfl⟩, fun err => (hsame err).2⟩
  cases hr : e₁.answer root p.hash with
  | ok answer' => exact ⟨answer', rfl⟩
  | error err =>
    rw [(hsame err).2 hr] at h
    cases h

/-- Two iterations through a graph of two nodes, and the same in two searches of one. -/
theorem choose_iterations_add_dead_end :
    let p := Position.bitStart
    let e : Engine Float ChaCha := .new .default (.ofSeed 0) (linked p ⟨⟨12⟩, ⟨20⟩⟩ #[])
    let whole := choose { e with config.iterations := 1 + 1 } p
    let first := choose { e with config.iterations := 1 } p
    let second := choose { first.2.2.1 with config.iterations := 1 } first.2.2.2
    ∃ answer, whole.1 = .ok answer ∧ second.1 = .ok answer ∧ second.2.2.1.graph = whole.2.2.1.graph ∧
      second.2.2.1.stats.searches = whole.2.2.1.stats.searches + 1 := by
  intro p e
  let m : Move := ⟨⟨12⟩, ⟨20⟩⟩
  let e₂ : Engine Float ChaCha := { e with config.iterations := 1 + 1 }
  have hother : (p.advance m).hash ≠ p.hash := Position.hash_advance_bitStart (by decide +kernel)
  have hwrap : e₂.NoWrap p := noWrap_of_visitsLe e₂ p (by decide) (visitsLe_linked _ _ _) (by decide)
  have hsettled : e₂.Settled p 0 := ⟨rfl, (find?_linked p m #[] p.hash).trans (by rw [if_neg hother, if_pos rfl]), rfl⟩
  have hend : DeadEnd p m 0 1 e₂.graph := ⟨rfl, rfl, (find?_linked p m #[] _).trans (if_pos rfl), rfl⟩
  obtain ⟨answer, hanswer⟩ := hend.choose hsettled (by decide +kernel) (by decide +kernel) hwrap
  have hadd := choose_iterations_add e p 1 1 (inRange_linked _ _ _) hwrap
  extract_lets at hadd ⊢
  obtain ⟨_, _, hsecond, _, hengine⟩ := hadd.1 answer hanswer
  rw [hengine]
  exact ⟨answer, hanswer, hsecond, rfl, rfl⟩

end Engine

end Breakthrough.Search
