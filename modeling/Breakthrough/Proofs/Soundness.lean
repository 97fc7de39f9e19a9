import Breakthrough.Proofs.Games
import Breakthrough.Proofs.Growth

/-!
# What a searched graph knows

Nodes are found by hash alone and are shared by all searches of an engine. As long as the hashes tell the
positions apart that the searches meet, a visited node has exactly the legal moves of every position with its
hash (`Graph.Sound`). Then no move of the graph is ever refused, so that every search in a game succeeds and
answers with a legal move.
-/

namespace Breakthrough

namespace Position

variable {p q : Position}

/-- The legal moves depend on the board and the side to move only. -/
theorem Consistent.legalMoves_eq (hp : p.Consistent) (hq : q.Consistent) (hboard : p.board = q.board)
    (hside : p.side = q.side) : p.legalMoves = q.legalMoves := by
  rw [legalMoves, legalMoves, hp.moves_eq_mailbox, hq.moves_eq_mailbox, hp.isLost_eq_mailbox,
    hq.isLost_eq_mailbox, hboard, hside]

/-- Different boards, or one board with different sides to move, have different hashes in this set. -/
def CollisionFree (S : Position → Prop) : Prop :=
  ∀ p q, S p → S q → p.hash = q.hash → p.board = q.board ∧ p.side = q.side

end Position

namespace Search

variable {α σ : Type}

/-! ## Sound graphs -/

/-- The node has the legal moves of a position of the set with its hash. -/
def Node.Describes (S : Position → Prop) (n : Node α) : Prop :=
  ∃ q, S q ∧ q.Consistent ∧ q.hash = n.key ∧ n.moves.Perm q.legalMoves

/-- The index leads to nodes of the graph, and visited nodes describe positions of the set. -/
structure Graph.Sound (S : Position → Prop) (g : Graph α) : Prop where
  index : ∀ key id, g.find? key = some id → id < g.size ∧ (g.node id).key = key
  nodes : ∀ id, (g.node id).isVisited = true → (g.node id).Describes S

namespace Graph

variable {S : Position → Prop} {g : Graph α}

theorem sound_empty : (empty : Graph α).Sound S := by
  constructor
  · intro key id h
    simp [find?, empty] at h
  · intro id h
    cases h

theorem Sound.mono {S' : Position → Prop} (h : g.Sound S) (hsub : ∀ q, S q → S' q) : g.Sound S' := by
  refine ⟨h.index, fun id hv => ?_⟩
  obtain ⟨q, hq, hdescribes⟩ := h.nodes id hv
  exact ⟨q, hsub q hq, hdescribes⟩

theorem Sound.modify {id : Nat} {f : Node α → Node α} (h : g.Sound S)
    (hkey : (f (g.node id)).key = (g.node id).key)
    (hnode : (f (g.node id)).isVisited = true → (f (g.node id)).Describes S) :
    (g.modify id f).Sound S := by
  constructor
  · intro key j hj
    obtain ⟨hlt, hk⟩ := h.index key j hj
    refine ⟨by rwa [size_modify], ?_⟩
    rw [node_modify]
    split
    · rename_i hid
      rw [← hid.1] at hk ⊢
      rw [hkey, hk]
    · exact hk
  · intro j hj
    rw [node_modify] at hj ⊢
    split at hj
    · rename_i hid
      rw [if_pos hid, ← hid.1]
      rw [← hid.1] at hj
      exact hnode hj
    · rename_i hid
      rw [if_neg hid]
      exact h.nodes j hj

theorem size_le_locate (g : Graph α) (key : UInt64) : g.size ≤ (g.locate key).2.size := by
  unfold locate
  split
  · exact Nat.le_refl _
  · simp [size]

/-- The place that is located is one of the graph and has the key. -/
theorem Sound.locate_spec (h : g.Sound S) (key : UInt64) :
    (g.locate key).1 < (g.locate key).2.size ∧ ((g.locate key).2.node (g.locate key).1).key = key := by
  cases hfind : g.find? key with
  | some id =>
    rw [locate_of_find?_eq_some hfind]
    exact h.index key id hfind
  | none =>
    have hplace : (g.locate key).1 = g.size := by rw [locate_of_find?_eq_none hfind]
    rw [node_locate, hplace, if_pos ⟨hfind, rfl⟩, size_locate_of_find?_eq_none hfind]
    exact ⟨Nat.lt_succ_self _, rfl⟩

theorem Sound.locate (h : g.Sound S) (key : UInt64) : (g.locate key).2.Sound S := by
  constructor
  · intro k id hk
    rw [find?_locate] at hk
    split at hk
    · rename_i hkey
      cases hk
      rw [← hkey]
      exact h.locate_spec key
    · obtain ⟨hlt, hid⟩ := h.index k id hk
      rw [node_locate, if_neg fun hnew => absurd hnew.2 (Nat.ne_of_lt hlt)]
      exact ⟨Nat.lt_of_lt_of_le hlt (size_le_locate g key), hid⟩
  · intro id hid
    rw [node_locate] at hid ⊢
    split at hid
    · cases hid
    · rename_i hnew
      rw [if_neg hnew]
      exact h.nodes id hid

theorem Sound.visit {id : Nat} (h : g.Sound S) (hv : (g.node id).isVisited = true) :
    (g.modify id Node.visit).Sound S :=
  h.modify rfl fun _ => h.nodes id hv

theorem Sound.credit [Score α] (h : g.Sound S) (id edge : Nat) (reward : α) :
    (g.credit id edge reward).Sound S := by
  refine h.modify rfl fun hv => ?_
  obtain ⟨q, hq, hcons, hkey, hperm⟩ := h.nodes id hv
  exact ⟨q, hq, hcons, hkey, by rwa [moves_credit]⟩

end Graph

/-! ## Sound descents -/

variable [Score α]

/-- The station's node stands for its position, in a sound graph and in a game. -/
structure Station.Sound (S : Position → Prop) (s : Station α σ) : Prop where
  graph : s.engine.graph.Sound S
  met : S s.position
  game : s.position.Game
  key : (s.engine.graph.node s.node).key = s.position.hash

namespace Station

variable {S : Position → Prop} {s t : Station α σ}

omit [Score α] in
/-- A visited node has the legal moves of the position. -/
theorem Sound.moves_perm (hs : s.Sound S) (hfree : Position.CollisionFree S)
    (hv : (s.engine.graph.node s.node).isVisited = true) :
    (s.engine.graph.node s.node).moves.Perm s.position.legalMoves := by
  obtain ⟨q, hq, hcons, hkey, hperm⟩ := hs.graph.nodes s.node hv
  obtain ⟨hboard, hside⟩ := hfree q s.position hq hs.met (hkey.trans hs.key)
  rwa [hcons.legalMoves_eq hs.game.consistent hboard hside] at hperm

variable [Confidence α]

/-- The edge that a descent follows is a legal move. -/
theorem Sound.isLegal_edge (hs : s.Sound S) (hfree : Position.CollisionFree S) {edge : Edge α}
    (hleaf : s.isLeaf = false) (hedge : (s.engine.graph.node s.node).edges[s.edge]? = some edge) :
    s.position.isLegal edge.move = true := by
  have hmove : (s.engine.graph.node s.node).moves[s.edge]? = some edge.move := by
    rw [Node.getElem?_moves, hedge, Option.map_some]
  have hperm := hs.moves_perm hfree (isLeaf_eq_false hleaf).1
  exact (hs.game.consistent.mem_legalMoves _).1 (hperm.mem_iff.1 (List.mem_of_getElem? hmove))

theorem Sound.next? (hs : s.Sound S) (hfree : Position.CollisionFree S) (h : s.next? = some t)
    (hmet : S t.position) : t.Sound S := by
  obtain ⟨edge, hleaf, hedge, _, rfl⟩ := next?_eq_some h
  have hcounted := hs.graph.visit (isLeaf_eq_false hleaf).1
  exact ⟨hcounted.locate _, hmet, hs.game.step (hs.isLegal_edge hfree hleaf hedge),
    (hcounted.locate_spec _).2⟩

theorem Sound.walk (hs : s.Sound S) (hfree : Position.CollisionFree S)
    (hmet : ∀ t ∈ s.walk, S t.position) : ∀ t ∈ s.walk, t.Sound S :=
  walk_induction s hs fun _ hu t hnext hu' =>
    hu'.next? hfree hnext (hmet t (mem_walk_of_next? hu hnext))

/-- So a move of the graph is never refused. -/
theorem Sound.refusal?_edge (hs : s.Sound S) (hfree : Position.CollisionFree S) {edge : Edge α}
    (hleaf : s.isLeaf = false) (hedge : (s.engine.graph.node s.node).edges[s.edge]? = some edge) :
    s.position.refusal? edge.move = none :=
  (Position.refusal?_eq_none_iff _ _).2 (hs.game.accepts (hs.isLegal_edge hfree hleaf hedge))

end Station

/-! ## Searches that cannot fail -/

section Expansion

variable [RandomSource σ] {S : Position → Prop} {p : Position}

theorem Sampler.sample_of_game (s : Sampler σ) (h : p.Game) {m : Move} (hm : p.isLegal m = true) (n : Nat) :
    ∃ value s', (s.sample p m n : Except Error α × Sampler σ × Position) = (.ok value, s', p) := by
  rcases s.sample_cases (α := α) p m n with ⟨err, s', _, hs⟩ | hok
  · exfalso
    unfold sample at hs
    split at hs
    · cases hs
    obtain ⟨total, htotal⟩ := countWins_of_game h hm n 0 s.source
    split at hs
    · rename_i hr
      rw [hr] at htotal
      cases htotal
    · cases hs
  · exact hok

namespace Engine

theorem seedEdges_of_game (samples : Nat) (moves : List Move) (s : Sampler σ) (h : p.Game)
    (hmoves : ∀ m ∈ moves, p.isLegal m = true) :
    ∃ (edges : List (Edge α)) (s' : Sampler σ), seedEdges samples moves s p = (.ok edges, s', p) := by
  induction moves generalizing s with
  | nil => exact ⟨[], s, rfl⟩
  | cons m moves ih =>
    obtain ⟨value, s', hs⟩ := s.sample_of_game (α := α) h (hmoves m List.mem_cons_self) samples
    obtain ⟨edges, s'', hs'⟩ := ih s' fun m hm => hmoves m (List.mem_cons_of_mem _ hm)
    exact ⟨⟨m, 0, value⟩ :: edges, s'', by simp only [seedEdges, hs, hs']⟩

/-- An expansion in a game succeeds, and the node then describes the position. -/
theorem expand_of_game (e : Engine α σ) (id : Nat) (h : p.Game) (hmet : S p) (hsound : e.graph.Sound S)
    (hkey : (e.graph.node id).key = p.hash) :
    ∃ e', e.expand p id = (.ok (), e', p) ∧ e'.graph.Sound S ∧
      (id < e.graph.size → (e'.graph.node id).isVisited = true) := by
  rcases e.expand_cases p id with ⟨err, sampler, _, heq⟩ | ⟨edges, sampler, hperm, heq⟩
  · exfalso
    have hlegal : ∀ m ∈ p.legalMoves, p.isLegal m = true :=
      fun m hm => (h.consistent.mem_legalMoves m).1 hm
    obtain ⟨edges, s', hs⟩ := seedEdges_of_game (α := α) e.config.samples p.legalMoves e.sampler h hlegal
    unfold Position.legalMoves at hs
    simp only [expand, hs, Prod.mk.injEq, reduceCtorEq, false_and] at heq
  · refine ⟨_, heq, ?_, ?_⟩
    · exact hsound.modify rfl fun _ => ⟨p, hmet, h.consistent, hkey.symm, hperm⟩
    · intro hlt
      rw [Graph.node_modify, if_pos ⟨rfl, hlt⟩]
      rfl

end Engine

theorem Station.Sound.evaluateLeaf {t : Station α σ} (ht : t.Sound S) :
    ∃ reward e', t.selected.evaluateLeaf t.position t.node = (.ok reward, e', t.position) ∧
      e'.graph.Sound S := by
  obtain ⟨e₁, hexp, hsound, _⟩ := t.selected.expand_of_game t.node ht.game ht.met ht.graph ht.key
  rcases t.selected.evaluateLeaf_cases t.position t.node with
    ⟨hv, reward, heq⟩ | ⟨_, err, e', hexp', _⟩ | ⟨_, reward, e', hexp', heq⟩
  · exact ⟨reward, _, heq, ht.graph.visit hv⟩
  · rw [hexp] at hexp'
    cases hexp'
  · rw [hexp] at hexp'
    cases hexp'
    exact ⟨reward, e₁, heq, hsound⟩

end Expansion

section Iteration

variable [Confidence α] [RandomSource σ] {S : Position → Prop} {p : Position}

namespace Engine

theorem iterate_of_sound (e : Engine α σ) (root : Nat) (hpath : e.path = [])
    (hsound : (Station.mk e p root).Sound S) (hfree : Position.CollisionFree S)
    (hroom : ∀ s ∈ (Station.mk e p root).walk, s.HasRoom)
    (hmet : ∀ s ∈ (Station.mk e p root).walk, S s.position) :
    ∃ e', e.iterate p root = (.ok (), e', p) ∧ e'.path = [] ∧ e'.graph.Sound S := by
  have hstart : (Station.mk e p root).Afoot p := Station.afoot_of_path_eq_nil hpath
  obtain ⟨t, ht, hend⟩ := exists_iterate_eq e p root
  have hafoot := hstart.walk hroom t ht
  have hsound' := hsound.walk hfree hmet t ht
  obtain ⟨reward, e₁, heq, hleaf⟩ := hsound'.evaluateLeaf
  rcases hend with
    ⟨hinner, edge, err, hedge, herr, _⟩ | ⟨_, err, e', heq', _⟩ | ⟨_, reward', e', _, heq', rfl, hit⟩
  · rw [hsound'.refusal?_edge hfree hinner hedge] at herr
    cases herr
  · rw [heq] at heq'
    cases heq'
  · rw [heq] at heq'
    cases heq'
    obtain ⟨htrail, _⟩ := trail_evaluateLeaf hafoot (hroom t ht) heq
    obtain ⟨g', _, hcredit⟩ := htrail.creditPath_eq reward
    have hcredited := creditPath_induction (P := Graph.Sound S)
      (fun _ id edge r hg => hg.credit id edge r) e₁.path reward t.position hleaf
    rw [hcredit] at hit hcredited
    exact ⟨_, hit, rfl, hcredited⟩

theorem iterateTimes_of_sound (n : Nat) (e : Engine α σ) (root : Nat) (hpath : e.path = [])
    (hsound : (Station.mk e p root).Sound S) (hv : (e.graph.node root).isVisited = true)
    (hfree : Position.CollisionFree S) (hroom : ∀ s ∈ iterationStations n e p root, s.HasRoom)
    (hmet : ∀ s ∈ iterationStations n e p root, S s.position) :
    ∃ e', iterateTimes n e p root = (.ok (), e', p) ∧ e'.graph.Sound S := by
  induction n generalizing e with
  | zero => exact ⟨e, rfl, hsound.graph⟩
  | succ n ih =>
    unfold iterationStations at hroom hmet
    have hroom₁ := fun s hs => hroom s (List.mem_append_left _ hs)
    obtain ⟨e₁, hit, hpath₁, hsound₁⟩ := iterate_of_sound e root hpath hsound hfree hroom₁
      fun s hs => hmet s (List.mem_append_left _ hs)
    -- the root keeps its key because it has been visited
    have hgrown := extends_iterate e p root hroom₁
    rw [hit] at hgrown hroom hmet
    obtain ⟨hv₁, hkey₁, _⟩ := hgrown.node root hv
    have hstation : (Station.mk e₁ p root).Sound S :=
      ⟨hsound₁, hsound.met, hsound.game, hkey₁.trans hsound.key⟩
    obtain ⟨e', hrest, hsound'⟩ := ih e₁ hpath₁ hstation hv₁
      (fun s hs => hroom s (List.mem_append_right _ hs)) fun s hs => hmet s (List.mem_append_right _ hs)
    exact ⟨e', by rw [iterateTimes, hit]; exact hrest, hsound'⟩

omit [Confidence α] in
theorem enterRoot_of_sound (e : Engine α σ) (h : p.Game) (hmet : S p) (hsound : e.graph.Sound S) :
    ∃ e', e.enterRoot p = (.ok (e.rootOf p), e', p) ∧ (Station.mk e' p (e.rootOf p)).Sound S ∧
      (e'.graph.node (e.rootOf p)).isVisited = true ∧ e'.graph.find? p.hash = some (e.rootOf p) ∧
      e'.path = [] := by
  have hroot : (e.atRoot p).graph.Sound S := hsound.locate p.hash
  obtain ⟨hlt, hkey⟩ := hsound.locate_spec p.hash
  have hfind : (e.atRoot p).graph.find? p.hash = some (e.rootOf p) := by
    simp [atRoot, rootOf, Graph.find?_locate]
  obtain ⟨e₁, hexp, hsound₁, hvisited⟩ := (e.atRoot p).expand_of_game (e.rootOf p) h hmet hroot hkey
  rcases e.enterRoot_cases p with ⟨hv, heq⟩ | ⟨_, err, e', hexp', _⟩ | ⟨hv, e', hexp', heq⟩
  · exact ⟨_, heq, ⟨hroot, hmet, h, hkey⟩, hv, hfind, rfl⟩
  · rw [hexp] at hexp'
    cases hexp'
  · rw [hexp] at hexp'
    cases hexp'
    obtain ⟨_, hpath, _, hgrow, _⟩ := expand_keeps hexp hv
    have hfind₁ := hgrow.index _ _ hfind
    exact ⟨e₁, heq, ⟨hsound₁, hmet, h, (hsound₁.index _ _ hfind₁).2⟩, hvisited hlt, hfind₁, hpath⟩

/-- The positions that a search meets: the one it is asked about and those at its stations. -/
def met (e : Engine α σ) (p : Position) : List Position :=
  if p.isLost then [] else p :: (e.stations p).map Station.position

/-- The answer `m` of an engine is the legal move of the first edge with the most visits. -/
def AnswersBest (e : Engine α σ) (p : Position) (m : Move) : Prop :=
  p.isLegal m = true ∧
    ∃ node i edge, e.graph.visited? p.hash = some node ∧ node.IsMostVisited i edge ∧ edge.move = m

omit [Score α] [Confidence α] [RandomSource σ] in
theorem answer_of_sound (e : Engine α σ) (root : Nat) (hsound : (Station.mk e p root).Sound S)
    (hfree : Position.CollisionFree S) (hlost : p.isLost = false)
    (hv : (e.graph.node root).isVisited = true) (hfind : e.graph.find? p.hash = some root) :
    ∃ m, e.answer root p.hash = .ok m ∧ e.AnswersBest p m := by
  have hcons := hsound.game.consistent
  have hperm : (e.graph.node root).moves.Perm p.legalMoves := hsound.moves_perm hfree hv
  have hmoves : (e.graph.node root).moves ≠ [] := by
    intro hnil
    rw [hnil, List.nil_perm, hcons.legalMoves_eq_nil, hlost] at hperm
    cases hperm
  obtain ⟨i, edge, hmost, hbest⟩ := (e.graph.node root).exists_isMostVisited hmoves
  have hmem : edge.move ∈ (e.graph.node root).moves := by
    refine List.mem_of_getElem? (i := i) ?_
    rw [Node.getElem?_moves, hbest.1, Option.map_some]
  refine ⟨edge.move, ?_, (hcons.mem_legalMoves _).1 (hperm.mem_iff.1 hmem), _, i, edge, ?_, hbest, rfl⟩
  · simp only [answer, hmost, Option.bind_some, hbest.1]
  · rw [Graph.visited?, hfind, Option.map_some, Option.filter_some, if_pos hv]

/-- A search in a game keeps the graph sound and, unless the game is over, succeeds. -/
theorem choose_of_sound (e : Engine α σ) (h : p.Game) (hsound : e.graph.Sound S)
    (hfree : Position.CollisionFree S) (hwrap : e.NoWrap p) (hmet : ∀ q ∈ e.met p, S q) :
    (e.choose p).2.2.1.graph.Sound S ∧
    (p.isLost = false → ∃ m, (e.choose p).1 = .ok m ∧ (e.choose p).2.2.1.AnswersBest p m) := by
  unfold choose
  split
  · rename_i hlost
    exact ⟨hsound, fun hlost' => by rw [hlost] at hlost'; cases hlost'⟩
  rename_i hlost
  unfold NoWrap stations at hwrap
  unfold met stations at hmet
  rw [if_neg hlost] at hwrap hmet
  rw [Bool.not_eq_true] at hlost
  simp only [hlost, Bool.false_eq_true, if_false, List.forall_mem_cons, List.forall_mem_map] at hmet
  obtain ⟨e₁, hroot, hstation, hv, hfind, hpath⟩ := e.enterRoot_of_sound h hmet.1 hsound
  rw [hroot] at hwrap hmet
  obtain ⟨e₂, htimes, hsound₂⟩ := iterateTimes_of_sound e₁.config.iterations e₁ _ hpath hstation hv
    hfree hwrap hmet.2
  have hgrown := extends_iterateTimes e₁.config.iterations e₁ p _ hwrap
  rw [htimes] at hgrown
  obtain ⟨hv₂, hkey₂, _⟩ := hgrown.node _ hv
  rw [hroot]
  simp only [htimes]
  refine ⟨hsound₂, fun _ => ?_⟩
  exact answer_of_sound _ _ ⟨hsound₂, hmet.1, h, hkey₂.trans hstation.key⟩ hfree hlost hv₂
    (hgrown.index _ _ hfind)

end Engine

end Iteration

end Search

end Breakthrough
