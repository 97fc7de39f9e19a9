import Breakthrough.Proofs.Graph
import Breakthrough.Proofs.Line
import Breakthrough.Search.Engine

/-!
# The way down and the way back

A search walks the position itself down the graph and back. `Station` is a place that a descent passes; a
descent is the walk from station to station (`exists_descend_eq`). The way back reads the moves to take back
out of the graph, by node and edge, after the same iteration may have added nodes and expanded one. A `Trail`
is a path for which this works: every node on it has been visited, and a visited node keeps its moves while
the graph grows. The way down is a trail at every station where no visit counter overflows (`Afoot.walk`),
whatever the graph holds: edges that are illegal in the position, cycles, keys of other positions.
-/

namespace Breakthrough.Search

variable {α σ : Type}

/-! ## The way back -/

/-- A path from `p₀` to a position whose moves can be read off the visited nodes of the graph. -/
inductive Trail (g : Graph α) (p₀ : Position) : List Step → Position → Prop where
  | nil : Trail g p₀ [] p₀
  | cons {path : List Step} {p : Position} {step : Step} {m : Move} :
      Trail g p₀ path p → (g.node step.node).isVisited = true →
      (g.node step.node).moves[step.edge]? = some m → p.Accepts m →
      Trail g p₀ (step :: path) (p.advance m)

namespace Trail

variable {g g' : Graph α} {p₀ p : Position} {path : List Step}

theorem mono (h : Trail g p₀ path p) (hg : g.Extends g') : Trail g' p₀ path p := by
  induction h with
  | nil => exact .nil
  | @cons path p step m _ hv hm hacc ih =>
    obtain ⟨hv', _, hmoves⟩ := hg.node step.node hv
    exact .cons ih hv' (hmoves ▸ hm) hacc

theorem eq_of_nil (h : Trail g p₀ [] p) : p = p₀ := by
  cases h
  rfl

/-- Crediting a path takes all of its moves back and never fails. What holds of the path, the reward and the
graph, and of what is left of them whenever the newest step has been credited, holds in the end of the empty
path. -/
theorem creditPath_induction [Score α] {P : List Step → α → Graph α → Prop} (h : Trail g p₀ path p)
    (reward : α) (start : P path reward g)
    (credit : ∀ {g : Graph α} {step : Step} {path : List Step} {edge : Edge α} {reward : α},
      (g.node step.node).edges[step.edge]? = some edge → P (step :: path) reward g →
        P path (Score.one - reward) (g.credit step.node step.edge reward)) :
    ∃ g' last, g.Extends g' ∧ P [] last g' ∧ Engine.creditPath path reward g p = (.ok (), [], g', p₀) := by
  induction path generalizing g p reward with
  | nil =>
    rw [h.eq_of_nil]
    exact ⟨g, reward, .refl g, start, rfl⟩
  | cons step path ih =>
    cases h with
    | @cons _ q _ m htail hv hm hacc =>
      obtain ⟨edge, hedge, rfl⟩ : ∃ edge, (g.node step.node).edges[step.edge]? = some edge ∧
          edge.move = m := by
        rwa [Node.getElem?_moves, Option.map_eq_some_iff] at hm
      have hgrow := Graph.extends_credit g step.node step.edge reward
      obtain ⟨g', last, hg', hend, heq⟩ := ih (htail.mono hgrow) (Score.one - reward) (credit hedge start)
      refine ⟨g', last, hgrow.trans hg', hend, ?_⟩
      rw [Engine.creditPath, hedge]
      simp only [Position.takeBackRefusal?_advance, Position.retract_advance hacc, if_true]
      exact heq

theorem creditPath_eq [Score α] (h : Trail g p₀ path p) (reward : α) :
    ∃ g', g.Extends g' ∧ Engine.creditPath path reward g p = (.ok (), [], g', p₀) := by
  obtain ⟨g', _, hgrow, _, heq⟩ :=
    h.creditPath_induction (P := fun _ _ _ => True) reward trivial fun _ _ => trivial
  exact ⟨g', hgrow, heq⟩

/-- So does abandoning it, without a warning. -/
theorem abandonPath_eq (h : Trail g p₀ path p) : Engine.abandonPath g path p = ([], p₀) := by
  induction h with
  | nil => rfl
  | @cons path p step m _ _ hm hacc ih =>
    obtain ⟨edge, hedge, rfl⟩ : ∃ edge, (g.node step.node).edges[step.edge]? = some edge ∧
        edge.move = m := by
      rwa [Node.getElem?_moves, Option.map_eq_some_iff] at hm
    rw [Engine.abandonPath, hedge]
    simp only [Position.takeBackRefusal?_advance, Position.retract_advance hacc, if_true]
    exact ih

end Trail

variable [Score α] [Confidence α]

/-! ## The stations of a search -/

/-- A place on the way down: the engine and the position there, and the node that stands for it. -/
structure Station (α σ : Type) where
  engine : Engine α σ
  position : Position
  node : Nat

namespace Station

/-- What the counter of the node says before it is raised. -/
def visits (s : Station α σ) : UInt32 := (s.engine.graph.node s.node).visits

/-- The place of the edge that a descent follows. -/
def edge (s : Station α σ) : Nat :=
  let node := s.engine.graph.node s.node
  Node.preferred node.edges node.visit.visits s.engine.config.exploration

/-- The engine that has counted its visit to the node. -/
def counted (s : Station α σ) : Engine α σ :=
  { s.engine with graph := s.engine.graph.modify s.node Node.visit }

/-- The engine that has counted the selection of the node as a leaf. -/
def selected (s : Station α σ) : Engine α σ :=
  { s.engine with stats.selections := s.engine.stats.selections + 1 }

/-- The station behind a move along the followed edge. -/
def follow (s : Station α σ) (m : Move) : Station α σ :=
  let position := s.position.advance m
  let (node, graph) := s.counted.graph.locate position.hash
  ⟨{ s.counted with graph, path := ⟨s.node, s.edge⟩ :: s.engine.path }, position, node⟩

/-- Whether a descent ends here with a leaf. -/
def isLeaf (s : Station α σ) : Bool :=
  let node := s.engine.graph.node s.node
  !node.isVisited || node.isTerminal

/-- The next station, unless the descent ends at this one. -/
def next? (s : Station α σ) : Option (Station α σ) :=
  if s.isLeaf then none
  else
    match (s.engine.graph.node s.node).edges[s.edge]? with
    | none => none
    | some edge => if (s.position.refusal? edge.move).isSome then none else some (s.follow edge.move)

theorem isLeaf_eq_false {s : Station α σ} (h : s.isLeaf = false) :
    (s.engine.graph.node s.node).isVisited = true ∧
      ∃ edge, (s.engine.graph.node s.node).edges[s.edge]? = some edge := by
  rw [isLeaf, Bool.or_eq_false_iff, Bool.not_eq_false'] at h
  have hedges : (s.engine.graph.node s.node).edges ≠ #[] := by
    intro hnil
    rw [(Node.isTerminal_iff _).2 ⟨h.1, (Node.moves_eq_nil _).2 hnil⟩] at h
    cases h.2
  exact ⟨h.1, _, Array.getElem?_eq_getElem (Node.preferred_lt _ _ hedges)⟩

/-- All that leads from a station to the next. -/
theorem next?_eq_some {s t : Station α σ} (h : s.next? = some t) :
    ∃ edge, s.isLeaf = false ∧ (s.engine.graph.node s.node).edges[s.edge]? = some edge ∧
      s.position.Accepts edge.move ∧ t = s.follow edge.move := by
  unfold next? at h
  split at h
  · cases h
  rename_i hleaf
  split at h
  · cases h
  rename_i edge hedge
  split at h
  · cases h
  rename_i hrefusal
  refine ⟨edge, by simpa using hleaf, hedge, ?_, (Option.some.inj h).symm⟩
  exact (Position.refusal?_eq_none_iff _ _).1 (by simpa using hrefusal)

theorem next?_of_accepted {s : Station α σ} {edge : Edge α} (hleaf : s.isLeaf = false)
    (hedge : (s.engine.graph.node s.node).edges[s.edge]? = some edge)
    (hm : s.position.refusal? edge.move = none) : s.next? = some (s.follow edge.move) := by
  simp [next?, hleaf, hedge, hm]

/-- Where there is one edge, a descent follows it. -/
theorem next?_of_single {s : Station α σ} {a : Edge α} {id : Nat} {g : Graph α}
    (hv : (s.engine.graph.node s.node).isVisited = true) (hedges : (s.engine.graph.node s.node).edges = #[a])
    (hm : s.position.refusal? a.move = none)
    (hlocate : (s.engine.graph.modify s.node Node.visit).locate (s.position.advance a.move).hash = (id, g)) :
    s.next? = some ⟨{ s.engine with graph := g, path := ⟨s.node, 0⟩ :: s.engine.path },
      s.position.advance a.move, id⟩ := by
  have hleaf : s.isLeaf = false := by
    rw [isLeaf, Node.isTerminal, hv, hedges]
    rfl
  have hplace : s.edge = 0 := by
    have hlt : s.edge < (s.engine.graph.node s.node).edges.size := Node.preferred_lt _ _ (by simp [hedges])
    rw [hedges] at hlt
    exact Nat.lt_one_iff.1 hlt
  have hedge : (s.engine.graph.node s.node).edges[s.edge]? = some a := by
    rw [hplace, hedges]
    rfl
  rw [next?_of_accepted hleaf hedge hm]
  simp only [follow, counted, hlocate, hplace]

theorem room_next?_lt {s t : Station α σ} (h : s.next? = some t) :
    maxPly - t.position.depth < maxPly - s.position.depth := by
  obtain ⟨edge, _, _, hm, rfl⟩ := next?_eq_some h
  exact Position.room_advance_lt ((Position.refusal?_eq_none_iff _ _).2 hm)

/-- The stations of a descent, from the first to the last. -/
def walk (s : Station α σ) : List (Station α σ) :=
  match _ : s.next? with
  | none => [s]
  | some t => s :: walk t
termination_by maxPly - s.position.depth
decreasing_by exact room_next?_lt ‹_›

theorem walk_of_none {s : Station α σ} (h : s.next? = none) : s.walk = [s] := by
  rw [walk]
  split
  · rfl
  · rename_i h'; rw [h] at h'; cases h'

theorem walk_of_some {s t : Station α σ} (h : s.next? = some t) : s.walk = s :: t.walk := by
  rw [walk]
  split
  · rename_i h'; rw [h] at h'; cases h'
  · rename_i h'; rw [h] at h'; cases h'; rfl

theorem mem_walk_self (s : Station α σ) : s ∈ s.walk := by
  rw [walk]
  split
  · exact List.mem_singleton_self s
  · exact List.mem_cons_self

/-- What holds at the first station and is kept from one station to the next holds at all of them. -/
theorem walk_induction {P : Station α σ → Prop} (s : Station α σ) (first : P s)
    (next : ∀ u ∈ s.walk, ∀ t, u.next? = some t → P u → P t) : ∀ t ∈ s.walk, P t := by
  fun_induction walk s with
  | case1 s hnone =>
    intro t ht
    rw [List.mem_singleton.1 ht]
    exact first
  | case2 s t hsome ih =>
    intro u hu
    rcases List.mem_cons.1 hu with rfl | hu
    · exact first
    · refine ih (next s List.mem_cons_self t hsome first) ?_ u hu
      exact fun v hv => next v (List.mem_cons_of_mem _ hv)

theorem mem_walk_of_next? {s t u : Station α σ} (h : u ∈ s.walk) (hnext : u.next? = some t) : t ∈ s.walk := by
  fun_induction walk s with
  | case1 s hnone =>
    rw [List.mem_singleton.1 h, hnone] at hnext
    cases hnext
  | case2 s v hsome ih =>
    rcases List.mem_cons.1 h with rfl | h
    · rw [hsome] at hnext
      cases hnext
      exact List.mem_cons_of_mem _ (mem_walk_self t)
    · exact List.mem_cons_of_mem _ (ih h)

theorem walk_subset {s t : Station α σ} (h : t ∈ s.walk) : t.walk ⊆ s.walk :=
  walk_induction t h fun _ _ _ hnext hu => mem_walk_of_next? hu hnext

end Station

namespace Engine

open Station

theorem descend_of_isLeaf {s : Station α σ} (h : s.isLeaf = true) :
    s.engine.descend s.position s.node = (.ok s.node, s.selected, s.position) := by
  rw [descend]
  exact if_pos h

theorem descend_of_refusal {s : Station α σ} {edge : Edge α} {err : Error} (hleaf : s.isLeaf = false)
    (hedge : (s.engine.graph.node s.node).edges[s.edge]? = some edge)
    (herr : s.position.refusal? edge.move = some err) :
    s.engine.descend s.position s.node = (.error err, s.counted, s.position) := by
  rw [descend]
  unfold isLeaf at hleaf
  unfold Station.edge at hedge
  simp only [hleaf, Bool.false_eq_true, if_false, hedge]
  split
  · rename_i h; rw [herr] at h; cases h; rfl
  · rename_i h; rw [herr] at h; cases h

theorem descend_of_next? {s t : Station α σ} (h : s.next? = some t) :
    s.engine.descend s.position s.node = t.engine.descend t.position t.node := by
  obtain ⟨edge, hleaf, hedge, hm, rfl⟩ := next?_eq_some h
  have hnone := (Position.refusal?_eq_none_iff _ _).2 hm
  rw [descend]
  have hedge' := hedge
  unfold isLeaf at hleaf
  unfold Station.edge at hedge'
  simp only [hleaf, Bool.false_eq_true, if_false, hedge']
  split
  · rename_i h; rw [hnone] at h; cases h
  · rfl

/-- A descent ends at one of its stations: at a leaf, or where the edge to follow is refused. -/
theorem exists_descend_eq (s : Station α σ) :
    ∃ t ∈ s.walk,
      (t.isLeaf = true ∧ s.engine.descend s.position s.node = (.ok t.node, t.selected, t.position)) ∨
      (t.isLeaf = false ∧ ∃ edge err, (t.engine.graph.node t.node).edges[t.edge]? = some edge ∧
        t.position.refusal? edge.move = some err ∧
        s.engine.descend s.position s.node = (.error err, t.counted, t.position)) := by
  fun_induction walk s with
  | case1 s hnone =>
    refine ⟨s, List.mem_singleton_self s, ?_⟩
    by_cases hleaf : s.isLeaf = true
    · exact .inl ⟨hleaf, descend_of_isLeaf hleaf⟩
    rw [Bool.not_eq_true] at hleaf
    obtain ⟨_, edge, hedge⟩ := isLeaf_eq_false hleaf
    cases hm : s.position.refusal? edge.move with
    | none =>
      rw [next?_of_accepted hleaf hedge hm] at hnone
      cases hnone
    | some err => exact .inr ⟨hleaf, edge, err, hedge, hm, descend_of_refusal hleaf hedge hm⟩
  | case2 s t hsome ih =>
    obtain ⟨u, hu, hend⟩ := ih
    rw [descend_of_next? hsome]
    exact ⟨u, List.mem_cons_of_mem _ hu, hend⟩

end Engine

/-! ## One descent -/

namespace Station

/-- The counter of the node can be raised once more. -/
def HasRoom (s : Station α σ) : Prop := s.visits.toNat + 1 < UInt32.size

/-- The way from `p₀` to the station can be read off the graph. -/
def Afoot (p₀ : Position) (s : Station α σ) : Prop :=
  Trail s.engine.graph p₀ s.engine.path s.position

omit [Score α] [Confidence α] in
theorem afoot_of_path_eq_nil {e : Engine α σ} {p : Position} {node : Nat} (h : e.path = []) :
    (Station.mk e p node).Afoot p := by
  rw [Afoot, h]
  exact .nil

omit [Score α] [Confidence α] in
theorem extends_counted {s : Station α σ} (h : s.HasRoom) :
    s.engine.graph.Extends s.counted.graph :=
  Graph.extends_modify (Node.extends_visit h)

theorem extends_next? {s t : Station α σ} (hroom : s.HasRoom) (h : s.next? = some t) :
    s.engine.graph.Extends t.engine.graph := by
  obtain ⟨edge, _, _, _, rfl⟩ := next?_eq_some h
  exact (extends_counted hroom).trans (Graph.extends_locate _ _)

theorem extends_walk {s : Station α σ} (hroom : ∀ t ∈ s.walk, t.HasRoom) :
    ∀ t ∈ s.walk, s.engine.graph.Extends t.engine.graph :=
  walk_induction s (.refl _) fun u hu _ hnext hu' => hu'.trans (extends_next? (hroom u hu) hnext)

theorem Afoot.next? {p₀ : Position} {s t : Station α σ} (hs : s.Afoot p₀) (hroom : s.HasRoom)
    (h : s.next? = some t) : t.Afoot p₀ := by
  have hgrow := extends_next? hroom h
  obtain ⟨edge, hleaf, hedge, hm, rfl⟩ := next?_eq_some h
  have hv := (isLeaf_eq_false hleaf).1
  have hmove : (s.engine.graph.node s.node).moves[s.edge]? = some edge.move := by
    rw [Node.getElem?_moves, hedge, Option.map_some]
  obtain ⟨hv', _, hmoves⟩ := hgrow.node s.node hv
  exact .cons (hs.mono hgrow) hv' (hmoves ▸ hmove) hm

theorem Afoot.walk {p₀ : Position} {s : Station α σ} (hs : s.Afoot p₀)
    (hroom : ∀ t ∈ s.walk, t.HasRoom) : ∀ t ∈ s.walk, t.Afoot p₀ :=
  walk_induction s hs fun u hu _ hnext hu' => hu'.next? (hroom u hu) hnext

end Station

end Breakthrough.Search
