import Breakthrough.Proofs.Restore

/-!
# The graph only grows

From one station of a search to any later one the graph only grows, and so it does from the last station to the
end of the search, whether it succeeds or not. A node that has once been expanded therefore keeps its moves, in
their order, at every moment until the graph is thrown away.
-/

namespace Breakthrough.Search

variable {α σ : Type} [Score α] [Confidence α] [RandomSource σ]

/-- A sequence of graphs in which every graph grows out of all before it. -/
abbrev Growing (graphs : List (Graph α)) : Prop := graphs.Pairwise Graph.Extends

omit [Score α] [Confidence α] in
/-- Two sequences join at a graph that is the last of one and the first of the other. -/
theorem Growing.join {before after : List (Graph α)} {g : Graph α} (h : Growing (before ++ [g]))
    (h' : Growing (g :: after)) : Growing (before ++ g :: after) := by
  obtain ⟨hbefore, _, hlast⟩ := List.pairwise_append.1 h
  refine List.pairwise_append.2 ⟨hbefore, h', ?_⟩
  intro x hx y hy
  have hxg := hlast x hx g (List.mem_singleton_self g)
  rcases List.mem_cons.1 hy with rfl | hy
  · exact hxg
  · exact hxg.trans (List.rel_of_pairwise_cons h' hy)

omit [Score α] [Confidence α] in
theorem Growing.join_drop {before after : List (Graph α)} {g : Graph α} (h : Growing (before ++ [g]))
    (h' : Growing (g :: after)) : Growing (before ++ after) :=
  (h.join h').sublist ((List.Sublist.refl before).append (List.sublist_cons_self g after))

omit [RandomSource σ] in
theorem Station.growing_walk {s : Station α σ} (hroom : ∀ t ∈ s.walk, t.HasRoom) :
    Growing (s.walk.map (·.engine.graph)) := by
  fun_induction walk s with
  | case1 s hnone => exact List.pairwise_singleton _ _
  | case2 s t hsome ih =>
    have hrest : ∀ u ∈ t.walk, u.HasRoom := fun u hu => hroom u (List.mem_cons_of_mem _ hu)
    refine List.pairwise_cons.2 ⟨?_, ih hrest⟩
    intro g hg
    obtain ⟨u, hu, rfl⟩ := List.mem_map.1 hg
    exact (extends_next? (hroom s List.mem_cons_self) hsome).trans (extends_walk hrest u hu)

namespace Engine

/-- Every station of a descent leads to the same end. -/
theorem iterate_eq_of_mem_walk (s : Station α σ) :
    ∀ t ∈ s.walk, t.engine.iterate t.position t.node = s.engine.iterate s.position s.node := by
  refine Station.walk_induction s rfl ?_
  intro u _ t hnext hu
  rw [← hu]
  unfold iterate
  rw [descend_of_next? hnext]

theorem extends_iterate (e : Engine α σ) (p : Position) (root : Nat)
    (hroom : ∀ s ∈ (Station.mk e p root).walk, s.HasRoom) :
    e.graph.Extends (e.iterate p root).2.1.graph := by
  obtain ⟨t, ht, hend⟩ := exists_iterate_eq e p root
  have hdown : e.graph.Extends t.engine.graph := Station.extends_walk hroom t ht
  obtain ⟨result, e₁, heq₁, _, hgrow, _⟩ :=
    evaluateLeaf_keeps t.selected t.position t.node (hroom t ht)
  rcases hend with
    ⟨_, edge, err, _, _, hit⟩ | ⟨_, err, e', heq, hit⟩ | ⟨_, reward, e', _, heq, rfl, hit⟩
  · rw [hit]
    exact hdown.trans (Station.extends_counted (hroom t ht))
  · rw [heq₁] at heq
    cases heq
    rw [hit]
    exact hdown.trans hgrow
  · rw [heq₁] at heq
    cases heq
    rw [hit]
    exact creditPath_induction (P := e.graph.Extends)
      (fun g id edge r hg => hg.trans (Graph.extends_credit g id edge r)) _ _ _ (hdown.trans hgrow)

theorem extends_iterate_of_mem_walk {e : Engine α σ} {p : Position} {root : Nat} {t : Station α σ}
    (hroom : ∀ s ∈ (Station.mk e p root).walk, s.HasRoom) (ht : t ∈ (Station.mk e p root).walk) :
    t.engine.graph.Extends (e.iterate p root).2.1.graph := by
  have hend : t.engine.iterate t.position t.node = e.iterate p root := iterate_eq_of_mem_walk _ t ht
  rw [← hend]
  exact extends_iterate _ _ _ fun u hu => hroom u (Station.walk_subset ht hu)

theorem growing_iteration (e : Engine α σ) (p : Position) (root : Nat)
    (hroom : ∀ s ∈ (Station.mk e p root).walk, s.HasRoom) :
    Growing (e.graph :: (Station.mk e p root).walk.map (·.engine.graph) ++
      [(e.iterate p root).2.1.graph]) := by
  refine List.pairwise_cons.2 ⟨?_, List.pairwise_append.2
    ⟨Station.growing_walk hroom, List.pairwise_singleton _ _, ?_⟩⟩
  · intro g hg
    rcases List.mem_append.1 hg with hg | hg
    · obtain ⟨t, ht, rfl⟩ := List.mem_map.1 hg
      exact Station.extends_walk hroom t ht
    · rw [List.mem_singleton.1 hg]
      exact extends_iterate e p root hroom
  · intro g hg g' hg'
    obtain ⟨t, ht, rfl⟩ := List.mem_map.1 hg
    rw [List.mem_singleton.1 hg']
    exact extends_iterate_of_mem_walk hroom ht

theorem growing_iterationStations (n : Nat) (e : Engine α σ) (p : Position) (root : Nat)
    (hroom : ∀ s ∈ iterationStations n e p root, s.HasRoom) :
    Growing (e.graph :: (iterationStations n e p root).map (·.engine.graph) ++
      [(iterateTimes n e p root).2.1.graph]) := by
  induction n generalizing e p with
  | zero => simp [Growing, iterationStations, iterateTimes, Graph.Extends.refl]
  | succ n ih =>
    unfold iterationStations at hroom ⊢
    have hone := growing_iteration e p root fun s hs => hroom s (List.mem_append_left _ hs)
    unfold iterateTimes
    split
    · rename_i hr
      rw [hr] at hone
      simpa only [List.append_nil, hr] using hone
    · rename_i e' q hr
      rw [hr] at hone hroom
      have hrest := ih e' q fun s hs => hroom s (List.mem_append_right _ hs)
      rw [List.cons_append] at hrest
      have hjoin := hone.join_drop hrest
      simpa only [hr, List.map_append, List.cons_append, List.append_assoc] using hjoin

theorem extends_iterateTimes (n : Nat) (e : Engine α σ) (p : Position) (root : Nat)
    (hroom : ∀ s ∈ iterationStations n e p root, s.HasRoom) :
    e.graph.Extends (iterateTimes n e p root).2.1.graph :=
  List.rel_of_pairwise_cons (growing_iterationStations n e p root hroom)
    (List.mem_append_right _ (List.mem_singleton_self _))

/-- The graphs before a search and at its stations. -/
def graphsAlong (e : Engine α σ) (p : Position) : List (Graph α) :=
  e.graph :: (e.stations p).map (·.engine.graph)

/-- **A search only lets the graph grow**, at every moment and on every outcome. -/
theorem growing_choose (e : Engine α σ) (p : Position) (h : e.NoWrap p) :
    Growing (e.graphsAlong p ++ [(e.choose p).2.2.1.graph]) := by
  unfold NoWrap at h
  unfold graphsAlong
  unfold stations at h ⊢
  unfold choose
  split
  · simp [Growing, Graph.Extends.refl]
  rename_i hlost
  rw [if_neg hlost] at h
  obtain ⟨result, e', hroot, _, _, hgrow, _⟩ := e.enterRoot_keeps p
  rw [hroot] at h ⊢
  have hstart : Growing ([e.graph] ++ [e'.graph]) := by simpa [Growing] using hgrow
  cases result with
  | error err => exact hstart
  | ok root =>
    have hsearch := hstart.join_drop (growing_iterationStations e'.config.iterations e' p root h)
    simp only at hsearch ⊢
    split
    · rename_i hr
      rw [hr] at hsearch
      exact hsearch
    · rename_i hr
      rw [hr] at hsearch
      exact hsearch

theorem extends_choose (e : Engine α σ) (p : Position) (h : e.NoWrap p) :
    e.graph.Extends (e.choose p).2.2.1.graph :=
  List.rel_of_pairwise_cons (growing_choose e p h) (List.mem_append_right _ (List.mem_singleton_self _))

end Engine

end Breakthrough.Search
