import Breakthrough.Proofs.Agents
import Breakthrough.Proofs.Credit

/-!
# Searches of one iteration

A search without playouts gives all edges of a new node the same value. At a position that is new to it, its first
iteration therefore follows the first move of the position, and if the successor is new as well, it ends there: the
search meets these two positions only, and the first move is the one with a visit (`choose_of_single`). What such a
search will play is known without its graph.
-/

namespace Breakthrough

open Position

/-- Positions of which all have different hashes are told apart. -/
theorem Position.collisionFree_of_nodup {ps : List Position} (h : (ps.map Position.hash).Nodup) :
    CollisionFree (· ∈ ps) := by
  intro p q hp hq hhash
  obtain rfl := List.inj_on_of_nodup_map h hp hq hhash
  exact ⟨rfl, rfl⟩

namespace Search

variable {α σ : Type} {S : Position → Prop} {p : Position} {m : Move}

/-- A key that no position of the set has is not that of a visited node. -/
theorem Graph.Sound.isVisited_locate {g : Graph α} (h : g.Sound S) {key : UInt64} (hnew : ∀ q, S q → q.hash ≠ key) :
    ((g.locate key).2.node (g.locate key).1).isVisited = false := by
  rw [Bool.eq_false_iff]
  intro hv
  obtain ⟨q, hq, _, hhash, _⟩ := (h.locate key).nodes _ hv
  exact hnew q hq (hhash.trans (h.locate_spec key).2)

/-- Where all edges have the same confidence, the first is preferred. -/
theorem Node.preferred_of_equal [Score α] [Confidence α] (hirrefl : ∀ x : α, Score.lt x x = false)
    {edges : Array (Edge α)} {visits : UInt32} {exploration : α}
    (hequal : ∀ a ∈ edges.toList, ∀ b ∈ edges.toList,
      a.confidence visits exploration = b.confidence visits exploration) :
    preferred edges visits exploration = 0 := by
  unfold preferred
  extract_lets step
  cases hlist : edges.toList with
  | nil => rfl
  | cons a rest =>
    rw [hlist] at hequal
    -- after the first edge no edge exceeds the best, whether that is the floor or the first edge
    obtain ⟨best, hfirst, hplace, hbest⟩ : ∃ best, step (0, Confidence.floor) (a, 0) = best ∧ best.1 = 0 ∧
        Score.lt best.2 (a.confidence visits exploration) = false := by
      refine ⟨_, rfl, ?_⟩
      simp only [step]
      split
      · exact ⟨rfl, hirrefl _⟩
      · rename_i hlt
        exact ⟨rfl, Bool.not_eq_true _ ▸ hlt⟩
    have hkeep : (rest.zipIdx (0 + 1)).foldl step best = best := by
      refine List.foldlRecOn (motive := (· = best)) _ step rfl fun other hother b hb => ?_
      have hmem := List.mem_cons_of_mem a (List.fst_mem_of_mem_zipIdx hb)
      simp only [step, hother, ← hequal a List.mem_cons_self b.1 hmem, hbest, Bool.false_eq_true, if_false]
    rw [List.zipIdx_cons, List.foldl_cons, hfirst, hkeep, hplace]

/-- One iteration and no playouts are asked for. -/
structure Config.Single (c : Config α) : Prop where
  iterations : c.iterations = 1
  samples : c.samples = 0

/-- The edges of a node that has been expanded without playouts. -/
def unsampled (moves : List Move) : List (Edge Float) := moves.map fun m => ⟨m, 0, Score.zero⟩

theorem Engine.sortEdges_unsampled (moves : List Move) : sortEdges (unsampled moves) = unsampled moves := by
  refine List.mergeSort_of_pairwise (List.pairwise_of_forall_mem_list ?_)
  intro a ha b hb
  obtain ⟨_, _, rfl⟩ := List.mem_map.1 ha
  obtain ⟨_, _, rfl⟩ := List.mem_map.1 hb
  exact congrArg not (decide_eq_false (Double.lt_irrefl Score.zero))

/-! ## The descent -/

namespace Station

variable {s : Station Float σ} {moves : List Move} {key : UInt64}

/-- From a node that is as its expansion has left it, a descent follows the first edge. -/
theorem next?_of_unsampled (hnode : s.engine.graph.node s.node = ⟨key, 1, (unsampled (m :: moves)).toArray⟩)
    (hm : s.position.refusal? m = none) : s.edge = 0 ∧ s.next? = some (s.follow m) := by
  have hplace : s.edge = 0 := by
    refine Node.preferred_of_equal (fun x => decide_eq_false (Double.lt_irrefl x)) fun a ha b hb => ?_
    rw [hnode] at ha hb
    obtain ⟨_, _, rfl⟩ := List.mem_map.1 ha
    obtain ⟨_, _, rfl⟩ := List.mem_map.1 hb
    rfl
  have hleaf : s.isLeaf = false := by
    rw [isLeaf, hnode]
    rfl
  have hedge : (s.engine.graph.node s.node).edges[s.edge]? = some ⟨m, 0, Score.zero⟩ := by
    rw [hplace, hnode]
    rfl
  have hnext := next?_of_accepted hleaf hedge hm
  exact ⟨hplace, hnext⟩

/-- It ends behind that edge if the successor is new to the graph, and no counter on the way is at its end. -/
theorem walk_of_unsampled (hsound : s.Sound S)
    (hnode : s.engine.graph.node s.node = ⟨key, 1, (unsampled (m :: moves)).toArray⟩)
    (hm : s.position.refusal? m = none) (hnew : ∀ q, S q → q.hash ≠ (s.position.advance m).hash) :
    (s.follow m).isLeaf = true ∧ s.walk = [s, s.follow m] ∧ ∀ t ∈ s.walk, t.HasRoom := by
  have hcounted : s.counted.graph.Sound S := hsound.graph.visit (by rw [hnode]; rfl)
  have hfresh : ((s.follow m).engine.graph.node (s.follow m).node).isVisited = false := hcounted.isVisited_locate hnew
  have hleaf : (s.follow m).isLeaf = true := by rw [isLeaf, hfresh, Bool.not_false, Bool.true_or]
  have hend : (s.follow m).next? = none := by rw [next?, hleaf, if_pos rfl]
  have hwalk : s.walk = [s, s.follow m] := by
    rw [walk_of_some (next?_of_unsampled hnode hm).2, walk_of_none hend]
  refine ⟨hleaf, hwalk, ?_⟩
  rw [hwalk, List.forall_mem_cons, List.forall_mem_singleton, HasRoom, HasRoom, visits, visits, hnode]
  have hzero := (Node.isVisited_iff _).not.1 (Bool.eq_false_iff.1 hfresh)
  refine ⟨(by decide : (1 : UInt32).toNat + 1 < UInt32.size), ?_⟩
  rw [Nat.eq_zero_of_not_pos hzero]
  decide

end Station

/-! ## The iteration -/

namespace Engine

variable [RandomSource σ] {e : Engine Float σ} {moves : List Move}

omit [RandomSource σ] in
/-- The answer is the only edge with a visit. -/
theorem answer_of_credited {root : Nat} {reward : Float}
    (hedges : (e.graph.node root).edges = (unsampled (m :: moves)).toArray.modify 0 (Edge.credit · reward))
    (key : UInt64) : e.answer root key = .ok m := by
  have hfirst : (e.graph.node root).edges[0]? = some (Edge.credit ⟨m, 0, Score.zero⟩ reward) := by
    rw [hedges, Array.getElem?_modify, if_pos rfl]
    rfl
  obtain ⟨i, edge, hmost, hedge, hbest⟩ := (e.graph.node root).exists_isMostVisited (by
    rw [Ne, Node.moves_eq_nil]
    intro hnil
    rw [hnil] at hfirst
    cases hfirst)
  have hvisits := (hbest 0 _ hfirst).1
  obtain rfl : i = 0 := by
    refine Decidable.by_contra fun hi => ?_
    have hother := hedge
    rw [hedges, Array.getElem?_modify, if_neg (Ne.symm hi), List.getElem?_toArray] at hother
    obtain ⟨_, _, rfl⟩ := List.mem_map.1 (List.mem_of_getElem? hother)
    exact absurd hvisits (by decide : ¬ (0 : UInt32) + 1 ≤ 0)
  rw [hfirst] at hedge
  cases hedge
  simp only [answer, hmost, Option.bind_some, hfirst]
  rfl

/-- One iteration from a new root to a new successor gives a visit to the first edge of the root. -/
theorem iterate_of_unsampled {root : Nat} (hpath : e.path = []) (hsamples : e.config.samples = 0)
    (hsound : (Station.mk e p root).Sound S)
    (hnode : e.graph.node root = ⟨p.hash, 1, (unsampled (m :: moves)).toArray⟩) (hm : p.refusal? m = none)
    (hnew : ∀ q, S q → q.hash ≠ (p.advance m).hash) :
    ∃ e', e.iterate p root = (.ok (), e', p) ∧ e'.config = e.config ∧ e'.answer root p.hash = .ok m := by
  let s : Station Float σ := ⟨e, p, root⟩
  obtain ⟨hplace, hnext⟩ := Station.next?_of_unsampled (s := s) hnode hm
  obtain ⟨hleaf, hwalk, hroom⟩ := Station.walk_of_unsampled (s := s) hsound hnode hm hnew
  have hmem : s.follow m ∈ s.walk := by rw [hwalk]; exact List.mem_cons_of_mem _ (List.mem_singleton_self _)
  have hdescend : e.descend p root = (.ok (s.follow m).node, (s.follow m).selected, p.advance m) :=
    (descend_of_next? hnext).trans (descend_of_isLeaf hleaf)
  have hafoot : (s.follow m).Afoot p := (Station.afoot_of_path_eq_nil hpath).walk hroom _ hmem
  have hedges := (Station.walked (s := s) hpath hroom _ hmem).edges root
  have hnot := Station.leaf_notMem_path hafoot hleaf
  have hsteps : (s.follow m).engine.path = [⟨root, 0⟩] := by
    rw [← hplace, ← hpath]
    rfl
  obtain ⟨e', hit, hconfig⟩ := exists_iterate_eq_of_no_samples hpath hsamples hroom hdescend
  refine ⟨e', hit, hconfig, ?_⟩
  obtain ⟨reward, e₂, q₂, heval, hcredit⟩ := iterate_ok hdescend hit
  have hsize := ((hsound.graph.visit (by rw [hnode]; rfl)).locate_spec (p.advance m).hash).1
  obtain ⟨rfl, hpath₂, hgraph⟩ := evaluateLeaf_ok heval hsize
  obtain ⟨f, hgraph⟩ : ∃ f, e₂.graph = (s.follow m).engine.graph.modify (s.follow m).node f := by
    rcases hgraph with ⟨_, hgraph, _⟩ | ⟨_, _, _, _, hgraph, _⟩
    · exact ⟨_, hgraph⟩
    · exact ⟨_, hgraph⟩
  obtain ⟨htrail, _⟩ := trail_evaluateLeaf hafoot (hroom _ hmem) heval
  rw [show e₂.path = [⟨root, 0⟩] from hpath₂.trans hsteps] at hcredit htrail
  obtain ⟨g', heq, hback⟩ := htrail.creditPath_distinct (List.nodup_singleton _) reward
  obtain ⟨_, rfl⟩ : e'.path = [] ∧ e'.graph = g' := by simpa using hcredit.symm.trans heq
  -- the leaf is not the root, so the root is as the way down has left it but for the credit
  have hother : (s.follow m).node ≠ root := by
    rw [hsteps] at hnot
    exact fun hsame => hnot (hsame ▸ List.mem_singleton_self _)
  have hcredited : (e'.graph.node root).edges = (unsampled (m :: moves)).toArray.modify 0 (Edge.credit · reward) := by
    rw [hback.steps 0 ⟨root, 0⟩ rfl, Node.credited, hgraph, Graph.node_modify, if_neg fun hboth => hother hboth.1,
      hedges, show s.engine.graph.node root = _ from hnode]
    rfl
  exact answer_of_credited hcredited p.hash

/-! ## The search -/

/-- A new root is expanded, and its edges keep the order of the moves. -/
theorem enterRoot_of_new (hsamples : e.config.samples = 0) (hsound : e.graph.Sound S)
    (hnew : ∀ q, S q → q.hash ≠ p.hash) (hlost : p.isLost = false) :
    ∃ e₁, e.enterRoot p = (.ok (e.rootOf p), e₁, p) ∧
      e₁.graph.node (e.rootOf p) = ⟨p.hash, 1, (unsampled p.moves).toArray⟩ := by
  obtain ⟨hsize, hkey⟩ := hsound.locate_spec p.hash
  have hunvisited : ((e.atRoot p).graph.node (e.rootOf p)).isVisited = false := hsound.isVisited_locate hnew
  have hseed := seedEdges_zero (α := Float) p.legalMoves (e.atRoot p).sampler p
  rw [← show (e.atRoot p).config.samples = 0 from hsamples] at hseed
  have hexpand := expand_of_ok hseed (e.rootOf p)
  rw [legalMoves, hlost, if_neg Bool.false_ne_true, ← unsampled, sortEdges_unsampled] at hexpand
  rw [enterRoot_eq, hunvisited, hexpand]
  refine ⟨_, rfl, ?_⟩
  rw [Graph.node_modify, if_pos ⟨rfl, hsize⟩]
  exact congrArg (Node.mk · _ _) hkey

/-- A search of one iteration without playouts in a game answers with the first move, if its graph does not know the
position and its successor by that move. It meets no other position. -/
theorem choose_of_single {known : List Position} (h : e.config.Single) (hgame : p.Game) (hlost : p.isLost = false)
    (hsound : e.graph.Sound (· ∈ known)) (hmoves : p.moves = m :: moves)
    (hnodup : ((known ++ [p, p.advance m]).map Position.hash).Nodup) :
    e.NoWrap p ∧ (∀ q ∈ e.met p, q = p ∨ q = p.advance m) ∧ ∃ lines e', e.choose p = (.ok m, lines, e', p) ∧
      e'.config = e.config ∧ e'.graph.Sound (· ∈ known ++ [p, p.advance m]) := by
  have hsplit := hnodup
  rw [List.map_append, List.nodup_append] at hsplit
  obtain ⟨_, hlast, hdisjoint⟩ := hsplit
  have hnew : ∀ q, q ∈ known → q.hash ≠ p.hash :=
    fun q hq => hdisjoint _ (List.mem_map_of_mem hq) _ (by simp)
  have hnew' : ∀ q, q ∈ known ++ [p] → q.hash ≠ (p.advance m).hash := by
    intro q hq
    rcases List.mem_append.1 hq with hq | hq
    · exact hdisjoint _ (List.mem_map_of_mem hq) _ (by simp)
    · rw [List.mem_singleton.1 hq]
      exact List.ne_of_not_mem_cons (List.nodup_cons.1 hlast).1
  have hlegal : p.isLegal m = true := hgame.isLegal_of_mem_moves hlost (hmoves ▸ List.mem_cons_self)
  have hm := (refusal?_eq_none_iff p m).2 (hgame.accepts hlegal)
  obtain ⟨e₁, hroot, hnode⟩ := enterRoot_of_new h.samples hsound hnew hlost
  rw [hmoves] at hnode
  obtain ⟨e₂, hroot', hstation, _, _, hpath⟩ := e.enterRoot_of_sound (S := (· ∈ known ++ [p])) hgame (by simp)
    (hsound.mono fun q hq => List.mem_append_left _ hq)
  rw [hroot] at hroot'
  cases hroot'
  obtain ⟨_, _, hroot', _, hconfig, _⟩ := e.enterRoot_keeps p
  rw [hroot] at hroot'
  cases hroot'
  have hone : e₁.config.iterations = 1 := (congrArg Config.iterations hconfig).trans h.iterations
  obtain ⟨_, hwalk, hroom⟩ := Station.walk_of_unsampled hstation hnode hm hnew'
  have hstations : e.stations p = (Station.mk e₁ p (e.rootOf p)).walk := stations_of_one_iteration hlost hroot hone
  have hwrap : e.NoWrap p := by
    rw [NoWrap, hstations]
    exact hroom
  have hmet : ∀ q ∈ e.met p, q = p ∨ q = p.advance m := by
    rw [met, hlost, hstations, hwalk]
    simp [Station.follow]
  obtain ⟨e', hit, hconfig', hanswer⟩ := iterate_of_unsampled hpath
    ((congrArg Config.samples hconfig).trans h.samples) hstation hnode hm hnew'
  refine ⟨hwrap, hmet, ?_⟩
  have hsound' := (e.choose_of_sound hgame (hsound.mono fun q hq => List.mem_append_left [p, p.advance m] hq)
    (collisionFree_of_nodup hnodup) hwrap fun q hq => by
      rcases hmet q hq with rfl | rfl <;> simp).1
  have htimes : iterateTimes e₁.config.iterations e₁ p (e.rootOf p) = (.ok (), e', p) := by
    rw [hone, iterateTimes, hit]
    rfl
  obtain ⟨hok, hleft⟩ := choose_of_iterateTimes hlost hroot htimes
  rw [hleft] at hsound'
  exact ⟨(e.choose p).2.1, _, Prod.ext (hok.trans hanswer) (Prod.ext rfl hleft), hconfig'.trans hconfig, hsound'⟩

end Engine

end Search

end Breakthrough
