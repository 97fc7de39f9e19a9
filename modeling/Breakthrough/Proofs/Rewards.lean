import Mathlib.Tactic.Linarith
import Mathlib.Tactic.Positivity
import Breakthrough.Proofs.Credit
import Breakthrough.Proofs.Exact

/-!
# The range of rewards

In exact numbers no reward of a search is below 0 or above 1. A seed is a fraction of playouts, a leaf rewards by
the average of a seeded edge, and a reward that changes sides stays in the interval. The total of an edge is then
made of a seed and one such reward for each visit (`Edge.Fair`), so its average stays there, too. The edges of a
graph are shared by all paths that lead to them, and a path may come to an edge twice, so the invariant is about
all edges of the graph at once (`Graph.Fair`). It needs that no counter of an edge wraps, which the visits of the
nodes pay for (`Graph.HasRoomFor`).
-/

namespace Breakthrough.Search

open Exact

variable {α σ : Type}

/-! ## Edges -/

/-- The total of an edge lies between nothing and what its seed and its rewards can give. -/
def Edge.Fair (e : Edge ℚ) : Prop := 0 ≤ e.total ∧ e.total ≤ e.visits.toNat + 1

namespace Edge.Fair

variable {e : Edge ℚ} {reward : ℚ}

theorem inUnit_average (h : e.Fair) : InUnit e.average := by
  have hpos : (0 : ℚ) < e.visits.toNat + 1 := by positivity
  change 0 ≤ e.total / (e.visits.toNat + 1) ∧ e.total / (e.visits.toNat + 1) ≤ 1
  exact ⟨div_nonneg h.1 hpos.le, (div_le_one hpos).2 h.2⟩

theorem credit (h : e.Fair) (hroom : e.visits.toNat + 1 < UInt32.size) (hreward : InUnit reward) :
    (e.credit reward).Fair := by
  obtain ⟨hleast, hmost⟩ := h
  obtain ⟨hleast', hmost'⟩ := hreward
  have htotal : (e.credit reward).total = e.total + reward := rfl
  rw [Edge.Fair, Edge.toNat_visits_credit hroom, htotal]
  push_cast
  exact ⟨by linarith, by linarith⟩

end Edge.Fair

theorem inUnit_of_isSeed {samples : Nat} {x : ℚ} (h : IsSeed samples x) : InUnit x := by
  unfold IsSeed at h
  split at h
  · rw [h, zero_eq]
    exact ⟨le_rfl, zero_le_one⟩
  · obtain ⟨wins, hwins, rfl⟩ := h
    exact inUnit_ratio hwins

theorem Edge.fair_of_unvisited {e : Edge ℚ} (hvisits : e.visits = 0) (htotal : InUnit e.total) : e.Fair := by
  rw [Edge.Fair, hvisits]
  exact ⟨htotal.1, htotal.2.trans_eq (by simp)⟩

/-! ## Graphs -/

/-- All edges of the graph are fair. -/
def Graph.Fair (g : Graph ℚ) : Prop := ∀ id, ∀ e ∈ (g.node id).edges, e.Fair

namespace Graph

variable {g g' : Graph ℚ}

theorem fair_empty : (empty : Graph ℚ).Fair := by
  intro id e he
  rw [node_of_size_le (Nat.zero_le id)] at he
  exact absurd he (Array.not_mem_empty e)

theorem Fair.congr (h : g.Fair) (hedges : ∀ id, (g'.node id).edges = (g.node id).edges) : g'.Fair := by
  intro id e he
  rw [hedges] at he
  exact h id e he

theorem Fair.expanded (h : g.Fair) {edges : Array (Edge ℚ)} (hedges : ∀ e ∈ edges, e.Fair) (id : Nat) :
    (g.modify id (Engine.expanded edges)).Fair := by
  intro j e he
  rw [node_modify] at he
  split at he
  · exact hedges e he
  · exact h j e he

theorem Fair.credit (h : g.Fair) {step : Step} {edge : Edge ℚ} {reward : ℚ}
    (hedge : (g.node step.node).edges[step.edge]? = some edge) (hroom : edge.visits.toNat + 1 < UInt32.size)
    (hreward : InUnit reward) : (g.credit step.node step.edge reward).Fair := by
  intro id e he
  rw [node_credit] at he
  split at he
  · rename_i hid
    obtain ⟨i, hi⟩ := Array.mem_iff_getElem?.1 he
    rw [Node.credited, Array.getElem?_modify, ← hid.1] at hi
    split at hi
    · -- this is the edge that the step stands for
      rename_i hplace
      rw [← hplace, hedge, Option.map_some] at hi
      cases hi
      exact (h step.node edge (Array.mem_of_getElem? hedge)).credit hroom hreward
    · exact h step.node e (Array.mem_of_getElem? hi)
  · exact h id e he

end Graph

/-! ## The way back -/

/-- What the steps of a path are credited with: the newest gets the reward, which changes sides at every step. -/
def payments [Score α] : List Step → α → List (Step × α)
  | [], _ => []
  | step :: path, reward => (step, reward) :: payments path (Score.one - reward)

def Graph.pay [Score α] (g : Graph α) (payment : Step × α) : Graph α :=
  g.credit payment.1.node payment.1.edge payment.2

theorem inUnit_payments {path : List Step} {reward : ℚ} (h : InUnit reward) :
    ∀ payment ∈ payments path reward, InUnit payment.2 := by
  induction path generalizing reward with
  | nil => intro payment hmem; cases hmem
  | cons step path ih =>
    intro payment hmem
    rcases List.mem_cons.1 hmem with rfl | hmem
    · exact h
    · exact ih h.flip payment hmem

namespace Trail

variable {p₀ p : Position} {path : List Step}

/-- The way back makes these payments and no others. -/
theorem creditPath_payments [Score α] {g : Graph α} (h : Trail g p₀ path p) (reward : α) :
    Engine.creditPath path reward g p = (.ok (), [], (payments path reward).foldl Graph.pay g, p₀) := by
  obtain ⟨g', _, _, hpaid, heq⟩ := h.creditPath_induction
    (P := fun rest left g' =>
      (payments path reward).foldl Graph.pay g = (payments rest left).foldl Graph.pay g')
    reward rfl (fun _ hpaid => hpaid)
  rw [heq, hpaid]
  rfl

theorem fair_payments {g : Graph ℚ} (h : Trail g p₀ path p) (hroom : g.HasRoomFor path) (hfair : g.Fair)
    {reward : ℚ} (hreward : InUnit reward) : ((payments path reward).foldl Graph.pay g).Fair := by
  obtain ⟨g', _, _, ⟨_, hfair', _⟩, heq⟩ := h.creditPath_induction
    (P := fun rest left g' => InUnit left ∧ g'.Fair ∧ g'.HasRoomFor rest) reward ⟨hreward, hfair, hroom⟩ (by
      rintro g' step rest edge left hedge ⟨hleft, hg', hroom'⟩
      obtain ⟨hnow, hlater⟩ := hroom'.credit hedge left
      exact ⟨hleft.flip, hg'.credit hedge hnow hleft, hlater⟩)
  rw [h.creditPath_payments] at heq
  cases heq
  exact hfair'

end Trail

/-! ## The leaf -/

theorem inUnit_terminalReward (p : Position) : InUnit (Engine.terminalReward p) := by
  unfold Engine.terminalReward
  split
  · exact ⟨zero_le_one, le_rfl⟩
  · exact ⟨le_rfl, zero_le_one⟩

namespace Engine

section Evaluation

variable [RandomSource σ] {e : Engine ℚ σ}

theorem fair_expand (h : e.graph.Fair) (p : Position) (id : Nat) : (e.expand p id).2.1.graph.Fair := by
  rcases seedEdges_cases (α := ℚ) e.config.samples p.legalMoves e.sampler p with
    ⟨err, sampler, _, hseed⟩ | ⟨edges, sampler, _, hseed⟩
  · rw [expand_of_error hseed]
    exact h
  · rw [expand_of_ok hseed]
    refine h.expanded (fun edge hedge => ?_) id
    have hmem : edge ∈ edges := mem_sortEdges.1 (List.mem_toArray.1 hedge)
    exact Edge.fair_of_unvisited (visits_seedEdges hseed edge hmem)
      (inUnit_of_isSeed (isSeed_seedEdges hseed edge hmem))

theorem fair_evaluateLeaf (h : e.graph.Fair) (p : Position) (leaf : Nat) :
    (e.evaluateLeaf p leaf).2.1.graph.Fair ∧
      ∀ reward, (e.evaluateLeaf p leaf).1 = .ok reward → InUnit reward := by
  unfold evaluateLeaf
  split
  · refine ⟨h.congr (Graph.edges_visit _ _), fun reward hok => ?_⟩
    cases hok
    exact inUnit_terminalReward p
  have hexpanded := fair_expand h p leaf
  split
  · rename_i hexp
    rw [hexp] at hexpanded
    exact ⟨hexpanded, nofun⟩
  · rename_i e' q hexp
    rw [hexp] at hexpanded
    split
    · rename_i best hbest
      refine ⟨hexpanded, fun reward hok => ?_⟩
      cases hok
      exact (hexpanded leaf best (Array.mem_of_getElem? hbest)).inUnit_average.flip
    · refine ⟨hexpanded, fun reward hok => ?_⟩
      cases hok
      exact inUnit_terminalReward q

theorem fair_enterRoot (h : e.graph.Fair) (p : Position) : (e.enterRoot p).2.1.graph.Fair := by
  have hroot : (e.atRoot p).graph.Fair := h.congr (Graph.edges_locate _ _)
  have hexpanded := fair_expand hroot p (e.rootOf p)
  rcases e.enterRoot_cases p with ⟨_, heq⟩ | ⟨_, err, e₁, hexp, heq⟩ | ⟨_, e₁, hexp, heq⟩
  · rw [heq]
    exact hroot
  · rw [hexp] at hexpanded
    rw [heq]
    exact hexpanded
  · rw [hexp] at hexpanded
    rw [heq]
    exact hexpanded

end Evaluation

end Engine

/-! ## Iterations -/

/-- If the station is a leaf whose evaluation succeeds, its reward and what the path to it is credited with lie
between 0 and 1, and these payments are what the iteration makes of the graph. -/
def Station.PaysInUnit [Confidence ℚ] [RandomSource σ] (t : Station ℚ σ) : Prop :=
  ∀ reward e' q, t.isLeaf = true → t.selected.evaluateLeaf t.position t.node = (.ok reward, e', q) →
    InUnit reward ∧ (∀ payment ∈ payments t.engine.path reward, InUnit payment.2) ∧
      (t.engine.iterate t.position t.node).1 = .ok () ∧
      (t.engine.iterate t.position t.node).2.1.graph =
        (payments t.engine.path reward).foldl Graph.pay e'.graph

namespace Engine

section Runs

variable [Confidence ℚ] [RandomSource σ] {e : Engine ℚ σ} {p : Position} {root : Nat}

/-- A successful iteration has evaluated a leaf of its walk. -/
theorem exists_leaf_of_iterate_ok (hok : (e.iterate p root).1 = .ok ()) :
    ∃ t ∈ (Station.mk e p root).walk, t.isLeaf = true ∧
      ∃ reward e', t.selected.evaluateLeaf t.position t.node = (.ok reward, e', t.position) := by
  obtain ⟨t, ht, hend⟩ := exists_iterate_eq e p root
  rcases hend with ⟨_, edge, err, _, _, hit⟩ | ⟨_, err, e', _, hit⟩ | ⟨hleaf, reward, e', _, heq, _, _⟩
  · rw [hit] at hok
    cases hok
  · rw [hit] at hok
    cases hok
  · exact ⟨t, ht, hleaf, reward, e', heq⟩

/-- What a leaf of a walk from a fair graph is worth, and the graph that the iteration leaves. -/
theorem Ready.fair_of_isLeaf (h : e.Ready p root) (hroom : ∀ s ∈ (Station.mk e p root).walk, s.HasRoom)
    (hfair : e.graph.Fair) {t : Station ℚ σ} (ht : t ∈ (Station.mk e p root).walk) (hleaf : t.isLeaf = true)
    {reward : ℚ} {e' : Engine ℚ σ} {q : Position}
    (heq : t.selected.evaluateLeaf t.position t.node = (.ok reward, e', q)) :
    InUnit reward ∧ ((payments t.engine.path reward).foldl Graph.pay e'.graph).Fair ∧
      (t.engine.iterate t.position t.node).1 = .ok () ∧
      (t.engine.iterate t.position t.node).2.1.graph =
        (payments t.engine.path reward).foldl Graph.pay e'.graph := by
  obtain ⟨hwalked, _, rfl, hpath, htrail, hedges⟩ :=
    evaluated_of_mem_walk h.path h.placed h.solvent.surplus hroom ht heq
  have hstation : t.selected.graph.Fair := hfair.congr hwalked.edges
  obtain ⟨hfair', hreward⟩ := fair_evaluateLeaf hstation t.position t.node
  rw [heq] at hfair' hreward
  refine ⟨hreward reward rfl, htrail.fair_payments hedges hfair' (hreward reward rfl), ?_⟩
  simp only [Engine.iterate, descend_of_isLeaf hleaf, heq, hpath, htrail.creditPath_payments, and_self]

theorem Ready.paysInUnit (h : e.Ready p root) (hroom : ∀ s ∈ (Station.mk e p root).walk, s.HasRoom)
    (hfair : e.graph.Fair) : ∀ t ∈ (Station.mk e p root).walk, t.PaysInUnit := by
  intro t ht reward e' q hleaf heq
  obtain ⟨hreward, _, hit⟩ := h.fair_of_isLeaf hroom hfair ht hleaf heq
  exact ⟨hreward, inUnit_payments hreward, hit⟩

theorem Ready.fair_iterate (h : e.Ready p root) (hroom : ∀ s ∈ (Station.mk e p root).walk, s.HasRoom)
    (hfair : e.graph.Fair) : (e.iterate p root).2.1.graph.Fair := by
  cases hr : (e.iterate p root).1 with
  | error err => exact hfair.congr (stalled_iterate h.path hroom hr).edges
  | ok u =>
    obtain ⟨t, ht, hleaf, reward, e', heq⟩ := exists_leaf_of_iterate_ok hr
    have hsame : t.engine.iterate t.position t.node = e.iterate p root := iterate_eq_of_mem_walk _ t ht
    obtain ⟨_, hpaid, _, hgraph⟩ := h.fair_of_isLeaf hroom hfair ht hleaf heq
    rw [← hsame, hgraph]
    exact hpaid

theorem Ready.fair_iterateTimes (n : Nat) (h : e.Ready p root)
    (hroom : ∀ s ∈ iterationStations n e p root, s.HasRoom) (hfair : e.graph.Fair) :
    (iterateTimes n e p root).2.1.graph.Fair ∧ ∀ t ∈ iterationStations n e p root, t.PaysInUnit := by
  induction n generalizing e with
  | zero => exact ⟨hfair, nofun⟩
  | succ n ih =>
    unfold iterationStations at hroom ⊢
    have hroom₁ := fun s hs => hroom s (List.mem_append_left _ hs)
    have hone := h.fair_iterate hroom₁ hfair
    have hpays := h.paysInUnit hroom₁ hfair
    unfold iterateTimes
    cases hit : e.iterate p root with
    | mk result rest =>
      obtain ⟨e', q⟩ := rest
      rw [hit] at hone hroom
      cases result with
      | error err => exact ⟨hone, fun t ht => hpays t (by simpa using ht)⟩
      | ok u =>
        obtain ⟨rfl, hready⟩ := h.iterate hroom₁ hit
        obtain ⟨hend, hrest⟩ := ih hready (fun s hs => hroom s (List.mem_append_right _ hs)) hone
        refine ⟨hend, fun t ht => ?_⟩
        rcases List.mem_append.1 ht with ht | ht
        · exact hpays t ht
        · exact hrest t ht

/-! ## Searches -/

theorem fair_choose (h : e.graph.Solvent) (hfair : e.graph.Fair) (hwrap : e.NoWrap p) :
    (e.choose p).2.2.1.graph.Fair := by
  have hentered := fair_enterRoot hfair p
  rcases e.choose_cases p with
    ⟨_, hgraph⟩ | ⟨err, e₁, hroot, _, hgraph⟩ | ⟨e₁, _, hroot, hstations, hgraph, _⟩
  · rw [hgraph]
    exact hfair
  · rw [hroot] at hentered
    rw [hgraph]
    exact hentered
  · rw [hroot] at hentered
    rw [NoWrap, hstations] at hwrap
    rw [hgraph]
    exact (((enterRoot_conserves h hroot).2 rfl).fair_iterateTimes _ hwrap hentered).1

theorem paysInUnit_of_mem_stations (h : e.graph.Solvent) (hfair : e.graph.Fair) (hwrap : e.NoWrap p) :
    ∀ t ∈ e.stations p, t.PaysInUnit := by
  intro t ht
  obtain ⟨e₁, hroot, hstations⟩ := mem_stations ht
  have hentered := fair_enterRoot hfair p
  rw [hroot] at hentered
  rw [NoWrap, hstations] at hwrap
  rw [hstations] at ht
  exact (((enterRoot_conserves h hroot).2 rfl).fair_iterateTimes _ hwrap hentered).2 t ht

theorem fair_searches (requests : List (Request ℚ)) (h : e.graph.Solvent) (hfair : e.graph.Fair)
    (hwrap : ∀ c ∈ e.searches requests, c.1.NoWrap c.2) :
    (e.serveAll requests).graph.Fair ∧ ∀ c ∈ e.searches requests, c.1.graph.Fair := by
  induction requests generalizing e with
  | nil => exact ⟨hfair, nofun⟩
  | cons r requests ih =>
    cases r with
    | search p =>
      rw [searches, List.forall_mem_cons] at hwrap ⊢
      obtain ⟨hend, hall⟩ := ih (e := e.serve (.search p)) ((conserves_choose h hwrap.1).solvent h)
        (fair_choose h hfair hwrap.1) hwrap.2
      exact ⟨hend, hfair, hall⟩
    | configure config => exact ih (e := e.serve (.configure config)) h hfair hwrap
    | reset => exact ih (e := e.serve .reset) Graph.solvent_empty Graph.fair_empty hwrap

/-- **Every reward lies between 0 and 1.** An engine that counts in exact numbers and starts without a graph is
asked for searches of any positions, new settings and resets in any order; its searches may fail, and it may
prefer its edges by any bonus. If no visit counter wraps, then

* the total of every edge lies between 0 and one more than its visits, and its average between 0 and 1;
* so do the reward of every leaf and all that is credited for it on the way back to the root. -/
theorem searches_reward_in_unit (e : Engine ℚ σ) (hempty : e.graph = .empty) (requests : List (Request ℚ))
    (hwrap : ∀ c ∈ e.searches requests, c.1.NoWrap c.2) :
    (∀ id, ∀ edge ∈ ((e.serveAll requests).graph.node id).edges,
      0 ≤ edge.total ∧ edge.total ≤ edge.visits.toNat + 1 ∧ InUnit edge.average) ∧
    ∀ c ∈ e.searches requests, ∀ t ∈ c.1.stations c.2, t.PaysInUnit := by
  have hsolvent : e.graph.Solvent := hempty ▸ Graph.solvent_empty
  obtain ⟨_, hsolvent', _⟩ := solvent_searches requests hsolvent hwrap
  obtain ⟨hend, hfair⟩ := fair_searches requests hsolvent (hempty ▸ Graph.fair_empty) hwrap
  refine ⟨fun id edge hedge => ?_, fun c hc => ?_⟩
  · have hedge' := hend id edge hedge
    exact ⟨hedge'.1, hedge'.2, hedge'.inUnit_average⟩
  · exact paysInUnit_of_mem_stations (hsolvent' c hc) (hfair c hc) (hwrap c hc)

end Runs

/-- One iteration from the start: the root has edges with averages in range, and there is a leaf, which pays. -/
theorem searches_reward_in_unit_start :
    let _ : Confidence ℚ := ⟨fun _ _ _ => 0, -1⟩
    let e : Engine ℚ ChaCha := .new ⟨1, 0, 1, none⟩ (.ofSeed 0) .empty
    let root := (e.choose .bitStart).2.2.1.graph.node (e.rootOf .bitStart)
    e.NoWrap .bitStart ∧ root.edges ≠ #[] ∧ (∀ edge ∈ root.edges, InUnit edge.average) ∧
      ∃ t ∈ e.stations .bitStart, t.isLeaf = true ∧
        ∃ reward e', t.selected.evaluateLeaf t.position t.node = (.ok reward, e', t.position) ∧ InUnit reward := by
  intro _ e root
  obtain ⟨hwrap, _, m, hok⟩ := choose_bitStart (e := e) rfl rfl
  obtain ⟨hedges, hpays⟩ := searches_reward_in_unit e rfl [.search .bitStart] (by simpa [searches] using hwrap)
  obtain ⟨e₁, _, _, _, hstations, htimes, hanswer, hgraph⟩ := choose_ok (e := e) Graph.solvent_empty hok
  have hnonempty := edges_of_answer hanswer
  rw [← hgraph, Array.isEmpty_eq_false_iff] at hnonempty
  refine ⟨hwrap, hnonempty, fun edge hedge => (hedges _ edge hedge).2.2, ?_⟩
  have hone : (e₁.iterate .bitStart (e.rootOf .bitStart)).1 = .ok () := by
    change (iterateTimes 1 e₁ .bitStart (e.rootOf .bitStart)).1 = .ok () at htimes
    unfold iterateTimes at htimes
    split at htimes
    · cases htimes
    · rename_i hit
      rw [hit]
  obtain ⟨t, ht, hleaf, reward, e', heq⟩ := exists_leaf_of_iterate_ok hone
  have ht' : t ∈ e.stations .bitStart := by
    rw [hstations]
    exact List.mem_append_left _ ht
  exact ⟨t, ht', hleaf, reward, e', heq, (hpays (e, .bitStart) (by simp [searches]) t ht' reward e' _ hleaf heq).1⟩

end Engine

end Breakthrough.Search
