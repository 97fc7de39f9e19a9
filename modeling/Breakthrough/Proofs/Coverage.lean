import Breakthrough.Proofs.Arrivals
import Breakthrough.Proofs.Export
import Breakthrough.Proofs.Lockstep

/-!
# The records cover what has been searched

On a graph that searches of games have built, the walk that collects records cannot fail, and it records exactly
the visited nodes that can be reached along edges that have been taken, in depth-first order.

Two things are needed of the graph. Its nodes have the legal moves of their positions (`Graph.Sound`), and an
edge that has been taken leads to a position that was met (`Graph.Trodden`), so that the walk never leaves the
positions whose hashes are told apart. The order is that of the tree into which the taken edges unfold
(`Graph.Preorder`), where a position appears once for each way to it; the walk keeps the first of each. That it
skips a whole branch where it meets a key again is right because a branch never leads back: every move shortens
the way that the pawns have left. So a key that is met again belongs to a branch that is finished (`Settled`).
-/

namespace Breakthrough

namespace Search

variable {α σ : Type} {S : Position → Prop}

/-! ## Edges that have been taken -/

namespace Node

def taken (n : Node α) : List (Edge α) := n.edges.toList.filter fun e => 0 < e.visits

theorem visitsAlong_pos {n : Node α} {e : Edge α} (h : e ∈ n.taken) : 0 < n.visitsAlong (· = e.move) := by
  obtain ⟨he, hvisits⟩ := List.mem_filter.1 h
  have hpos : 0 < e.visits.toNat := UInt32.lt_iff_toNat_lt.1 (of_decide_eq_true hvisits)
  refine Nat.lt_of_lt_of_le hpos (List.single_le_sum (fun _ _ => Nat.zero_le _) _ ?_)
  exact List.mem_map.2 ⟨e, List.mem_filter.2 ⟨he, by simp⟩, rfl⟩

theorem move_mem_moves {n : Node α} {e : Edge α} (h : e ∈ n.taken) : e.move ∈ n.moves :=
  List.mem_map.2 ⟨e, (List.mem_filter.1 h).1, rfl⟩

end Node

namespace Graph

variable {g g' : Graph α}

/-- A visited node leads from one position to the next by an edge that has been taken. -/
def Takes (g : Graph α) (p q : Position) : Prop :=
  ∃ n, g.visited? p.hash = some n ∧ ∃ e ∈ n.taken, q = p.advance e.move

/-- An edge that has been visited was followed in a position of the set, to another one of it. -/
def Trodden (S : Position → Prop) (g : Graph α) : Prop :=
  ∀ id m, 0 < (g.node id).visitsAlong (· = m) →
    ∃ q, S q ∧ q.Consistent ∧ q.hash = (g.node id).key ∧ S (q.advance m)

theorem trodden_empty : (empty : Graph α).Trodden S := by
  intro id m h
  exact absurd h (Nat.lt_irrefl 0)

/-- A graph stays so if its new visits are of this kind. -/
theorem Trodden.grow (htrodden : g.Trodden S) (h : g.Indexed) (h' : g'.Indexed) (hgrow : g.Extends g')
    (hnew : ∀ id m, 0 < (g'.node id).visitsAlong (· = m) → 0 < (g.node id).visitsAlong (· = m) ∨
      ∃ q, S q ∧ q.Consistent ∧ q.hash = (g'.node id).key ∧ S (q.advance m)) : g'.Trodden S := by
  intro id m hpos
  rcases hnew id m hpos with hold | hnew
  · have hid : id < g.size := by
      by_contra hid
      rw [node_of_size_le (Nat.le_of_not_lt hid), Node.visitsAlong_of_fresh (by simp [Node.fresh])] at hold
      exact Nat.lt_irrefl 0 hold
    rw [(h.key_eq h' hgrow hid).2]
    exact htrodden id m hold
  · exact hnew

theorem Trodden.locate (htrodden : g.Trodden S) (h : g.Indexed) (key : UInt64) :
    (g.locate key).2.Trodden S := by
  refine htrodden.grow h (h.locate key) (g.extends_locate key) ?_
  intro id m hpos
  rw [Node.visitsAlong_congr (edges_locate g key id)] at hpos
  exact .inl hpos

/-- An iteration adds the visits of the steps of its path. -/
theorem Iterated.trodden {path : List Step} {leaf : Nat} (hit : g.Iterated path leaf g') (h : g.Indexed)
    (h' : g'.Indexed) (hgrow : g.Extends g') (htrodden : g.Trodden S)
    (hpath : ∀ step ∈ path, ∃ q m, g'.moveAt? step = some m ∧ S q ∧ q.Consistent ∧
      q.hash = (g'.node step.node).key ∧ S (q.advance m)) : g'.Trodden S := by
  refine htrodden.grow h h' hgrow ?_
  intro id m hpos
  rw [hit.flow id (· = m)] at hpos
  by_cases hold : 0 < (g.node id).visitsAlong (· = m)
  · exact .inl hold
  · right
    have hleft : 0 < g'.departures path id (· = m) := by omega
    obtain ⟨step, hstep, hleaves⟩ := List.countP_pos_iff.1 hleft
    obtain ⟨q, m', hmove, hq, hcons, hkey, hnext⟩ := hpath step hstep
    rw [hmove] at hleaves
    obtain ⟨rfl, rfl⟩ : step.node = id ∧ m' = m := by simpa using hleaves
    exact ⟨q, hq, hcons, hkey, hnext⟩

end Graph

namespace Engine

variable [Score α] [Confidence α] [RandomSource σ] {e e' : Engine α σ} {p : Position} {root : Nat}

theorem trodden_iterate (h : e.Ready p root) (hsound : (Station.mk e p root).Sound S)
    (hfree : Position.CollisionFree S) (hroom : ∀ s ∈ (Station.mk e p root).walk, s.HasRoom)
    (hmet : ∀ s ∈ (Station.mk e p root).walk, S s.position) (hok : (e.iterate p root).1 = .ok ())
    (htrodden : e.graph.Trodden S) : (e.iterate p root).2.1.graph.Trodden S := by
  obtain ⟨t, ht, hit⟩ := h.iterated hroom hok
  refine hit.trodden h.placed.indexed (indexed_iterate h.placed) (extends_iterate e p root hroom) htrodden ?_
  generalize hg : (e.iterate p root).2.1.graph = g
  -- every step of a path was made at a station of the walk
  have hsteps : ∀ t ∈ (Station.mk e p root).walk, ∀ step ∈ t.engine.path, ∃ q m,
      g.moveAt? step = some m ∧ S q ∧ q.Consistent ∧ q.hash = (g.node step.node).key ∧ S (q.advance m) := by
    refine Station.walk_induction _ ?_ ?_
    · simp [h.path]
    · intro u hu t hnext ih
      have hmeet := hmet t (Station.mem_walk_of_next? hu hnext)
      obtain ⟨edge, hleaf, hedge, _, rfl⟩ := Station.next?_eq_some hnext
      intro step hstep
      rcases List.mem_cons.1 hstep with rfl | hstep
      · refine ⟨u.position, edge.move, ?_, hmet u hu, ?_, ?_, hmeet⟩
        · rw [← hg, moveAt?_walk hroom hu hleaf hedge]
        · exact (hsound.walk hfree hmet u hu).game.consistent
        · rw [← hg, h.key_walk hroom hu]
      · exact ih step hstep
  exact hsteps t ht

omit [Confidence α] in
/-- Entering the root takes no edge. -/
theorem trodden_enterRoot (h : e.graph.Solvent) (hroot : e.enterRoot p = (.ok (e.rootOf p), e', p))
    (htrodden : e.graph.Trodden S) : e'.graph.Trodden S := by
  have hplaced := e.placed_atRoot p h.indexed
  have hready := (enterRoot_conserves h hroot).2 rfl
  have hlocate : (e.atRoot p).graph.Trodden S := htrodden.locate h.indexed p.hash
  rcases e.enterRoot_cases p with ⟨hv, heq⟩ | ⟨_, err, e₁, hexp, heq⟩ | ⟨hv, e₁, hexp, heq⟩
  · rw [hroot] at heq
    cases heq
    exact hlocate
  · rw [hroot] at heq
    cases heq
  · rw [hroot] at heq
    cases heq
    have hconserves : e.graph.Conserves True (e.atRoot p).graph := Graph.conserves_locate h.indexed p.hash
    have hit := (evaluated_expand hexp hplaced.lt_size hv).iterated (hconserves.solvent h) hv
    obtain ⟨_, _, _, hgrow, _⟩ := expand_keeps hexp hv
    exact hit.trodden hplaced.indexed hready.placed.indexed hgrow hlocate (by simp)

theorem trodden_choose (hp : p.Game) (h : e.graph.Solvent) (hsound : e.graph.Sound S)
    (hfree : Position.CollisionFree S) (hwrap : e.NoWrap p) (hmet : ∀ q ∈ e.met p, S q)
    (htrodden : e.graph.Trodden S) : (e.choose p).2.2.1.graph.Trodden S := by
  cases hlost : p.isLost with
  | true => simpa [choose, hlost] using htrodden
  | false =>
    obtain ⟨m, hok, _⟩ := (e.choose_of_sound hp hsound hfree hwrap hmet).2 hlost
    obtain ⟨e₁, hroot, hready, _, hstations, htimes, _, hgraph⟩ := choose_ok h hok
    rw [NoWrap, hstations] at hwrap
    simp only [met, hlost, hstations, Bool.false_eq_true, if_false, List.forall_mem_cons,
      List.forall_mem_map] at hmet
    obtain ⟨e₂, hroot', hstation, _⟩ := e.enterRoot_of_sound hp hmet.1 hsound
    rw [hroot] at hroot'
    cases hroot'
    have hboth := hready.iterateTimes_induction (k := 0)
      (P := fun _ e' => e'.graph.Sound S ∧ e'.graph.Trodden S) (Q := fun s => S s.position)
      hwrap hmet.2 htimes ⟨hstation.graph, trodden_enterRoot h hroot htrodden⟩ (by
        rintro _ e' hready' hroom hmet' hit ⟨hsound', htrodden'⟩
        have hstation' : (Station.mk e' p (e.rootOf p)).Sound S :=
          ⟨hsound', hmet.1, hp, hready'.placed.key⟩
        obtain ⟨e'', heq, _, hsound''⟩ :=
          iterate_of_sound e' (e.rootOf p) hready'.path hstation' hfree hroom hmet'
        have hnext := trodden_iterate hready' hstation' hfree hroom hmet' hit htrodden'
        rw [heq] at hnext ⊢
        exact ⟨hsound'', hnext⟩)
    rw [hgraph]
    exact hboth.2

/-- A run from a graph of this kind leaves one. -/
theorem trodden_serveAll (requests : List (Request α)) (h : e.graph.Solvent) (hsound : e.graph.Sound S)
    (hfree : Position.CollisionFree S) (hgame : ∀ c ∈ e.searches requests, c.2.Game)
    (hwrap : ∀ c ∈ e.searches requests, c.1.NoWrap c.2)
    (hmet : ∀ c ∈ e.searches requests, ∀ q ∈ c.1.met c.2, S q) (htrodden : e.graph.Trodden S) :
    (e.serveAll requests).graph.Trodden S := by
  induction requests generalizing e with
  | nil => exact htrodden
  | cons r requests ih =>
    rw [serveAll, List.foldl_cons]
    cases r with
    | search p =>
      rw [searches, List.forall_mem_cons] at hgame hwrap hmet
      obtain ⟨hafter, _⟩ := e.choose_of_sound hgame.1 hsound hfree hwrap.1 hmet.1
      exact ih (e := e.serve (.search p)) ((conserves_choose h hwrap.1).solvent h) hafter hgame.2 hwrap.2
        hmet.2 (trodden_choose hgame.1 h hsound hfree hwrap.1 hmet.1 htrodden)
    | configure config => exact ih (e := e.serve (.configure config)) h hsound hgame hwrap hmet htrodden
    | reset =>
      exact ih (e := e.serve .reset) Graph.solvent_empty Graph.sound_empty hgame hwrap hmet
        Graph.trodden_empty

end Engine

end Search

/-! ## Familiar positions -/

namespace Position

variable {S : Position → Prop} {keys : KeyTable} {p q : Position}

/-- A position of a game that is in the set but for its history. -/
def Familiar (S : Position → Prop) (q : Position) : Prop := q.Game ∧ ∃ r, S r ∧ q.Alike r

theorem Familiar.alike (hfree : CollisionFree S) (hkeys : ∀ q, S q → q.keys = keys) (hp : p.Familiar S)
    (hq : q.Familiar S) (hhash : p.hash = q.hash) : p.Alike q := by
  obtain ⟨hpgame, r, hr, hpr⟩ := hp
  obtain ⟨hqgame, s, hs, hqs⟩ := hq
  obtain ⟨hboard, hside⟩ := hfree r s hr hs (hpr.hash.symm.trans (hhash.trans hqs.hash))
  have hsame : p.keys = q.keys := by rw [hpr.keys, hqs.keys, hkeys r hr, hkeys s hs]
  refine hpgame.consistent.alike hqgame.consistent hsame ?_ ?_
  · rw [hpr.board, hqs.board, hboard]
  · rw [hpr.side, hqs.side, hside]

theorem Alike.distance_eq (h : p.Alike q) : p.distance = q.distance := by
  rw [distance, distance, h.board]

end Position

namespace Search

open Position

namespace Graph

variable {g : Graph α} {keys : KeyTable} {p q : Position}

theorem visited?_eq_some {k : UInt64} {n : Node α} :
    g.visited? k = some n ↔ ∃ id, g.find? k = some id ∧ g.node id = n ∧ n.isVisited = true := by
  rw [visited?, Option.filter_eq_some_iff, Option.map_eq_some_iff]
  constructor
  · rintro ⟨⟨id, hid, rfl⟩, hv⟩
    exact ⟨id, hid, rfl, hv⟩
  · rintro ⟨id, hid, rfl, hv⟩
    exact ⟨⟨id, hid, rfl⟩, hv⟩

/-- What makes a graph fit to be walked: it is indexed by its keys, and describes positions of a set that its
edges do not leave. -/
structure Explored (S : Position → Prop) (g : Graph α) : Prop where
  indexed : g.Indexed
  sound : g.Sound S
  trodden : g.Trodden S

/-- A move along a taken edge is legal, leads to a familiar position and comes closer to the end. -/
theorem Explored.take (h : g.Explored S) (hfree : CollisionFree S) (hkeys : ∀ q, S q → q.keys = keys)
    (hp : p.Familiar S) {n : Node α} (hn : g.visited? p.hash = some n) {e : Edge α} (he : e ∈ n.taken) :
    p.Accepts e.move ∧ (p.advance e.move).Familiar S ∧ (p.advance e.move).distance < p.distance := by
  obtain ⟨hgame, r, hr, hpr⟩ := hp
  obtain ⟨id, hid, rfl, hv⟩ := visited?_eq_some.1 hn
  have hkey := ((h.indexed _ _).1 hid).2
  have hlegal : p.isLegal e.move = true := by
    obtain ⟨q, hq, hcons, hqkey, hperm⟩ := h.sound.nodes id hv
    obtain ⟨hboard, hside⟩ := hfree q r hq hr (by rw [hqkey, hkey, hpr.hash])
    rw [hcons.legalMoves_eq hgame.consistent (hboard.trans hpr.board.symm) (hside.trans hpr.side.symm)]
      at hperm
    exact (hgame.consistent.mem_legalMoves _).1 (hperm.mem_iff.1 (Node.move_mem_moves he))
  have hstep := (hgame.consistent.mem_moves _).1 ((hgame.consistent.isLegal_iff _).1 hlegal).2
  refine ⟨hgame.accepts hlegal, ⟨hgame.step hlegal, ?_⟩, distance_advance_lt hstep⟩
  obtain ⟨q, hq, hcons, hqkey, hnext⟩ := h.trodden id e.move (Node.visitsAlong_pos he)
  obtain ⟨hboard, hside⟩ := hfree q r hq hr (by rw [hqkey, hkey, hpr.hash])
  have hpq : p.Alike q := by
    refine hgame.consistent.alike hcons ?_ (hpr.board.trans hboard.symm) (hpr.side.trans hside.symm)
    rw [hpr.keys, hkeys r hr, hkeys q hq]
  exact ⟨_, hnext, hpq.advance e.move⟩

/-! ## The order of the tree -/

/-- The positions behind the taken edges of a node. -/
def branches (n : Node α) (p : Position) : List Position := n.taken.map fun e => p.advance e.move

/-- The keys of the trees into which the taken edges unfold from some positions, each node before its branches.
A tree has one place for each way to a position, and ends at positions that have not been visited. -/
inductive Preorder (g : Graph α) : List Position → List UInt64 → Prop
  | nil : Preorder g [] []
  | unvisited {p : Position} {ps : List Position} {ks : List UInt64} :
      g.visited? p.hash = none → Preorder g ps ks → Preorder g (p :: ps) ks
  | visited {p : Position} {ps : List Position} {ks : List UInt64} {n : Node α} :
      g.visited? p.hash = some n → Preorder g (branches n p ++ ps) ks → Preorder g (p :: ps) (p.hash :: ks)

namespace Preorder

variable {ps qs : List Position} {ks ls : List UInt64}

theorem append (hp : g.Preorder ps ks) (hq : g.Preorder qs ls) : g.Preorder (ps ++ qs) (ks ++ ls) := by
  induction hp with
  | nil => exact hq
  | unvisited hnode _ ih => exact .unvisited hnode ih
  | visited hnode _ ih =>
    rw [List.append_assoc] at ih
    exact .visited hnode ih

theorem exists_append (h : g.Preorder (ps ++ qs) ks) :
    ∃ as bs, ks = as ++ bs ∧ g.Preorder ps as ∧ g.Preorder qs bs := by
  generalize hl : ps ++ qs = l at h
  induction h generalizing ps with
  | nil =>
    obtain ⟨rfl, rfl⟩ := List.append_eq_nil_iff.1 hl
    exact ⟨[], [], rfl, .nil, .nil⟩
  | @unvisited p rest ks hnode hrest ih =>
    cases ps with
    | nil =>
      rw [List.nil_append] at hl
      subst hl
      exact ⟨[], ks, rfl, .nil, .unvisited hnode hrest⟩
    | cons p' ps =>
      obtain ⟨rfl, hrest'⟩ := List.cons.inj hl
      obtain ⟨as, bs, rfl, ha, hb⟩ := ih hrest'
      exact ⟨as, bs, rfl, .unvisited hnode ha, hb⟩
  | @visited p rest ks n hnode hrest ih =>
    cases ps with
    | nil =>
      rw [List.nil_append] at hl
      subst hl
      exact ⟨[], _, rfl, .nil, .visited hnode hrest⟩
    | cons p' ps =>
      obtain ⟨rfl, rfl⟩ := List.cons.inj hl
      obtain ⟨as, bs, rfl, ha, hb⟩ := ih (List.append_assoc (branches n p') ps qs)
      exact ⟨_, bs, rfl, .visited hnode ha, hb⟩

theorem eq_nil_of_unvisited (h : g.Preorder [p] ks) (hnode : g.visited? p.hash = none) : ks = [] := by
  cases h with
  | unvisited _ hrest =>
    cases hrest
    rfl
  | visited hnode' _ =>
    rw [hnode] at hnode'
    cases hnode'

theorem exists_cons_of_visited {n : Node α} (h : g.Preorder [p] ks) (hnode : g.visited? p.hash = some n) :
    ∃ ls, ks = p.hash :: ls ∧ g.Preorder (branches n p) ls := by
  cases h with
  | unvisited hnode' _ =>
    rw [hnode] at hnode'
    cases hnode'
  | @visited _ _ ls n' hnode' hrest =>
    rw [hnode] at hnode'
    cases hnode'
    rw [List.append_nil] at hrest
    exact ⟨ls, rfl, hrest⟩

/-- The tree of one of the positions. -/
theorem exists_of_mem (h : g.Preorder ps ks) (hp : p ∈ ps) : ∃ ls, ls ⊆ ks ∧ g.Preorder [p] ls := by
  obtain ⟨before, after, rfl⟩ := List.append_of_mem hp
  obtain ⟨as, bs, rfl, _, hb⟩ := h.exists_append
  rw [← List.singleton_append] at hb
  obtain ⟨cs, ds, rfl, hc, _⟩ := hb.exists_append
  exact ⟨cs, fun k hk => by simp [hk], hc⟩

/-- Positions that differ in their histories have the same trees. -/
theorem unique (hp : g.Preorder ps ks) (halike : List.Forall₂ Alike ps qs) (hq : g.Preorder qs ls) :
    ks = ls := by
  induction hp generalizing qs ls with
  | nil =>
    cases halike
    cases hq
    rfl
  | @unvisited p ps ks hnode _ ih =>
    obtain ⟨q, qs, hpq, hrest, rfl⟩ := List.forall₂_cons_left_iff.1 halike
    rw [hpq.hash] at hnode
    cases hq with
    | unvisited _ hq => exact ih hrest hq
    | visited hnode' _ =>
      rw [hnode] at hnode'
      cases hnode'
  | @visited p ps ks n hnode _ ih =>
    obtain ⟨q, qs, hpq, hrest, rfl⟩ := List.forall₂_cons_left_iff.1 halike
    rw [hpq.hash] at hnode ⊢
    cases hq with
    | unvisited hnode' _ =>
      rw [hnode] at hnode'
      cases hnode'
    | @visited _ _ _ n' hnode' hq =>
      rw [hnode] at hnode'
      cases hnode'
      have hbranches : List.Forall₂ Alike (branches n p) (branches n q) := by
        rw [branches, branches, List.forall₂_map_left_iff, List.forall₂_map_right_iff, List.forall₂_same]
        exact fun e _ => hpq.advance e.move
      rw [ih (List.rel_append hbranches hrest) hq]

/-- What the trees hold is reached along taken edges. -/
theorem exists_reach (h : g.Preorder ps ks) {k : UInt64} (hk : k ∈ ks) :
    ∃ p ∈ ps, ∃ q, Relation.ReflTransGen g.Takes p q ∧ q.hash = k ∧ (g.visited? k).isSome = true := by
  induction h with
  | nil => cases hk
  | unvisited _ _ ih =>
    obtain ⟨p, hp, hreach⟩ := ih hk
    exact ⟨p, List.mem_cons_of_mem _ hp, hreach⟩
  | @visited p ps ks n hnode _ ih =>
    rcases List.mem_cons.1 hk with rfl | hk
    · exact ⟨p, List.mem_cons_self, p, .refl, rfl, by rw [hnode]; rfl⟩
    · obtain ⟨q, hq, r, hreach, hr⟩ := ih hk
      rcases List.mem_append.1 hq with hq | hq
      · obtain ⟨e, he, rfl⟩ := List.mem_map.1 hq
        exact ⟨p, List.mem_cons_self, r, .head ⟨n, hnode, e, he, rfl⟩ hreach, hr⟩
      · exact ⟨q, List.mem_cons_of_mem _ hq, r, hreach, hr⟩

/-- What is reached along taken edges is in the tree. -/
theorem mem_of_reach (hreach : Relation.ReflTransGen g.Takes p q) (h : g.Preorder [p] ks)
    (hv : (g.visited? q.hash).isSome = true) : q.hash ∈ ks := by
  induction hreach using Relation.ReflTransGen.head_induction_on generalizing ks with
  | refl =>
    obtain ⟨n, hn⟩ := Option.isSome_iff_exists.1 hv
    obtain ⟨ls, rfl, _⟩ := h.exists_cons_of_visited hn
    exact List.mem_cons_self
  | head htakes _ ih =>
    obtain ⟨n, hn, e, he, rfl⟩ := htakes
    obtain ⟨ls, rfl, hls⟩ := h.exists_cons_of_visited hn
    obtain ⟨ms, hsub, hms⟩ := hls.exists_of_mem (List.mem_map.2 ⟨e, he, rfl⟩)
    exact List.mem_cons_of_mem _ (hsub (ih hms))

end Preorder

section Explored

variable (h : g.Explored S) (hfree : CollisionFree S) (hkeys : ∀ q, S q → q.keys = keys)

include h hfree hkeys

theorem Explored.familiar_branches (hp : p.Familiar S) {n : Node α} (hn : g.visited? p.hash = some n) :
    ∀ q ∈ branches n p, q.Familiar S ∧ q.distance < p.distance := by
  intro q hq
  obtain ⟨e, he, rfl⟩ := List.mem_map.1 hq
  exact (h.take hfree hkeys hp hn he).2

/-- Every familiar position has a tree: a branch ends where no rows are left to go. -/
theorem Explored.exists_preorder (hp : p.Familiar S) : ∃ ks, g.Preorder [p] ks := by
  induction hd : p.distance using Nat.strongRecOn generalizing p with
  | ind d ih =>
    subst hd
    cases hn : g.visited? p.hash with
    | none => exact ⟨[], .unvisited hn .nil⟩
    | some n =>
      have hall : ∀ qs : List Position, (∀ q ∈ qs, q.Familiar S ∧ q.distance < p.distance) →
          ∃ ks, g.Preorder qs ks := by
        intro qs hqs
        induction qs with
        | nil => exact ⟨[], .nil⟩
        | cons q qs ihqs =>
          rw [List.forall_mem_cons] at hqs
          obtain ⟨as, ha⟩ := ih q.distance hqs.1.2 hqs.1.1 rfl
          obtain ⟨bs, hb⟩ := ihqs hqs.2
          exact ⟨as ++ bs, ha.append hb⟩
      obtain ⟨ks, hks⟩ := hall (branches n p) (h.familiar_branches hfree hkeys hp hn)
      exact ⟨p.hash :: ks, .visited hn (by rwa [List.append_nil])⟩

/-- With a key, the trees hold the whole tree of a position that has it. -/
theorem Explored.exists_subtree {ps : List Position} {ks : List UInt64} (hps : g.Preorder ps ks)
    (hfamiliar : ∀ p ∈ ps, p.Familiar S) {k : UInt64} (hk : k ∈ ks) :
    ∃ r ls, r.Familiar S ∧ r.hash = k ∧ g.Preorder [r] ls ∧ ls ⊆ ks := by
  induction hps with
  | nil => cases hk
  | unvisited _ _ ih => exact ih (fun p hp => hfamiliar p (List.mem_cons_of_mem _ hp)) hk
  | @visited p ps ks n hn hrest ih =>
    rw [List.forall_mem_cons] at hfamiliar
    rcases List.mem_cons.1 hk with rfl | hk
    · obtain ⟨as, bs, rfl, ha, _⟩ := hrest.exists_append
      refine ⟨p, p.hash :: as, hfamiliar.1, rfl, .visited hn (by rwa [List.append_nil]), ?_⟩
      exact List.cons_subset_cons _ (List.subset_append_left _ _)
    · have hbranches : ∀ q ∈ branches n p ++ ps, q.Familiar S := by
        intro q hq
        rcases List.mem_append.1 hq with hq | hq
        · exact (h.familiar_branches hfree hkeys hfamiliar.1 hn q hq).1
        · exact hfamiliar.2 q hq
      obtain ⟨r, ls, hr, hkey, hls, hsub⟩ := ih hbranches hk
      exact ⟨r, ls, hr, hkey, hls, List.subset_cons_of_subset _ hsub⟩

end Explored

end Graph

/-! ## The walk -/

section Lists

variable {l ks : List UInt64}

theorem eraseDups_of_nodup (h : l.Nodup) : l.eraseDups = l := by
  induction l with
  | nil => rfl
  | cons a l ih =>
    obtain ⟨ha, hl⟩ := List.nodup_cons.1 h
    have hfilter : (l.filter fun b => !b == a) = l := by
      refine List.filter_eq_self.2 fun b hb => ?_
      have hne : b ≠ a := fun hba => ha (hba ▸ hb)
      simp [hne]
    rw [List.eraseDups_cons, hfilter, ih hl]

/-- Nothing is added to a list that has it all. -/
theorem eraseDups_append_of_subset (h : l.Nodup) (hks : ks ⊆ l) : (l ++ ks).eraseDups = l := by
  have hnone : ks.removeAll l = [] := List.filter_eq_nil_iff.2 fun k hk => by simp [hks hk]
  rw [List.eraseDups_append, eraseDups_of_nodup h, hnone, List.eraseDups_nil, List.append_nil]

theorem eraseDups_append_append {as bs : List UInt64} (h : (l ++ as).eraseDups.Nodup) :
    ((l ++ as).eraseDups ++ bs).eraseDups = (l ++ (as ++ bs)).eraseDups := by
  have hsame : bs.removeAll (l ++ as).eraseDups = bs.removeAll (l ++ as) := by
    refine List.filter_congr fun b _ => ?_
    simp
  rw [← List.append_assoc, List.eraseDups_append, eraseDups_of_nodup h, hsame, ← List.eraseDups_append]

end Lists

namespace Export

open Search.Graph

variable {g : Graph α} {limit d : Nat} {keys : KeyTable} {p : Position} {t : Trace α}

/-- Recorded keys are different keys of nodes, so as long as one is missing there is room for it. -/
theorem Trace.Tidy.size_lt (ht : t.Tidy g limit) (h : g.Indexed) {n : Node α} {k : UInt64}
    (hn : g.visited? k = some n) (hk : k ∉ t.keys) : t.records.size < g.size := by
  have hnodup : (k :: t.keys).Nodup := List.nodup_cons.2 ⟨hk, ht.nodup⟩
  have hplace : ∀ j ∈ k :: t.keys, ∃ id < g.size, (g.node id).key = j := by
    intro j hj
    have hvisited : ∃ m, g.visited? j = some m := by
      rcases List.mem_cons.1 hj with rfl | hj
      · exact ⟨n, hn⟩
      · obtain ⟨r, hr, rfl⟩ := List.mem_map.1 hj
        obtain ⟨m, hm, _⟩ := ht.nodes r hr
        exact ⟨m, hm⟩
    obtain ⟨m, hm⟩ := hvisited
    obtain ⟨id, hid, _⟩ := visited?_eq_some.1 hm
    exact ⟨id, (h _ _).1 hid⟩
  have hsub : (k :: t.keys) ⊆ (List.range g.size).map fun id => (g.node id).key := by
    intro j hj
    obtain ⟨id, hid, rfl⟩ := hplace j hj
    exact List.mem_map.2 ⟨id, List.mem_range.2 hid, rfl⟩
  have hlength := (List.subperm_of_subset hnodup hsub).length_le
  simp only [List.length_cons, Trace.keys, List.length_map, Array.length_toList, List.length_range] at hlength
  exact hlength

/-- Where a familiar position closer to the end than `d` has been recorded, so has its whole tree. -/
def Settled (S : Position → Prop) (g : Graph α) (d : Nat) (ks : List UInt64) : Prop :=
  ∀ q ls, q.Familiar S → q.distance < d → q.hash ∈ ks → g.Preorder [q] ls → ls ⊆ ks

/-- From a tidy and settled trace, `enter` adds the keys of a tree that are missing, in their order. -/
def Completes (S : Position → Prop) (g : Graph α) (limit d : Nat)
    (enter : Position → Trace α → Option Error × Position × Trace α) (p : Position) : Prop :=
  ∀ t ks, t.Tidy g limit → Settled S g d t.keys → g.Preorder [p] ks →
    ∃ u, enter p t = (none, p, u) ∧ u.Tidy g limit ∧ Settled S g d u.keys ∧
      u.keys = (t.keys ++ ks).eraseDups

theorem walkEdges_completes {enter : Position → Trace α → Option Error × Position × Trace α}
    (edges : List (Edge α)) (haccepts : ∀ e ∈ edges, p.Accepts e.move)
    (henter : ∀ e ∈ edges, Completes S g limit d enter (p.advance e.move)) {ks : List UInt64}
    (ht : t.Tidy g limit) (hsettled : Settled S g d t.keys)
    (hks : g.Preorder (edges.map fun e => p.advance e.move) ks) :
    ∃ u, walkEdges enter edges p t = (none, p, u) ∧ u.Tidy g limit ∧ Settled S g d u.keys ∧
      u.keys = (t.keys ++ ks).eraseDups := by
  induction edges generalizing t ks with
  | nil =>
    cases hks
    refine ⟨t, rfl, ht, hsettled, ?_⟩
    rw [List.append_nil, eraseDups_of_nodup ht.nodup]
  | cons e edges ih =>
    rw [List.forall_mem_cons] at haccepts henter
    rw [List.map_cons, ← List.singleton_append] at hks
    obtain ⟨as, bs, rfl, ha, hb⟩ := hks.exists_append
    obtain ⟨u, hu, hut, hus, hkeysu⟩ := henter.1 t as ht hsettled ha
    obtain ⟨v, hv, hvt, hvs, hkeysv⟩ := ih haccepts.2 henter.2 hut hus hb
    refine ⟨v, ?_, hvt, hvs, ?_⟩
    · rw [walkEdges_cons_of_enter haccepts.1 hu, hv]
    · rw [hkeysv, hkeysu, eraseDups_append_append (hkeysu ▸ hut.nodup)]

section Explored

variable (h : g.Explored S) (hfree : CollisionFree S) (hkeys : ∀ q, S q → q.keys = keys)

include hfree hkeys in
/-- A branch does not lead back, so a new key leaves what is closer to the end settled. -/
theorem Settled.push {ks : List UInt64} (hsettled : Settled S g d ks) (hp : p.Familiar S)
    (hd : p.distance < d) : Settled S g p.distance (ks ++ [p.hash]) := by
  intro q ls hq hcloser hmem hls
  rcases List.mem_append.1 hmem with hmem | hmem
  · exact List.subset_append_of_subset_left _ (hsettled q ls hq (hcloser.trans hd) hmem hls)
  · have halike := hq.alike hfree hkeys hp (List.mem_singleton.1 hmem)
    rw [halike.distance_eq] at hcloser
    exact absurd hcloser (Nat.lt_irrefl _)

include h hfree hkeys in
/-- A tree that has been added is settled. -/
theorem Settled.tree {ks ls : List UInt64} (hsettled : Settled S g d ks) (hp : p.Familiar S)
    (hls : g.Preorder [p] ls) : Settled S g d (ks ++ ls).eraseDups := by
  intro q ms hq hcloser hmem hms k hk
  rw [List.mem_eraseDups, List.mem_append] at hmem ⊢
  rcases hmem with hmem | hmem
  · exact .inl (hsettled q ms hq hcloser hmem hms hk)
  · obtain ⟨r, rs, hr, hkey, hrs, hsub⟩ :=
      h.exists_subtree hfree hkeys hls (List.forall_mem_singleton.2 hp) hmem
    have halike : List.Forall₂ Alike [q] [r] := .cons (hq.alike hfree hkeys hr hkey.symm) .nil
    rw [hms.unique halike hrs] at hk
    exact .inr (hsub hk)

include h hfree hkeys in
/-- **The walk from a familiar position adds the tree of the position**, on a limit that no graph of its size
reaches too early. -/
theorem visit_completes (hlimit : g.size ≤ limit) (hp : p.Familiar S) (hd : p.distance < d) :
    Completes S g limit d (fun q => visit g limit (maxPly - q.depth) q) p := by
  induction hn : p.distance using Nat.strongRecOn generalizing p d with
  | ind dist ih =>
    subst hn
    intro t ks ht hsettled hks
    simp only [visit_room]
    cases hnode : g.visited? p.hash with
    | none =>
      -- nothing is recorded of a position that has not been visited
      obtain rfl := hks.eq_nil_of_unvisited hnode
      rw [List.append_nil, eraseDups_of_nodup ht.nodup]
      by_cases hstop : limit ≤ t.records.size ∨ p.hash ∈ t.seen
      · exact ⟨t, visitWith_of_stop hstop, ht, hsettled, rfl⟩
      · obtain ⟨hroom, hnew⟩ := not_or.1 hstop
        refine ⟨⟨t.seen.insert p.hash, t.records⟩, ?_, ?_, hsettled, rfl⟩
        · rw [visitWith_of_new (Nat.lt_of_not_le hroom) hnew, hnode]
        · exact Notes.tidy (.mark (Nat.lt_of_not_le hroom) hnew hnode) ht
    | some n =>
      by_cases hmem : p.hash ∈ t.keys
      · -- its tree has been recorded before
        refine ⟨t, visitWith_of_stop (.inr (ht.seen _ hmem)), ht, hsettled, ?_⟩
        rw [eraseDups_append_of_subset ht.nodup (hsettled p ks hp hd hmem hks)]
      · have hroom := (ht.size_lt h.indexed hnode hmem).trans_le hlimit
        have hnew : p.hash ∉ t.seen := fun hseen => hmem (ht.recorded _ hseen (by rw [hnode]; rfl))
        obtain ⟨ls, rfl, hls⟩ := hks.exists_cons_of_visited hnode
        rw [visitWith_of_new hroom hnew, hnode]
        have htake := fun e he => h.take hfree hkeys hp hnode (e := e) he
        have hpush := Trace.keys_push t (t.seen.insert p.hash) ⟨p.hash, n.visits, n.edges.toList⟩
        have henter : ∀ e ∈ n.taken, Completes S g limit p.distance
            (fun q => visit g limit (maxPly - q.depth) q) (p.advance e.move) :=
          fun e he => ih _ (htake e he).2.2 (htake e he).2.1 (htake e he).2.2 rfl
        obtain ⟨u, hu, hut, _, hkeysu⟩ := walkEdges_completes n.taken (fun e he => (htake e he).1) henter
          (Notes.tidy (.record hroom hnew hnode) ht)
          (by rw [hpush]; exact hsettled.push hfree hkeys hp hd) hls
        rw [hpush, List.append_assoc, List.singleton_append] at hkeysu
        refine ⟨u, hu, hut, ?_, hkeysu⟩
        rw [hkeysu]
        exact hsettled.tree h hfree hkeys hp hks

end Explored

end Export

/-! ## Graphs that searches have built -/

namespace Engine

variable [Score α] [Confidence α] [RandomSource σ] {keys : KeyTable} {p : Position}

/-- **The records of a searched graph are complete.** An engine that starts without a graph is asked for
searches of games, new settings and resets in any order. No visit counter wraps, and the hashes, all with the
same keys, tell the positions of a set apart that has all positions met and the one the records are asked from.
Then a limit that is not below the size of the graph lets the collection succeed, and the keys of the records are
those of the tree of taken edges, each in the first place where it appears in depth-first order. They are exactly
the keys of visited nodes that taken edges lead to, and none appears twice. -/
theorem searches_records_complete (e : Engine α σ) (hempty : e.graph = .empty) (requests : List (Request α))
    (hfree : Position.CollisionFree S) (hkeys : ∀ q, S q → q.keys = keys)
    (hgame : ∀ c ∈ e.searches requests, c.2.Game) (hwrap : ∀ c ∈ e.searches requests, c.1.NoWrap c.2)
    (hmet : ∀ c ∈ e.searches requests, ∀ q ∈ c.1.met c.2, S q) (hp : p.Game) (hS : S p) {limit : Nat}
    (hlimit : (e.serveAll requests).graph.size ≤ limit) :
    let g := (e.serveAll requests).graph
    ∃ rs ks, g.records p limit = (.ok rs, p) ∧ g.Preorder [p] ks ∧
      rs.map Record.key = ks.eraseDups ∧ (rs.map Record.key).Nodup ∧
      ∀ k, k ∈ rs.map Record.key ↔
        ∃ q, Relation.ReflTransGen g.Takes p q ∧ q.hash = k ∧ (g.visited? k).isSome = true := by
  intro g
  have hsolvent : e.graph.Solvent := hempty ▸ Graph.solvent_empty
  have hsound : e.graph.Sound S := hempty ▸ Graph.sound_empty
  have hexplored : g.Explored S :=
    ⟨(solvent_searches requests hsolvent hwrap).1.indexed,
      (e.serveAll_of_sound requests hsound hfree hgame hwrap hmet).1,
      trodden_serveAll requests hsolvent hsound hfree hgame hwrap hmet (hempty ▸ Graph.trodden_empty)⟩
  have hfamiliar : p.Familiar S := ⟨hp, p, hS, ⟨rfl, rfl, rfl, rfl, rfl, rfl⟩⟩
  obtain ⟨ks, hks⟩ := hexplored.exists_preorder hfree hkeys hfamiliar
  obtain ⟨t, hvisit, htidy, _, hkeyst⟩ := Export.visit_completes hexplored hfree hkeys hlimit hfamiliar
    (Nat.lt_succ_self _) .empty ks Export.Trace.tidy_empty (fun _ _ _ _ hmem => by cases hmem) hks
  refine ⟨t.records.toList, ks, ?_, hks, hkeyst, htidy.nodup, ?_⟩
  · exact Prod.ext (Graph.records_eq_ok.2 ⟨t, rfl, hvisit⟩) (Graph.records_position g p limit)
  · intro k
    change k ∈ t.keys ↔ _
    rw [hkeyst, List.mem_eraseDups]
    constructor
    · intro hk
      obtain ⟨_, hmem, hreach⟩ := hks.exists_reach hk
      rwa [List.mem_singleton.1 hmem] at hreach
    · rintro ⟨q, hreach, rfl, hv⟩
      exact Graph.Preorder.mem_of_reach hreach hks hv

/-- One iteration from the start, whose record is then among those asked from it. -/
theorem searches_records_complete_start :
    let e : Engine Float ChaCha := .new ⟨1, 1.4, 1, none⟩ (.ofSeed 0) .empty
    let g := (e.serveAll [.search .bitStart]).graph
    e.NoWrap .bitStart ∧ ∃ rs, g.records .bitStart g.size = (.ok rs, .bitStart) ∧
      (rs.map Record.key).Nodup ∧ Position.bitStart.hash ∈ rs.map Record.key := by
  intro e g
  obtain ⟨hwrap, hmet, m, hok⟩ := choose_bitStart (e := e) rfl rfl
  have hkeys : ∀ q : Position, q.NearBitStart → q.keys = Position.bitStart.keys := by
    rintro q (rfl | ⟨m, _, rfl⟩)
    · rfl
    · rfl
  obtain ⟨rs, _, hrecords, _, _, hnodup, hreached⟩ := searches_records_complete e rfl [.search .bitStart]
    Position.collisionFree_nearBitStart hkeys (List.forall_mem_singleton.2 Position.game_bitStart)
    (List.forall_mem_singleton.2 hwrap) (List.forall_mem_singleton.2 hmet) Position.game_bitStart
    (.inl rfl) (Nat.le_refl _)
  have hvisited : (g.visited? Position.bitStart.hash).isSome = true :=
    isSome_visited?_choose Graph.solvent_empty hwrap hok
  exact ⟨hwrap, rs, hrecords, hnodup, (hreached _).2 ⟨_, .refl, rfl, hvisited⟩⟩

end Engine

end Search

end Breakthrough
