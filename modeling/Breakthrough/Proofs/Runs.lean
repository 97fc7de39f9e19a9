import Breakthrough.Proofs.Soundness

/-!
# Runs of an engine

An engine keeps its graph from one search to the next, whatever the positions are that it is asked about, until
it is reset; its settings may change in between. The theorem of this module follows an engine from its creation
through any such run (`searches_sound`).
-/

namespace Breakthrough.Search

/-- What an engine is asked to do between its creation and its end. -/
inductive Request (α : Type) where
  | search (p : Position)
  | configure (config : Config α)
  | reset

variable {α σ : Type} [Score α] [Confidence α] [RandomSource σ] {S : Position → Prop}

namespace Engine

def serve (e : Engine α σ) : Request α → Engine α σ
  | .search p => (e.choose p).2.2.1
  | .configure config => { e with config }
  | .reset => e.reset

/-- The engine after some requests. -/
def serveAll (e : Engine α σ) (requests : List (Request α)) : Engine α σ := requests.foldl serve e

/-- The searches of a run, each with the engine that makes it. -/
def searches : Engine α σ → List (Request α) → List (Engine α σ × Position)
  | _, [] => []
  | e, .search p :: requests => (e, p) :: searches (e.serve (.search p)) requests
  | e, .configure config :: requests => searches (e.serve (.configure config)) requests
  | e, .reset :: requests => searches (e.serve .reset) requests

/-- The graphs of a run: between the requests and at all stations. -/
def timeline : Engine α σ → List (Request α) → List (Graph α)
  | e, [] => [e.graph]
  | e, .search p :: requests => e.graphsAlong p ++ timeline (e.serve (.search p)) requests
  | e, .configure config :: requests => e.graph :: timeline (e.serve (.configure config)) requests
  | e, .reset :: requests => e.graph :: timeline (e.serve .reset) requests

theorem searches_append (e : Engine α σ) (before after : List (Request α)) :
    e.searches (before ++ after) = e.searches before ++ (e.serveAll before).searches after := by
  induction before generalizing e with
  | nil => rfl
  | cons r before ih => cases r <;> simp [searches, ih, serveAll]

theorem timeline_eq_cons (e : Engine α σ) (requests : List (Request α)) :
    ∃ graphs, e.timeline requests = e.graph :: graphs := by
  cases requests with
  | nil => exact ⟨[], rfl⟩
  | cons r requests => cases r <;> exact ⟨_, rfl⟩

/-- While the engine is not reset, its graph only grows. -/
theorem growing_timeline (e : Engine α σ) (requests : List (Request α)) (hreset : .reset ∉ requests)
    (hwrap : ∀ c ∈ e.searches requests, c.1.NoWrap c.2) : Growing (e.timeline requests) := by
  induction requests generalizing e with
  | nil => exact List.pairwise_singleton _ _
  | cons r requests ih =>
    have hrest := fun e' : Engine α σ => ih e' (List.not_mem_of_not_mem_cons hreset)
    obtain ⟨graphs, hgraphs⟩ := (e.serve r).timeline_eq_cons requests
    cases r with
    | search p =>
      rw [searches, List.forall_mem_cons] at hwrap
      have hsearch := e.growing_choose p hwrap.1
      have hafter := hrest (e.serve (.search p)) hwrap.2
      rw [timeline]
      rw [hgraphs] at hafter ⊢
      exact hsearch.join hafter
    | configure config =>
      rw [searches] at hwrap
      have hsame : Growing ([e.graph] ++ [(e.serve (.configure config)).graph]) := by
        simp [Growing, serve, Graph.Extends.refl]
      have hafter := hrest (e.serve (.configure config)) hwrap
      rw [timeline]
      rw [hgraphs] at hafter ⊢
      exact hsame.join hafter
    | reset => exact absurd List.mem_cons_self hreset

/-- Every search of a run from a sound graph leaves a sound graph and answers. -/
theorem serveAll_of_sound (e : Engine α σ) (requests : List (Request α)) (hsound : e.graph.Sound S)
    (hfree : Position.CollisionFree S) (hgame : ∀ c ∈ e.searches requests, c.2.Game)
    (hwrap : ∀ c ∈ e.searches requests, c.1.NoWrap c.2)
    (hmet : ∀ c ∈ e.searches requests, ∀ q ∈ c.1.met c.2, S q) :
    (e.serveAll requests).graph.Sound S ∧
    ∀ c ∈ e.searches requests, c.2.isLost = false →
      ∃ m, (c.1.choose c.2).1 = .ok m ∧ (c.1.choose c.2).2.2.1.AnswersBest c.2 m := by
  induction requests generalizing e with
  | nil => exact ⟨hsound, nofun⟩
  | cons r requests ih =>
    rw [serveAll, List.foldl_cons]
    cases r with
    | search p =>
      rw [searches, List.forall_mem_cons] at hgame hwrap hmet ⊢
      obtain ⟨hafter, hanswer⟩ := e.choose_of_sound hgame.1 hsound hfree hwrap.1 hmet.1
      obtain ⟨hend, hrest⟩ := ih (e.serve (.search p)) hafter hgame.2 hwrap.2 hmet.2
      exact ⟨hend, hanswer, hrest⟩
    | configure config =>
      rw [searches] at hgame hwrap hmet ⊢
      exact ih (e.serve (.configure config)) hsound hgame hwrap hmet
    | reset =>
      rw [searches] at hgame hwrap hmet ⊢
      exact ih (e.serve .reset) Graph.sound_empty hgame hwrap hmet

end Engine

end Breakthrough.Search

/-! ## A run that can be followed -/

namespace Breakthrough

namespace Position

/-- Hashes that differ for a position of a game and its successors tell them apart. -/
theorem Game.collisionFree_successors {p : Position} (h : p.Game)
    (hhash : ∀ m, p.isLegal m = true → (p.advance m).hash ≠ p.hash)
    (hinj : ∀ m ∈ p.moves, ∀ n ∈ p.moves, (p.advance m).hash = (p.advance n).hash → m = n) :
    CollisionFree fun q => q = p ∨ ∃ m, p.isLegal m = true ∧ q = p.advance m := by
  have hmem := fun m hm => ((h.consistent.isLegal_iff m).1 hm).2
  rintro q r (rfl | ⟨m, hm, rfl⟩) (rfl | ⟨n, hn, rfl⟩) heq
  · exact ⟨rfl, rfl⟩
  · exact absurd heq.symm (hhash n hn)
  · exact absurd heq (hhash m hm)
  · rw [hinj m (hmem m hm) n (hmem n hn) heq]
    exact ⟨rfl, rfl⟩

/-- A start whose hashes tell it and its successors apart: every key of White's pawns is one bit. -/
def bitStart : Position := startWith ⟨.ofFn fun i => 1 <<< UInt64.ofNat i.val, .replicate 64 0, 0⟩

/-- This start or one of its successors. -/
def NearBitStart (q : Position) : Prop := q = bitStart ∨ ∃ m, bitStart.isLegal m = true ∧ q = bitStart.advance m

theorem game_bitStart : bitStart.Game := .start _

theorem hash_advance_bitStart {m : Move} (h : bitStart.isLegal m = true) :
    (bitStart.advance m).hash ≠ bitStart.hash := by
  have hall : ∀ m ∈ bitStart.moves, (bitStart.advance m).hash ≠ bitStart.hash := by decide +kernel
  exact hall m ((game_bitStart.consistent.isLegal_iff m).1 h).2

theorem collisionFree_nearBitStart : CollisionFree NearBitStart :=
  game_bitStart.collisionFree_successors (fun _ => hash_advance_bitStart) (by decide +kernel)

end Position

namespace Search.Engine

variable {α σ : Type} [Score α] [Confidence α] [RandomSource σ] {S : Position → Prop} {e : Engine α σ} {p : Position}

omit [RandomSource σ] in
/-- Where a key is not in the index, a descent that moves to it ends. -/
theorem next?_follow_eq_none {s : Station α σ} {m : Move}
    (h : s.engine.graph.find? (s.position.advance m).hash = none) : (s.follow m).next? = none := by
  have hnew : (s.counted.graph.locate (s.position.advance m).hash).1 = s.counted.graph.size := by
    simp only [Graph.locate, Station.counted, Graph.find?_modify, h]
  have hfresh : ((s.follow m).engine.graph.node (s.follow m).node).isVisited = false := by
    unfold Station.follow
    simp only [hnew]
    rw [Graph.node_locate, if_pos ⟨h, rfl⟩]
    rfl
  unfold Station.next? Station.isLeaf
  simp only [hfresh, Bool.not_false, Bool.true_or, if_true]

omit [Confidence α] in
theorem find?_enterRoot (e : Engine α σ) (p : Position) (key : UInt64) :
    (e.enterRoot p).2.1.graph.find? key = (e.graph.locate p.hash).2.find? key := by
  have hexpand : ((e.atRoot p).expand p (e.rootOf p)).2.1.graph.find? key =
      (e.graph.locate p.hash).2.find? key := by
    rcases (e.atRoot p).expand_cases p (e.rootOf p) with ⟨err, sampler, _, heq⟩ | ⟨edges, sampler, _, heq⟩
    · rw [heq]
      rfl
    · rw [heq]
      rfl
  rcases e.enterRoot_cases p with ⟨_, heq⟩ | ⟨_, err, e', hexp, heq⟩ | ⟨_, e', hexp, heq⟩
  · rw [heq]
    rfl
  · rw [hexp] at hexpand
    rwa [heq]
  · rw [hexp] at hexpand
    rwa [heq]

/-- The stations of a search of one iteration are those of its descent. -/
theorem stations_of_one_iteration {e e₁ : Engine α σ} {p : Position} {root : Nat} (hlost : p.isLost = false)
    (hroot : e.enterRoot p = (.ok root, e₁, p)) (hconfig : e₁.config.iterations = 1) :
    e.stations p = (Station.mk e₁ p root).walk := by
  rw [stations, hlost, if_neg Bool.false_ne_true, hroot]
  simp only [hconfig, iterationStations]
  split <;> exact List.append_nil _

/-- A search of one iteration that starts without a graph meets the position and one of its successors. -/
theorem met_of_one_iteration {e : Engine α σ} {p : Position} (hgraph : e.graph = .empty)
    (hconfig : e.config.iterations = 1) (h : p.Game)
    (hhash : ∀ m, p.isLegal m = true → (p.advance m).hash ≠ p.hash) :
    ∀ q ∈ e.met p, q = p ∨ ∃ m, p.isLegal m = true ∧ q = p.advance m := by
  have hempty : e.graph.Sound (Eq p) := by rw [hgraph]; exact Graph.sound_empty
  have hfree : Position.CollisionFree (Eq p) := by rintro q r rfl rfl _; exact ⟨rfl, rfl⟩
  obtain ⟨e₁, hroot, hsound, _, _, _⟩ := e.enterRoot_of_sound h rfl hempty
  obtain ⟨_, e₂, hroot', _, hconfig', _, _⟩ := e.enterRoot_keeps p
  rw [hroot] at hroot'
  cases hroot'
  -- the index has no key but the one of the root
  have hindex : ∀ key, key ≠ p.hash → e₁.graph.find? key = none := by
    intro key hkey
    have hfind := e.find?_enterRoot p key
    rw [hroot, hgraph, Graph.find?_locate, if_neg (Ne.symm hkey)] at hfind
    rw [hfind]
    simp [Graph.find?, Graph.empty]
  have hwalk : ∀ s ∈ (Station.mk e₁ p (e.rootOf p)).walk,
      s.position = p ∨ ∃ m, p.isLegal m = true ∧ s.position = p.advance m := by
    cases hnext : (Station.mk e₁ p (e.rootOf p)).next? with
    | none =>
      rw [Station.walk_of_none hnext]
      intro s hs
      rw [List.mem_singleton.1 hs]
      exact .inl rfl
    | some t =>
      obtain ⟨edge, hleaf, hedge, _, rfl⟩ := Station.next?_eq_some hnext
      have hlegal := hsound.isLegal_edge hfree hleaf hedge
      have hend := next?_follow_eq_none (s := ⟨e₁, p, e.rootOf p⟩) (hindex _ (hhash _ hlegal))
      rw [Station.walk_of_some hnext, Station.walk_of_none hend]
      intro s hs
      rcases List.mem_cons.1 hs with rfl | hs
      · exact .inl rfl
      · rw [List.mem_singleton.1 hs]
        exact .inr ⟨edge.move, hlegal, rfl⟩
  intro q hq
  unfold met at hq
  split at hq
  · cases hq
  rename_i hlost
  rw [stations_of_one_iteration (Bool.eq_false_iff.2 hlost) hroot (by rw [hconfig', hconfig])] at hq
  rcases List.mem_cons.1 hq with rfl | hq
  · exact .inl rfl
  · obtain ⟨s, hs, rfl⟩ := List.mem_map.1 hq
    exact hwalk s hs

/-- One iteration without a graph from a position whose hash differs from those of its successors, which differ
from each other. -/
theorem choose_of_one_iteration (hgraph : e.graph = .empty) (hconfig : e.config.iterations = 1) (h : p.Game)
    (hlost : p.isLost = false) (hhash : ∀ m, p.isLegal m = true → (p.advance m).hash ≠ p.hash)
    (hinj : ∀ m ∈ p.moves, ∀ n ∈ p.moves, (p.advance m).hash = (p.advance n).hash → m = n) :
    e.NoWrap p ∧ (∀ q ∈ e.met p, q = p ∨ ∃ m, p.isLegal m = true ∧ q = p.advance m) ∧
      ∃ m, (e.choose p).1 = .ok m := by
  have hwrap : e.NoWrap p := by
    refine noWrap_of_visitsLe e p (Nat.le_refl 1) ?_ (by rw [hconfig]; decide)
    rw [hgraph]
    exact Graph.visitsLe_empty 1
  have hmet := met_of_one_iteration hgraph hconfig h hhash
  obtain ⟨_, hok⟩ := e.choose_of_sound h (hgraph ▸ Graph.sound_empty) (h.collisionFree_successors hhash hinj)
    hwrap hmet
  obtain ⟨m, hm, _⟩ := hok hlost
  exact ⟨hwrap, hmet, m, hm⟩

/-- One iteration from the start without a graph. -/
theorem choose_bitStart (hgraph : e.graph = .empty) (hconfig : e.config.iterations = 1) :
    e.NoWrap .bitStart ∧ (∀ q ∈ e.met .bitStart, q.NearBitStart) ∧ ∃ m, (e.choose .bitStart).1 = .ok m :=
  choose_of_one_iteration hgraph hconfig Position.game_bitStart (by decide +kernel)
    (fun _ => Position.hash_advance_bitStart) (by decide +kernel)

/-! ## Every run -/

/-- **Searches in games are sound.** An engine that starts without a graph is asked for searches, new settings
and resets in any order. If no visit counter wraps and the hashes tell the positions of a set apart that has
all positions met, then

* a visited node has the legal moves of every position of the set with its hash, each of them once;
* from one reset to the next the graph only grows, so that an expanded node keeps its moves in their order;
* every search in an unfinished game succeeds, and its answer is legal and the first of the most visited. -/
theorem searches_sound (config : Config α) (source : σ) (requests : List (Request α))
    (hfree : Position.CollisionFree S)
    (hgame : ∀ c ∈ (new config source .empty : Engine α σ).searches requests, c.2.Game)
    (hwrap : ∀ c ∈ (new config source .empty : Engine α σ).searches requests, c.1.NoWrap c.2)
    (hmet : ∀ c ∈ (new config source .empty : Engine α σ).searches requests, ∀ q ∈ c.1.met c.2, S q) :
    let e : Engine α σ := new config source .empty
    (∀ id, let node := (e.serveAll requests).graph.node id
      node.isVisited = true → (∃ q, S q ∧ q.hash = node.key) ∧
        ∀ q, S q → q.Consistent → q.hash = node.key →
          node.moves.Perm (if q.isLost then [] else q.moves) ∧ node.moves.Nodup ∧
            (node.moves = [] ↔ q.isLost = true)) ∧
    (∀ before after, before ++ after = requests → .reset ∉ after →
      Growing ((e.serveAll before).timeline after)) ∧
    ∀ c ∈ e.searches requests, c.2.isLost = false → ∃ m i edge node,
      (c.1.choose c.2).1 = .ok m ∧ c.2.isLegal m = true ∧
      (c.1.choose c.2).2.2.1.graph.visited? c.2.hash = some node ∧
      node.IsMostVisited i edge ∧ edge.move = m := by
  intro e
  obtain ⟨hsound, hanswers⟩ := e.serveAll_of_sound requests Graph.sound_empty hfree hgame hwrap hmet
  refine ⟨?_, ?_, ?_⟩
  · intro id node hv
    obtain ⟨q₀, hq₀, hcons₀, hkey₀, hperm⟩ := hsound.nodes id hv
    refine ⟨⟨q₀, hq₀, hkey₀⟩, ?_⟩
    intro q hq hcons hkey
    obtain ⟨hboard, hside⟩ := hfree q₀ q hq₀ hq (hkey₀.trans hkey.symm)
    rw [hcons₀.legalMoves_eq hcons hboard hside] at hperm
    refine ⟨hperm, hperm.nodup_iff.2 hcons.nodup_legalMoves, ?_⟩
    rw [← hcons.legalMoves_eq_nil]
    exact ⟨fun h => List.perm_nil.1 (h ▸ hperm).symm, fun h => List.perm_nil.1 (h ▸ hperm)⟩
  · intro before after happend hreset
    refine growing_timeline _ after hreset ?_
    intro c hc
    refine hwrap c ?_
    rw [← happend, searches_append]
    exact List.mem_append_right _ hc
  · intro c hc hlost
    obtain ⟨m, hok, hlegal, node, i, edge, hnode, hbest, hmove⟩ := hanswers c hc hlost
    exact ⟨m, i, edge, node, hok, hlegal, hnode, hbest, hmove⟩

/-- One iteration from the start, and again after a reset. -/
theorem searches_sound_start :
    let config : Config Float := ⟨1, 1.4, 1, none⟩
    let e : Engine Float ChaCha := .new config (.ofSeed 0) .empty
    let searches := e.searches [.search .bitStart, .reset, .configure config, .search .bitStart]
    searches.length = 2 ∧ ∀ c ∈ searches, c.1.NoWrap c.2 ∧
      ∃ m, (c.1.choose c.2).1 = .ok m ∧ Position.bitStart.isLegal m = true := by
  intro config e searches
  -- both searches start without a graph and make one iteration
  have hcalls : ∀ c ∈ searches, c.2 = .bitStart ∧ c.1.NoWrap .bitStart ∧ ∀ q ∈ c.1.met .bitStart, q.NearBitStart := by
    intro c hc
    rcases List.mem_cons.1 hc with rfl | hc
    · obtain ⟨hwrap, hmet, _⟩ := choose_bitStart (e := e) rfl rfl
      exact ⟨rfl, hwrap, hmet⟩
    · rw [List.mem_singleton.1 hc]
      let again := ((e.serve (.search .bitStart)).serve .reset).serve (.configure config)
      obtain ⟨hwrap, hmet, _⟩ := choose_bitStart (e := again) rfl rfl
      exact ⟨rfl, hwrap, hmet⟩
  have hwrap : ∀ c ∈ searches, c.1.NoWrap c.2 := fun c hc => (hcalls c hc).1 ▸ (hcalls c hc).2.1
  obtain ⟨_, _, hanswers⟩ := searches_sound config (ChaCha.ofSeed 0)
    [.search .bitStart, .reset, .configure config, .search .bitStart] Position.collisionFree_nearBitStart
    (fun c hc => (hcalls c hc).1 ▸ Position.game_bitStart) hwrap fun c hc => (hcalls c hc).1 ▸ (hcalls c hc).2.2
  refine ⟨rfl, fun c hc => ?_⟩
  obtain ⟨hp, _, _⟩ := hcalls c hc
  obtain ⟨m, _, _, _, hok, hm, _⟩ := hanswers c hc (by rw [hp]; decide +kernel)
  exact ⟨hwrap c hc, m, hok, hp ▸ hm⟩

end Search.Engine

end Breakthrough
