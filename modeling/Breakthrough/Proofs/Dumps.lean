import Breakthrough.Proofs.Agents
import Breakthrough.Proofs.Counters
import Breakthrough.Proofs.Coverage

/-!
# Dumps of searched positions

What a search of a game leaves behind can be written down from the position it was asked about: the collection of
records cannot fail, it begins with the record of that position, and the record has been visited once more than
there were iterations. The last is due to the way that the pawns have left, which gets shorter with every move: no
position below the root is the root again.
-/

namespace Breakthrough

open Position

/-- Legal moves may lead from `p` to `q`: the keys are the same, and the moves that were made shortened the way
that is left at least as much. -/
structure Position.Descends (p q : Position) : Prop where
  keys : q.keys = p.keys
  pace : q.depth + q.distance ≤ p.depth + p.distance

/-- The positions of a set that have these keys. -/
def Position.Keyed (S : Position → Prop) (keys : KeyTable) (q : Position) : Prop := S q ∧ q.keys = keys

theorem Position.CollisionFree.keyed {S : Position → Prop} (h : CollisionFree S) (keys : KeyTable) :
    CollisionFree (Keyed S keys) := fun p q hp hq => h p q hp.1 hq.1

theorem Position.Descends.advance {p q : Position} {m : Move} (h : p.Descends q) (hq : q.Consistent)
    (hm : q.isLegal m = true) : p.Descends (q.advance m) := by
  have hshorter := distance_advance_lt ((hq.mem_moves m).1 ((hq.isLegal_iff m).1 hm).2)
  have hpace := h.pace
  exact ⟨h.keys, by rw [depth_advance]; omega⟩

/-- A hash does not come back below a position. -/
theorem Position.Descends.hash_ne {S : Position → Prop} {p q : Position} (h : p.Descends q)
    (hfree : CollisionFree S) (hp : S p) (hq : S q) (hdeeper : p.depth < q.depth) : q.hash ≠ p.hash := by
  intro hhash
  have hboard := (hfree q p hq hp hhash).1
  have hdistance : q.distance = p.distance := by rw [Position.distance, Position.distance, hboard]
  have hpace := h.pace
  omega

namespace Search

variable {α σ : Type} [Score α] [Confidence α] [RandomSource σ] {S : Position → Prop} {p : Position}

omit [RandomSource σ] in
theorem Station.Sound.descends_walk {s : Station α σ} (hs : s.Sound S) (hfree : CollisionFree S)
    (hmet : ∀ t ∈ s.walk, S t.position) : ∀ t ∈ s.walk, s.position.Descends t.position := by
  refine walk_induction s ⟨rfl, Nat.le_refl _⟩ ?_
  intro u hu t hnext ih
  have hu' := hs.walk hfree hmet u hu
  obtain ⟨edge, hleaf, hedge, _, rfl⟩ := next?_eq_some hnext
  exact ih.advance hu'.game.consistent (hu'.isLegal_edge hfree hleaf hedge)

/-- The dump is one of the position: it has up to `limit` records, and the first is that of the position, with one
visit more than `iterations` at least. -/
structure Dump.Shows (d : Dump α) (p : Position) (iterations limit : Nat) : Prop where
  ply : d.ply = p.ply
  root : d.root = p.hash
  length_pos : 1 ≤ d.nodes.length
  length_le : d.nodes.length ≤ limit
  head : ∃ r, d.nodes.head? = some r ∧ r.key = p.hash ∧ iterations + 1 ≤ r.visits.toNat

namespace Engine

theorem descends_iterationStations (n : Nat) (e : Engine α σ) (root : Nat) (hpath : e.path = [])
    (hsound : (Station.mk e p root).Sound S) (hv : (e.graph.node root).isVisited = true)
    (hfree : CollisionFree S) (hroom : ∀ s ∈ iterationStations n e p root, s.HasRoom)
    (hmet : ∀ s ∈ iterationStations n e p root, S s.position) :
    ∀ s ∈ iterationStations n e p root, p.Descends s.position := by
  induction n generalizing e with
  | zero => simp [iterationStations]
  | succ n ih =>
    unfold iterationStations at hroom hmet ⊢
    have hroom₁ := fun s hs => hroom s (List.mem_append_left _ hs)
    have hmet₁ := fun s hs => hmet s (List.mem_append_left _ hs)
    obtain ⟨e₁, hit, hpath₁, hsound₁⟩ := iterate_of_sound e root hpath hsound hfree hroom₁ hmet₁
    have hgrown := extends_iterate e p root hroom₁
    rw [hit] at hgrown hroom hmet ⊢
    obtain ⟨hv₁, hkey₁, _⟩ := hgrown.node root hv
    have hstation : (Station.mk e₁ p root).Sound S :=
      ⟨hsound₁, hsound.met, hsound.game, hkey₁.trans hsound.key⟩
    intro s hs
    rcases List.mem_append.1 hs with hs | hs
    · exact hsound.descends_walk hfree hmet₁ s hs
    · exact ih e₁ hpath₁ hstation hv₁ (fun s hs => hroom s (List.mem_append_right _ hs))
        (fun s hs => hmet s (List.mem_append_right _ hs)) s hs

/-- A search of a game meets what legal moves lead to. -/
theorem descends_met (e : Engine α σ) (h : p.Game) (hsound : e.graph.Sound S) (hfree : CollisionFree S)
    (hwrap : e.NoWrap p) (hmet : ∀ q ∈ e.met p, S q) : ∀ q ∈ e.met p, p.Descends q := by
  unfold NoWrap stations at hwrap
  unfold met stations at hmet ⊢
  cases hlost : p.isLost with
  | true => simp
  | false =>
    simp only [hlost, Bool.false_eq_true, if_false, List.forall_mem_cons, List.forall_mem_map] at hwrap hmet ⊢
    obtain ⟨e₁, hroot, hstation, hv, _, hpath⟩ := e.enterRoot_of_sound h hmet.1 hsound
    rw [hroot] at hwrap hmet ⊢
    refine ⟨⟨rfl, Nat.le_refl _⟩, ?_⟩
    exact descends_iterationStations _ e₁ _ hpath hstation hv hfree hwrap hmet.2

/-! ## A search and its dump -/

/-- What an engine needs to be asked again: its graph has no debts, describes positions of the set, and its edges
do not leave the set. -/
structure Kept (S : Position → Prop) (e : Engine α σ) : Prop where
  solvent : e.graph.Solvent
  sound : e.graph.Sound S
  trodden : e.graph.Trodden S

omit [Score α] [Confidence α] [RandomSource σ] in
theorem kept_of_empty {e : Engine α σ} (h : e.graph = .empty) : e.Kept S :=
  ⟨h ▸ Graph.solvent_empty, h ▸ Graph.sound_empty, h ▸ Graph.trodden_empty⟩

/-- All positions that a search meets have the keys of its root. -/
theorem Kept.keyed_met {e : Engine α σ} (he : e.Kept (Keyed S p.keys)) (h : p.Game) (hfree : CollisionFree S)
    (hwrap : e.NoWrap p) (hmet : ∀ q ∈ e.met p, S q) : ∀ q ∈ e.met p, Keyed S p.keys q := by
  have hsound := he.sound.mono fun q (hq : Keyed S p.keys q) => hq.1
  exact fun q hq => ⟨hmet q hq, (e.descends_met h hsound hfree hwrap hmet q hq).keys⟩

/-- A search answers with a legal move, leaves the engine fit for the next one, and has visited the position once
more than there were iterations, or more often. -/
theorem Kept.choose {e : Engine α σ} (he : e.Kept S) (h : p.Game) (hlost : p.isLost = false)
    (hfree : CollisionFree S) (hwrap : e.NoWrap p) (hmet : ∀ q ∈ e.met p, S q) :
    ∃ m lines e', e.choose p = (.ok m, lines, e', p) ∧ p.isLegal m = true ∧ e'.Kept S ∧ e'.config = e.config ∧
      ∃ node, e'.graph.visited? p.hash = some node ∧ e.config.iterations < node.visits.toNat := by
  obtain ⟨hsound, hanswer⟩ := e.choose_of_sound h he.sound hfree hwrap hmet
  obtain ⟨m, hok, hlegal, _⟩ := hanswer hlost
  have hposition := position_of_choose_ok hwrap hok
  have hp : S p := hmet p (by simp [met, hlost])
  have honce : ∀ q ∈ e.met p, p.depth < q.depth → q.hash ≠ p.hash := fun q hq hdeeper =>
    (e.descends_met h he.sound hfree hwrap hmet q hq).hash_ne hfree hp (hmet q hq) hdeeper
  obtain ⟨node, hnode, hagain, hfirst⟩ := choose_root he.solvent hwrap hok honce
  refine ⟨m, (e.choose p).2.1, (e.choose p).2.2.1, ?_, hlegal, ⟨?_, hsound, ?_⟩, ?_, node, hnode, ?_⟩
  · exact Prod.ext hok (Prod.ext rfl (Prod.ext rfl hposition))
  · exact (conserves_choose he.solvent hwrap).solvent he.solvent
  · exact trodden_choose h he.solvent he.sound hfree hwrap hmet he.trodden
  · exact config_choose he.solvent hwrap hok
  · cases hbefore : e.graph.visited? p.hash with
    | none => have := hfirst hbefore; omega
    | some before =>
      have hvisits := hagain before hbefore
      obtain ⟨_, _, rfl, hv⟩ := Graph.visited?_eq_some.1 hbefore
      have hpos := (Node.isVisited_iff _).1 hv
      omega

omit [Score α] [Confidence α] [RandomSource σ] in
/-- The graph of a visited position can be written out with every limit. -/
theorem Kept.dump {e : Engine α σ} {keys : KeyTable} {node : Node α} {iterations limit : Nat}
    (he : e.Kept (Keyed S keys)) (h : p.Game) (hfree : CollisionFree S) (hp : Keyed S keys p)
    (hnode : e.graph.visited? p.hash = some node) (hvisits : iterations < node.visits.toNat) (hlimit : 0 < limit) :
    ∃ d, e.graph.dump p limit = (.ok d, p) ∧ d.Shows p iterations limit := by
  have hexplored : e.graph.Explored (Keyed S keys) := ⟨he.solvent.indexed, he.sound, he.trodden⟩
  have hfamiliar : p.Familiar (Keyed S keys) := ⟨h, p, hp, ⟨rfl, rfl, rfl, rfl, rfl, rfl⟩⟩
  have hkeys : ∀ q, Keyed S keys q → q.keys = keys := fun q hq => hq.2
  obtain ⟨ks, hks⟩ := hexplored.exists_preorder (hfree.keyed keys) hkeys hfamiliar
  -- without a limit that matters the walk is complete; a smaller limit gives the beginning
  obtain ⟨t, hvisit, _⟩ := Export.visit_completes hexplored (hfree.keyed keys) hkeys (Nat.le_max_left _ limit)
    hfamiliar (Nat.lt_succ_self _) .empty ks Export.Trace.tidy_empty (fun _ _ _ _ hmem => by cases hmem) hks
  have hall := Graph.records_eq_ok.2 ⟨t, rfl, hvisit⟩
  have hsome := Graph.records_take (Nat.le_max_right e.graph.size limit) hall
  have hlength : (t.records.toList.take limit).length ≤ limit := List.length_take_le _ _
  generalize t.records.toList.take limit = rs at hsome hlength
  have hhead := Graph.records_head? hsome hnode hlimit
  have hrecords : e.graph.records p limit = (.ok rs, p) := Prod.ext hsome (Graph.records_position e.graph p limit)
  refine ⟨⟨p.ply, p.hash, rs⟩, ?_, rfl, rfl, ?_, hlength, _, hhead, rfl, hvisits⟩
  · rw [Graph.dump, hrecords]
    rfl
  · refine List.length_pos_of_ne_nil fun hnil => ?_
    rw [show rs = [] from hnil] at hhead
    cases hhead

end Engine

end Search

end Breakthrough
