import Mathlib.Data.List.Induction
import Std.Data.HashMap.Lemmas
import Breakthrough.Search.Graph

/-!
# What a search may do to the graph

A graph only grows while it is searched: a node that has been visited keeps its key, stays visited and
keeps the moves of its edges, and the index forgets no key. `Graph.Extends` says this of two graphs; every
update of a search is shown to be of this kind. Visit counters are machine words, so the one update that
needs a hypothesis is a visit to a node whose counter is about to wrap.

The nodes and the index are two tables that have to agree. `Graph.Indexed` says that they do, and
`Graph.updateAll_empty` what this is worth to a caller who keeps the numbers of nodes.
-/

namespace Breakthrough.Search

variable {α : Type}

namespace Node

/-- The moves of a node's edges, in their order. -/
def moves (n : Node α) : List Move := n.edges.toList.map Edge.move

/-- A visited node keeps what a search relies on. -/
def Extends (n n' : Node α) : Prop :=
  n.isVisited = true → n'.isVisited = true ∧ n'.key = n.key ∧ n'.moves = n.moves

theorem getElem?_moves (n : Node α) (i : Nat) : n.moves[i]? = n.edges[i]?.map Edge.move := by
  rw [moves, List.getElem?_map, Array.getElem?_toList]

theorem moves_eq_nil (n : Node α) : n.moves = [] ↔ n.edges = #[] := by
  rw [moves, List.map_eq_nil_iff, Array.toList_eq_nil_iff]

theorem isTerminal_iff (n : Node α) : n.isTerminal = true ↔ n.isVisited = true ∧ n.moves = [] := by
  rw [isTerminal, Bool.and_eq_true, Array.isEmpty_iff, moves_eq_nil]

theorem isVisited_iff (n : Node α) : n.isVisited = true ↔ 0 < n.visits.toNat := by
  rw [isVisited, decide_eq_true_iff, UInt32.lt_iff_toNat_lt]
  rfl

/-- A visit keeps a node visited unless its counter wraps. -/
theorem extends_visit {n : Node α} (h : n.visits.toNat + 1 < UInt32.size) : n.Extends n.visit := by
  intro _
  refine ⟨?_, rfl, rfl⟩
  rw [isVisited_iff, visit, UInt32.toNat_add, UInt32.toNat_one, Nat.mod_eq_of_lt h]
  exact Nat.succ_pos _

/-! ## Choosing an edge -/

theorem preferred_lt [Score α] [Confidence α] {edges : Array (Edge α)} (visits : UInt32)
    (exploration : α) (h : edges ≠ #[]) : preferred edges visits exploration < edges.size := by
  unfold preferred
  extract_lets step
  -- the place that the scan holds is always the place of an edge
  refine List.foldlRecOn (motive := fun best => best.1 < edges.size) _ step ?_ ?_
  · exact Array.size_pos_iff.2 h
  · intro best hbest e he
    unfold step
    simp only
    split
    · have := List.snd_lt_of_mem_zipIdx he
      simpa using this
    · exact hbest

/-- The place of the first edge with the most visits. -/
def IsMostVisited (n : Node α) (i : Nat) (e : Edge α) : Prop :=
  n.edges[i]? = some e ∧
    ∀ j f, n.edges[j]? = some f → f.visits ≤ e.visits ∧ (j < i → f.visits < e.visits)

/-- What a scan for the most visited edge knows when it has seen some edges. -/
def Seen (l : List (Edge α)) : Option (Nat × UInt32) → Prop
  | none => l = []
  | some (i, v) => ∃ e, l[i]? = some e ∧ e.visits = v ∧
      ∀ j f, l[j]? = some f → f.visits ≤ e.visits ∧ (j < i → f.visits < e.visits)

/-- One more edge takes over if it has more visits than the best so far. -/
theorem Seen.concat {l : List (Edge α)} {best : Option (Nat × UInt32)} (e : Edge α) :
    Seen l best → Seen (l ++ [e]) (match best with
      | none => some (l.length, e.visits)
      | some (_, visits) => if visits < e.visits then some (l.length, e.visits) else best) := by
  intro h
  match best with
  | none =>
    have hl : l = [] := h
    subst hl
    refine ⟨e, rfl, rfl, ?_⟩
    intro j f hf
    obtain ⟨rfl, rfl⟩ : j = 0 ∧ e = f := by simpa [List.getElem?_singleton] using hf
    exact ⟨UInt32.le_refl _, fun hj => absurd hj (Nat.lt_irrefl _)⟩
  | some (i, v) =>
    obtain ⟨b, hb, rfl, hmax⟩ := h
    have hi := (List.getElem?_eq_some_iff.1 hb).choose
    have hsplit : ∀ j f, (l ++ [e])[j]? = some f → l[j]? = some f ∨ j = l.length ∧ f = e := by
      intro j f hf
      rw [List.getElem?_append] at hf
      split at hf
      · exact .inl hf
      · rw [List.getElem?_singleton] at hf
        split at hf
        · exact .inr ⟨by omega, (Option.some.inj hf).symm⟩
        · cases hf
    simp only
    split
    · rename_i hlt
      refine ⟨e, List.getElem?_concat_length, rfl, ?_⟩
      intro j f hf
      rcases hsplit j f hf with hf | ⟨rfl, rfl⟩
      · have hfe := UInt32.lt_of_le_of_lt (hmax j f hf).1 hlt
        exact ⟨UInt32.le_of_lt hfe, fun _ => hfe⟩
      · exact ⟨UInt32.le_refl _, fun hj => absurd hj (Nat.lt_irrefl _)⟩
    · rename_i hge
      refine ⟨b, by rw [List.getElem?_append_left hi, hb], rfl, ?_⟩
      intro j f hf
      rcases hsplit j f hf with hf | ⟨rfl, rfl⟩
      · exact hmax j f hf
      · exact ⟨UInt32.not_lt.1 hge, fun hj => absurd hj (by omega)⟩

theorem exists_isMostVisited (n : Node α) (h : n.moves ≠ []) :
    ∃ i e, n.mostVisited? = some i ∧ n.IsMostVisited i e := by
  unfold mostVisited?
  extract_lets step
  have hseen : ∀ l : List (Edge α), Seen l (l.zipIdx.foldl step none) := by
    intro l
    induction l using List.reverseRecOn with
    | nil => rfl
    | append_singleton l e ih =>
      rw [List.zipIdx_append, List.foldl_append]
      simp only [Nat.zero_add, List.zipIdx_singleton, List.foldl_cons, List.foldl_nil]
      exact ih.concat e
  have hres := hseen n.edges.toList
  generalize n.edges.toList.zipIdx.foldl step none = best at hres ⊢
  match best with
  | none => exact absurd (by rw [moves, show n.edges.toList = [] from hres]; rfl) h
  | some (i, v) =>
    obtain ⟨e, he, _, hmax⟩ := hres
    refine ⟨i, e, rfl, by rwa [Array.getElem?_toList] at he, ?_⟩
    intro j f hf
    exact hmax j f (by rwa [Array.getElem?_toList])

end Node

namespace Graph

/-! ## Views of the updates -/

theorem node_modify (g : Graph α) (id : Nat) (f : Node α → Node α) (j : Nat) :
    (g.modify id f).node j = if id = j ∧ j < g.size then f (g.node j) else g.node j := by
  unfold node modify size
  rw [Array.getElem?_modify]
  by_cases hj : j < g.nodes.size
  · by_cases hid : id = j <;> simp [hid, hj]
  · simp [hj]

theorem find?_modify (g : Graph α) (id : Nat) (f : Node α → Node α) (key : UInt64) :
    (g.modify id f).find? key = g.find? key := rfl

theorem size_modify (g : Graph α) (id : Nat) (f : Node α → Node α) :
    (g.modify id f).size = g.size := by
  unfold size modify
  exact Array.size_modify

/-- A node beyond the graph is unvisited. -/
theorem lt_size_of_isVisited {g : Graph α} {id : Nat} (h : (g.node id).isVisited = true) :
    id < g.size := by
  refine Nat.lt_of_not_le fun hle => ?_
  rw [node, Array.getElem?_eq_none hle] at h
  cases h

theorem locate_of_find?_eq_some {g : Graph α} {key : UInt64} {id : Nat} (h : g.find? key = some id) :
    g.locate key = (id, g) := by
  rw [locate, h]

theorem locate_of_find?_eq_none {g : Graph α} {key : UInt64} (h : g.find? key = none) :
    g.locate key = (g.size, ⟨g.nodes.push (.fresh key), g.index.insert key g.size⟩) := by
  rw [locate, h]

theorem size_locate_of_find?_eq_none {g : Graph α} {key : UInt64} (h : g.find? key = none) :
    (g.locate key).2.size = g.size + 1 := by
  rw [locate_of_find?_eq_none h]
  exact Array.size_push _

theorem node_locate (g : Graph α) (key : UInt64) (j : Nat) :
    (g.locate key).2.node j = if g.find? key = none ∧ j = g.size then .fresh key else g.node j := by
  unfold locate
  split
  · rename_i id hfind
    simp [hfind]
  · rename_i hfind
    unfold node size
    rw [Array.getElem?_push]
    by_cases hj : j = g.nodes.size <;> simp [hfind, hj]

theorem find?_locate (g : Graph α) (key k : UInt64) :
    (g.locate key).2.find? k = if key = k then some (g.locate key).1 else g.find? k := by
  unfold locate
  split
  · rename_i id hfind
    by_cases hk : key = k
    · subst hk; simp [hfind]
    · simp [hk]
  · unfold find?
    rw [Std.HashMap.getElem?_insert]
    simp only [beq_iff_eq]

/-! ## Growth -/

/-- What the index and the visited nodes of `g` say stays so in `g'`. -/
structure Extends (g g' : Graph α) : Prop where
  node : ∀ id, (g.node id).Extends (g'.node id)
  index : ∀ key id, g.find? key = some id → g'.find? key = some id

theorem Extends.refl (g : Graph α) : g.Extends g :=
  ⟨fun _ h => ⟨h, rfl, rfl⟩, fun _ _ h => h⟩

theorem Extends.trans {a b c : Graph α} (hab : a.Extends b) (hbc : b.Extends c) : a.Extends c := by
  refine ⟨?_, fun key id h => hbc.index key id (hab.index key id h)⟩
  intro id h
  obtain ⟨hv, hk, hm⟩ := hab.node id h
  obtain ⟨hv', hk', hm'⟩ := hbc.node id hv
  exact ⟨hv', hk'.trans hk, hm'.trans hm⟩

theorem Extends.isTerminal {g g' : Graph α} {id : Nat} (h : g.Extends g') (hid : (g.node id).isTerminal = true) :
    (g'.node id).isTerminal = true := by
  rw [Node.isTerminal_iff] at hid ⊢
  obtain ⟨hv, _, hmoves⟩ := h.node id hid.1
  exact ⟨hv, hmoves.trans hid.2⟩

theorem extends_modify {g : Graph α} {id : Nat} {f : Node α → Node α}
    (h : (g.node id).Extends (f (g.node id))) : g.Extends (g.modify id f) := by
  refine ⟨?_, fun _ _ hkey => hkey⟩
  intro j hj
  rw [node_modify]
  split
  · rename_i hid
    rw [hid.1] at h
    exact h hj
  · exact ⟨hj, rfl, rfl⟩

theorem extends_locate (g : Graph α) (key : UInt64) : g.Extends (g.locate key).2 := by
  constructor
  · intro j hj
    have hlt := lt_size_of_isVisited hj
    rw [node_locate, if_neg (fun h => absurd h.2 (Nat.ne_of_lt hlt))]
    exact ⟨hj, rfl, rfl⟩
  · intro k id hk
    rw [find?_locate]
    split
    · rename_i hkey
      subst hkey
      rw [locate_of_find?_eq_some hk]
    · exact hk

theorem moves_credit [Score α] (n : Node α) (edge : Nat) (reward : α) :
    ({ n with edges := n.edges.modify edge (Edge.credit · reward) } : Node α).moves = n.moves := by
  refine List.ext_getElem? fun i => ?_
  rw [Node.getElem?_moves, Node.getElem?_moves, Array.getElem?_modify]
  split
  · rw [Option.map_map]
    rfl
  · rfl

theorem extends_credit [Score α] (g : Graph α) (id edge : Nat) (reward : α) :
    g.Extends (g.credit id edge reward) :=
  extends_modify fun h => ⟨h, rfl, moves_credit _ edge reward⟩

/-- Whatever is done to an unvisited node, the graph only grows. -/
theorem extends_modify_of_unvisited {g : Graph α} {id : Nat} {f : Node α → Node α}
    (h : (g.node id).isVisited = false) : g.Extends (g.modify id f) :=
  extends_modify fun hv => by rw [h] at hv; cases hv

/-! ## The index -/

/-- The index has the place of every node under the node's key, and nothing else. -/
def Indexed (g : Graph α) : Prop :=
  ∀ key id, g.find? key = some id ↔ id < g.size ∧ (g.node id).key = key

theorem indexed_empty : (empty : Graph α).Indexed := by
  intro key id
  simp [find?, empty, size]

theorem Indexed.modify {g : Graph α} {id : Nat} {f : Node α → Node α} (h : g.Indexed)
    (hkey : (f (g.node id)).key = (g.node id).key) : (g.modify id f).Indexed := by
  intro key j
  have hj : ((g.modify id f).node j).key = (g.node j).key := by
    rw [node_modify]
    split
    · rename_i hid
      rw [← hid.1, hkey]
    · rfl
  rw [find?_modify, size_modify, hj]
  exact h key j

theorem Indexed.locate {g : Graph α} (h : g.Indexed) (key : UInt64) : (g.locate key).2.Indexed := by
  cases hfind : g.find? key with
  | some id => rwa [locate_of_find?_eq_some hfind]
  | none =>
    have hplace : (g.locate key).1 = g.size := by rw [locate_of_find?_eq_none hfind]
    intro k id
    have hnode := node_locate g key id
    rw [find?_locate, hplace, size_locate_of_find?_eq_none hfind]
    by_cases hnew : id = g.size
    · -- the new node has the key that was asked for
      subst hnew
      have hbeyond : ¬ g.find? k = some g.size := fun hk => absurd ((h k _).1 hk).1 (Nat.lt_irrefl _)
      rw [if_pos ⟨hfind, rfl⟩] at hnode
      rw [hnode]
      by_cases hk : key = k <;> simp [hk, hbeyond, Node.fresh]
    · have hlt : id < g.size + 1 ↔ id < g.size := by omega
      rw [if_neg (fun hboth => hnew hboth.2)] at hnode
      rw [hnode, hlt, ← h k id]
      by_cases hk : key = k
      · subst hk
        simp [hfind, Ne.symm hnew]
      · rw [if_neg hk]

theorem find?_locate_self (g : Graph α) (key : UInt64) :
    (g.locate key).2.find? key = some (g.locate key).1 := by
  rw [find?_locate, if_pos rfl]

/-- No two nodes have the same key. -/
theorem Indexed.nodup_keys {g : Graph α} (h : g.Indexed) : (g.nodes.toList.map Node.key).Nodup := by
  have hplace : ∀ i (hi : i < g.nodes.size), g.find? g.nodes[i].key = some i := by
    intro i hi
    refine (h _ i).2 ⟨hi, ?_⟩
    rw [node, Array.getElem?_eq_getElem hi, Option.getD_some]
  rw [List.nodup_iff_pairwise_ne, List.pairwise_iff_getElem]
  intro i j hi hj hij heq
  simp only [List.length_map, Array.length_toList] at hi hj
  simp only [List.getElem_map, Array.getElem_toList] at heq
  have hsame : some i = some j := by rw [← hplace i hi, heq, hplace j hj]
  exact Nat.ne_of_lt hij (Option.some.inj hsame)

/-! ## Every sequence of updates -/

/-- A use of a graph: a key is asked for, all is dropped, or a node gets other visits and edges. -/
inductive Update (α : Type) where
  | locate (key : UInt64)
  | clear
  | rewrite (id : Nat) (visits : UInt32) (edges : Array (Edge α))

/-- The graph after an update. -/
def update (g : Graph α) : Update α → Graph α
  | .locate key => (g.locate key).2
  | .clear => .empty
  | .rewrite id visits edges => g.modify id fun n => { n with visits := visits, edges := edges }

def updateAll (g : Graph α) (updates : List (Update α)) : Graph α := updates.foldl update g

theorem Indexed.update {g : Graph α} (h : g.Indexed) (u : Update α) : (g.update u).Indexed := by
  cases u with
  | locate key => exact h.locate key
  | clear => exact indexed_empty
  | rewrite id visits edges => exact h.modify rfl

theorem Indexed.updateAll {g : Graph α} (h : g.Indexed) (updates : List (Update α)) :
    (g.updateAll updates).Indexed := by
  induction updates generalizing g with
  | nil => exact h
  | cons u rest ih => exact ih (h.update u)

/-- Only a clear takes a key's number away. -/
theorem find?_update {g : Graph α} {u : Update α} {key : UInt64} {id : Nat}
    (h : g.find? key = some id) (hu : u ≠ .clear) : (g.update u).find? key = some id := by
  cases u with
  | locate k => exact (extends_locate g k).index key id h
  | clear => exact absurd rfl hu
  | rewrite => exact h

theorem find?_updateAll {g : Graph α} {updates : List (Update α)} {key : UInt64} {id : Nat}
    (h : g.find? key = some id) (hkept : .clear ∉ updates) :
    (g.updateAll updates).find? key = some id := by
  induction updates generalizing g with
  | nil => exact h
  | cons u rest ih =>
    rw [List.mem_cons, not_or] at hkept
    exact ih (find?_update h (Ne.symm hkept.1)) hkept.2

/-- Whatever has been done to a graph that was empty at first, its keys are distinct and the index has the
number of each, asking for a known key changes nothing, asking for another adds one unvisited node behind
all the others, and the number of a key stays until the next clear. -/
theorem updateAll_empty (updates : List (Update α)) :
    let g := (empty : Graph α).updateAll updates
    (g.nodes.toList.map Node.key).Nodup ∧
      (∀ key id, g.find? key = some id ↔ id < g.size ∧ (g.node id).key = key) ∧
      (∀ key id, g.find? key = some id → g.locate key = (id, g)) ∧
      (∀ key, g.find? key = none →
        (g.locate key).1 = g.size ∧ (g.locate key).2.nodes = g.nodes.push ⟨key, 0, #[]⟩) ∧
      (∀ key id, id < g.size → (g.locate key).2.node id = g.node id) ∧
      (∀ later, .clear ∉ later → ∀ key id, g.find? key = some id →
        (g.updateAll later).find? key = some id ∧ ((g.updateAll later).node id).key = key) := by
  intro g
  have hindexed : g.Indexed := indexed_empty.updateAll updates
  refine ⟨hindexed.nodup_keys, hindexed, fun _ _ => locate_of_find?_eq_some, ?_, ?_, ?_⟩
  · intro key hfind
    rw [locate_of_find?_eq_none hfind]
    exact ⟨rfl, rfl⟩
  · intro key id hid
    rw [node_locate, if_neg (fun h => Nat.ne_of_lt hid h.2)]
  · intro later hkept key id hfind
    have hstays := find?_updateAll hfind hkept
    exact ⟨hstays, ((hindexed.updateAll later key id).1 hstays).2⟩

/-! ## Bounds on the counters -/

/-- No node has been visited more than `n` times. -/
def VisitsLe (g : Graph α) (n : Nat) : Prop := ∀ id, (g.node id).visits.toNat ≤ n

theorem VisitsLe.mono {g : Graph α} {m n : Nat} (h : g.VisitsLe m) (hmn : m ≤ n) : g.VisitsLe n :=
  fun id => Nat.le_trans (h id) hmn

theorem VisitsLe.modify {g : Graph α} {n id : Nat} {f : Node α → Node α} (h : g.VisitsLe n)
    (hf : (f (g.node id)).visits.toNat ≤ n) : (g.modify id f).VisitsLe n := by
  intro j
  rw [node_modify]
  split
  · rename_i hj
    rw [← hj.1]
    exact hf
  · exact h j

theorem VisitsLe.visit {g : Graph α} {n : Nat} (h : g.VisitsLe n) (id : Nat) :
    (g.modify id Node.visit).VisitsLe (n + 1) := by
  refine (h.mono (Nat.le_succ n)).modify ?_
  rw [Node.visit, UInt32.toNat_add]
  exact Nat.le_trans (Nat.mod_le _ _) (Nat.succ_le_succ (h id))

theorem VisitsLe.locate {g : Graph α} {n : Nat} (h : g.VisitsLe n) (key : UInt64) :
    (g.locate key).2.VisitsLe n := by
  intro j
  rw [node_locate]
  split
  · exact Nat.zero_le n
  · exact h j

theorem visitsLe_empty (n : Nat) : (empty : Graph α).VisitsLe n := fun _ => Nat.zero_le n

end Graph

end Breakthrough.Search
