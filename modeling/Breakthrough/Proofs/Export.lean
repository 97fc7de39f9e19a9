import Std.Data.HashSet.Lemmas
import Breakthrough.Proofs.JsonText
import Breakthrough.Proofs.Line
import Breakthrough.Search.Export

/-!
# Collecting the records of a graph

The walk that collects records is read-only, bounded and free of duplicates on every graph, one with edges
that cannot be played or that lead in circles included.

All that the walk does to a trace is one kind of step, `Notes`: a key that was not seen is marked, and recorded
if its node is visited. The position comes back after each of them, so a walk is a chain of such steps at one
place (`Faithful`), and what one step keeps (`Tidy`, the records so far) the walk keeps. A walk with a smaller
limit collects the beginning of what a larger one collects (`Abridges`): the two run in step until the smaller
one is full, and from then on it collects nothing.
-/

namespace Breakthrough

namespace Search

namespace Export

variable {α : Type} {graph : Graph α} {limit : Nat}

/-! ## What a walk does to a trace -/

/-- One step of a walk: a key that was not seen before is marked, and its node recorded if it is visited. -/
inductive Notes (graph : Graph α) (limit : Nat) (t : Trace α) : Trace α → Prop
  | mark {key : UInt64} : t.records.size < limit → key ∉ t.seen → graph.visited? key = none →
      Notes graph limit t ⟨t.seen.insert key, t.records⟩
  | record {key : UInt64} {node : Node α} : t.records.size < limit → key ∉ t.seen →
      graph.visited? key = some node →
      Notes graph limit t ⟨t.seen.insert key, t.records.push ⟨key, node.visits, node.edges.toList⟩⟩

abbrev Grows (graph : Graph α) (limit : Nat) : Trace α → Trace α → Prop :=
  Relation.ReflTransGen (Notes graph limit)

def Trace.keys (t : Trace α) : List UInt64 := t.records.toList.map Record.key

/-- What holds of a trace at any time: within the limit, no key twice, each record its visited node's, and the
keys of visited nodes recorded where they have been seen. -/
structure Trace.Tidy (graph : Graph α) (limit : Nat) (t : Trace α) : Prop where
  size_le : t.records.size ≤ limit
  nodup : t.keys.Nodup
  seen : ∀ k ∈ t.keys, k ∈ t.seen
  recorded : ∀ k ∈ t.seen, (graph.visited? k).isSome = true → k ∈ t.keys
  nodes : ∀ r ∈ t.records.toList, ∃ node, graph.visited? r.key = some node ∧
    r = ⟨r.key, node.visits, node.edges.toList⟩

theorem Trace.tidy_empty : Trace.empty.Tidy graph limit := by
  refine ⟨Nat.zero_le _, ?_, ?_, ?_, ?_⟩ <;> simp [Trace.empty, Trace.keys]

theorem Trace.keys_push (t : Trace α) (seen : Std.HashSet UInt64) (r : Record α) :
    (Trace.mk seen (t.records.push r)).keys = t.keys ++ [r.key] := by
  rw [keys, keys, Array.toList_push, List.map_append]
  rfl

theorem Notes.tidy {t u : Trace α} (h : Notes graph limit t u) (ht : t.Tidy graph limit) :
    u.Tidy graph limit := by
  cases h with
  | @mark key hroom hnew hnode =>
    refine ⟨ht.size_le, ht.nodup, ?_, ?_, ht.nodes⟩
    · intro k hk
      exact Std.HashSet.mem_insert.2 (.inr (ht.seen k hk))
    · intro k hk hv
      rcases Std.HashSet.mem_insert.1 hk with hk | hk
      · rw [← eq_of_beq hk, hnode] at hv
        cases hv
      · exact ht.recorded k hk hv
  | @record key node hroom hnew hnode =>
    refine ⟨?_, ?_, ?_, ?_, ?_⟩
    · rw [Array.size_push]
      exact hroom
    · -- a recorded key has been seen, this one has not
      rw [Trace.keys_push]
      apply List.Nodup.append ht.nodup (List.nodup_singleton key)
      rw [List.disjoint_singleton]
      exact fun hmem => hnew (ht.seen key hmem)
    · intro k hk
      rw [Trace.keys_push, List.mem_append, List.mem_singleton] at hk
      rcases hk with hk | rfl
      · exact Std.HashSet.mem_insert.2 (.inr (ht.seen k hk))
      · exact Std.HashSet.mem_insert_self
    · intro k hk hv
      rw [Trace.keys_push, List.mem_append, List.mem_singleton]
      rcases Std.HashSet.mem_insert.1 hk with hk | hk
      · exact .inr (eq_of_beq hk).symm
      · exact .inl (ht.recorded k hk hv)
    · intro r hr
      rw [Array.toList_push, List.mem_append, List.mem_singleton] at hr
      rcases hr with hr | rfl
      · exact ht.nodes r hr
      · exact ⟨node, hnode, rfl⟩

theorem Grows.tidy {t u : Trace α} (h : Grows graph limit t u) (ht : t.Tidy graph limit) :
    u.Tidy graph limit := by
  induction h with
  | refl => exact ht
  | tail _ hstep ih => exact hstep.tidy ih

/-- Records are only added, at the end. -/
theorem Grows.records {t u : Trace α} (h : Grows graph limit t u) :
    t.records.toList <+: u.records.toList := by
  induction h with
  | refl => exact List.prefix_refl _
  | tail _ hstep ih =>
    cases hstep with
    | mark => exact ih
    | record =>
      rw [Array.toList_push]
      exact ih.trans (List.prefix_append _ _)

/-! ## A walk gives the position back -/

section

variable {enter : Position → Trace α → Option Error × Position × Trace α} {p : Position} {t : Trace α}

theorem visitWith_of_stop (h : limit ≤ t.records.size ∨ p.hash ∈ t.seen) :
    visitWith graph limit enter p t = (none, p, t) := by
  unfold visitWith
  exact if_pos (h.imp_right Std.HashSet.mem_iff_contains.1)

/-- A position that is entered for the first time, before the limit is reached. -/
theorem visitWith_of_new (hroom : t.records.size < limit) (hnew : p.hash ∉ t.seen) :
    visitWith graph limit enter p t =
      match graph.visited? p.hash with
      | none => (none, p, ⟨t.seen.insert p.hash, t.records⟩)
      | some node => walkEdges enter (node.edges.toList.filter fun e => 0 < e.visits) p
          ⟨t.seen.insert p.hash, t.records.push ⟨p.hash, node.visits, node.edges.toList⟩⟩ := by
  have hgo : ¬ (limit ≤ t.records.size ∨ t.seen.contains p.hash) := by
    rintro (h | h)
    · exact Nat.not_le.2 hroom h
    · exact hnew (Std.HashSet.mem_iff_contains.2 h)
  unfold visitWith
  exact if_neg hgo

/-- An edge whose position was entered and given back. -/
theorem walkEdges_cons_of_enter {edge : Edge α} {u : Trace α} (haccepts : p.Accepts edge.move)
    (henter : enter (p.advance edge.move) t = (none, p.advance edge.move, u)) (edges : List (Edge α)) :
    walkEdges enter (edge :: edges) p t = walkEdges enter edges p u := by
  simp only [walkEdges, (p.refusal?_eq_none_iff edge.move).2 haccepts, henter,
    Position.takeBackRefusal?_advance, Position.retract_advance haccepts, if_true]

theorem walkEdges_cons_of_error {edge : Edge α} {err : Error} {u : Trace α} (haccepts : p.Accepts edge.move)
    (henter : enter (p.advance edge.move) t = (some err, p.advance edge.move, u)) (edges : List (Edge α)) :
    walkEdges enter (edge :: edges) p t = (some err, p, u) := by
  simp only [walkEdges, (p.refusal?_eq_none_iff edge.move).2 haccepts, henter,
    Position.takeBackRefusal?_advance, Position.retract_advance haccepts, if_true]

theorem walkEdges_cons_of_refusal {edge : Edge α} {err : Error} (h : p.refusal? edge.move = some err)
    (edges : List (Edge α)) : walkEdges enter (edge :: edges) p t = (some err, p, t) := by
  simp only [walkEdges, h]

end

/-- What is used to enter positions gives each of them back, and notes what it enters. -/
def Faithful (graph : Graph α) (limit : Nat)
    (enter : Position → Trace α → Option Error × Position × Trace α) : Prop :=
  ∀ p t, ∃ err? u, enter p t = (err?, p, u) ∧ Grows graph limit t u

section

variable {enter : Position → Trace α → Option Error × Position × Trace α}

theorem Faithful.walkEdges (h : Faithful graph limit enter) (edges : List (Edge α)) (p : Position)
    (t : Trace α) : ∃ err? u, walkEdges enter edges p t = (err?, p, u) ∧ Grows graph limit t u := by
  induction edges generalizing t with
  | nil => exact ⟨none, t, rfl, .refl⟩
  | cons edge edges ih =>
    cases hr : p.refusal? edge.move with
    | some err => exact ⟨some err, t, walkEdges_cons_of_refusal hr edges, .refl⟩
    | none =>
      have haccepts := (p.refusal?_eq_none_iff edge.move).1 hr
      obtain ⟨err?, u, heq, hu⟩ := h (p.advance edge.move) t
      cases err? with
      | some err => exact ⟨some err, u, walkEdges_cons_of_error haccepts heq edges, hu⟩
      | none =>
        obtain ⟨err?, v, hv, huv⟩ := ih u
        exact ⟨err?, v, (walkEdges_cons_of_enter haccepts heq edges).trans hv, hu.trans huv⟩

theorem Faithful.visitWith (h : Faithful graph limit enter) :
    Faithful graph limit (visitWith graph limit enter) := by
  intro p t
  by_cases hstop : limit ≤ t.records.size ∨ p.hash ∈ t.seen
  · exact ⟨none, t, visitWith_of_stop hstop, .refl⟩
  · obtain ⟨hroom, hnew⟩ := not_or.1 hstop
    rw [visitWith_of_new (Nat.lt_of_not_le hroom) hnew]
    cases hnode : graph.visited? p.hash with
    | none => exact ⟨none, _, rfl, .single (.mark (Nat.lt_of_not_le hroom) hnew hnode)⟩
    | some node =>
      obtain ⟨err?, u, heq, hu⟩ := h.walkEdges (node.edges.toList.filter fun e => 0 < e.visits) p _
      exact ⟨err?, u, heq, .head (.record (Nat.lt_of_not_le hroom) hnew hnode) hu⟩

end

theorem faithful_visit (graph : Graph α) (limit room : Nat) :
    Faithful graph limit (visit graph limit room) := by
  induction room with
  | zero => exact Faithful.visitWith fun p t => ⟨_, t, rfl, .refl⟩
  | succ room ih => exact ih.visitWith

theorem grows_visit {room : Nat} {p : Position} {t u : Trace α} {err? : Option Error}
    (h : visit graph limit room p t = (err?, p, u)) : Grows graph limit t u := by
  obtain ⟨_, v, heq, hgrows⟩ := faithful_visit graph limit room p t
  obtain rfl : v = u := congrArg (·.2.2) (heq.symm.trans h)
  exact hgrows

/-! ## The walk is not cut short -/

section

variable {enter enter' : Position → Trace α → Option Error × Position × Trace α}

/-- Only the positions behind accepted moves are entered. -/
theorem Faithful.walkEdges_congr (h : Faithful graph limit enter) {p : Position}
    (hsame : ∀ m t, p.Accepts m → enter (p.advance m) t = enter' (p.advance m) t)
    (edges : List (Edge α)) (t : Trace α) :
    Export.walkEdges enter edges p t = Export.walkEdges enter' edges p t := by
  induction edges generalizing t with
  | nil => rfl
  | cons edge edges ih =>
    cases hr : p.refusal? edge.move with
    | some err => rw [walkEdges_cons_of_refusal hr, walkEdges_cons_of_refusal hr]
    | none =>
      have haccepts := (p.refusal?_eq_none_iff edge.move).1 hr
      obtain ⟨err?, u, heq, _⟩ := h (p.advance edge.move) t
      have heq' := (hsame edge.move t haccepts).symm.trans heq
      cases err? with
      | some err => rw [walkEdges_cons_of_error haccepts heq, walkEdges_cons_of_error haccepts heq']
      | none =>
        rw [walkEdges_cons_of_enter haccepts heq, walkEdges_cons_of_enter haccepts heq']
        exact ih u

theorem Faithful.visitWith_congr (h : Faithful graph limit enter) {p : Position}
    (hsame : ∀ m t, p.Accepts m → enter (p.advance m) t = enter' (p.advance m) t) (t : Trace α) :
    Export.visitWith graph limit enter p t = Export.visitWith graph limit enter' p t := by
  unfold Export.visitWith
  simp only [h.walkEdges_congr hsame]

end

/-- **The room never runs out**: a walk with the room that the history of its position has goes on like one
without a bound on its depth, since a move that would need more room is refused before it is entered. -/
theorem visit_room (graph : Graph α) (limit : Nat) (p : Position) (t : Trace α) :
    visit graph limit (maxPly - p.depth) p t =
      visitWith graph limit (fun q => visit graph limit (maxPly - q.depth) q) p t := by
  cases hroom : maxPly - p.depth with
  | zero =>
    refine Faithful.visitWith_congr (fun p t => ⟨_, t, rfl, .refl⟩) ?_ t
    intro m t haccepts
    have := haccepts.room
    omega
  | succ room =>
    refine (faithful_visit graph limit room).visitWith_congr ?_ t
    intro m t haccepts
    rw [Position.depth_advance]
    congr 1
    omega

/-! ## Smaller limits -/

/-- `u` holds the first `m` records of `t`, and all of `t` as long as it is not full. -/
structure Abridges (m : Nat) (u t : Trace α) : Prop where
  records : u.records.toList = t.records.toList.take m
  seen : u.records.size < m → u.seen = t.seen

theorem Abridges.refl {m : Nat} {t : Trace α} (h : t.records.size ≤ m) : Abridges m t t :=
  ⟨(List.take_of_length_le h).symm, fun _ => rfl⟩

/-- Before it is full, the shorter trace is the longer one. -/
theorem Abridges.eq {m : Nat} {u t : Trace α} (h : Abridges m u t) (hroom : u.records.size < m) : u = t := by
  have hlength : min m t.records.size < m := by
    have := congrArg List.length h.records
    rw [List.length_take, Array.length_toList, Array.length_toList] at this
    omega
  have hrecords := h.records
  rw [List.take_of_length_le (by rw [Array.length_toList]; omega), Array.toList_inj] at hrecords
  cases u
  cases t
  exact congrArg₂ Trace.mk (h.seen hroom) hrecords

/-- Once the shorter trace is full, the longer one may grow. -/
theorem Abridges.grows {m : Nat} {u t v : Trace α} (h : Abridges m u t) (hfull : m ≤ u.records.size)
    (hgrows : Grows graph limit t v) : Abridges m u v := by
  refine ⟨?_, fun hroom => absurd hroom (Nat.not_lt.2 hfull)⟩
  obtain ⟨more, hmore⟩ := hgrows.records
  have hlength : m ≤ t.records.toList.length := by
    have := congrArg List.length h.records
    rw [List.length_take, Array.length_toList] at this
    omega
  rw [h.records, ← hmore, List.take_append_of_le_length hlength]

/-- Where `enter` succeeds, `enter'` collects the first `m` records of the same. -/
def Keeps (m : Nat) (enter' enter : Position → Trace α → Option Error × Position × Trace α) : Prop :=
  ∀ p u t v, Abridges m u t → enter p t = (none, p, v) → ∃ w, enter' p u = (none, p, w) ∧ Abridges m w v

section

variable {m : Nat} {enter enter' : Position → Trace α → Option Error × Position × Trace α}

theorem Keeps.walkEdges (hkeeps : Keeps m enter' enter) (h : Faithful graph limit enter)
    (edges : List (Edge α)) {p : Position} {u t v : Trace α} (hut : Abridges m u t)
    (hok : walkEdges enter edges p t = (none, p, v)) :
    ∃ w, Export.walkEdges enter' edges p u = (none, p, w) ∧ Abridges m w v := by
  induction edges generalizing u t with
  | nil =>
    obtain rfl : t = v := congrArg (·.2.2) hok
    exact ⟨u, rfl, hut⟩
  | cons edge edges ih =>
    cases hr : p.refusal? edge.move with
    | some err =>
      rw [walkEdges_cons_of_refusal hr] at hok
      cases congrArg Prod.fst hok
    | none =>
      have haccepts := (p.refusal?_eq_none_iff edge.move).1 hr
      obtain ⟨err?, x, hx, _⟩ := h (p.advance edge.move) t
      cases err? with
      | some err =>
        rw [walkEdges_cons_of_error haccepts hx] at hok
        cases congrArg Prod.fst hok
      | none =>
        obtain ⟨y, hy, hyx⟩ := hkeeps _ _ _ _ hut hx
        rw [walkEdges_cons_of_enter haccepts hx] at hok
        rw [walkEdges_cons_of_enter haccepts hy]
        exact ih hyx hok

theorem Keeps.visitWith (hkeeps : Keeps m enter' enter) (h : Faithful graph limit enter) (hm : m ≤ limit) :
    Keeps m (visitWith graph m enter') (visitWith graph limit enter) := by
  intro p u t v hut hok
  by_cases hfull : m ≤ u.records.size
  · -- a full walk turns back at once
    obtain ⟨_, _, heq, hgrows⟩ := h.visitWith p t
    rw [hok] at heq
    obtain rfl : v = _ := congrArg (·.2.2) heq
    exact ⟨u, visitWith_of_stop (.inl hfull), hut.grows hfull hgrows⟩
  · have hroom := Nat.lt_of_not_le hfull
    obtain rfl := hut.eq hroom
    by_cases hseen : p.hash ∈ u.seen
    · rw [visitWith_of_stop (.inr hseen)] at hok
      obtain rfl : u = v := congrArg (·.2.2) hok
      exact ⟨u, visitWith_of_stop (.inr hseen), hut⟩
    · rw [visitWith_of_new (hroom.trans_le hm) hseen] at hok
      rw [visitWith_of_new hroom hseen]
      cases hnode : graph.visited? p.hash with
      | none =>
        rw [hnode] at hok
        obtain rfl : _ = v := congrArg (·.2.2) hok
        exact ⟨_, rfl, .refl hroom.le⟩
      | some node =>
        rw [hnode] at hok
        refine hkeeps.walkEdges h _ (.refl ?_) hok
        rw [Array.size_push]
        exact hroom

end

theorem keeps_visit (graph : Graph α) {m limit : Nat} (hm : m ≤ limit) (room : Nat) :
    Keeps m (visit graph m room) (visit graph limit room) := by
  induction room with
  | zero =>
    refine Keeps.visitWith ?_ (fun p t => ⟨_, t, rfl, .refl⟩) hm
    intro p u t v _ hok
    cases congrArg Prod.fst hok
  | succ room ih => exact ih.visitWith (faithful_visit graph limit room) hm

end Export

/-! ## The records -/

namespace Graph

open Export

variable {α : Type}

theorem records_position (graph : Graph α) (p : Position) (limit : Nat) : (graph.records p limit).2 = p := by
  obtain ⟨err?, t, heq, _⟩ := faithful_visit graph limit (maxPly - p.depth) p .empty
  rw [records, heq]
  cases err? <;> rfl

/-- A successful collection is a walk from nothing. -/
theorem records_eq_ok {graph : Graph α} {p : Position} {limit : Nat} {rs : List (Record α)} :
    (graph.records p limit).1 = .ok rs ↔ ∃ t : Trace α, t.records.toList = rs ∧
      visit graph limit (maxPly - p.depth) p .empty = (none, p, t) := by
  obtain ⟨err?, t, heq, _⟩ := faithful_visit graph limit (maxPly - p.depth) p .empty
  rw [records, heq]
  cases err? with
  | some err =>
    constructor
    · intro h
      cases h
    · rintro ⟨u, _, hu⟩
      cases congrArg Prod.fst hu
  | none =>
    constructor
    · intro h
      exact ⟨t, Except.ok.inj h, rfl⟩
    · rintro ⟨u, rfl, hu⟩
      obtain rfl : t = u := congrArg (·.2.2) hu
      rfl

theorem records_take {graph : Graph α} {p : Position} {limit m : Nat} {rs : List (Record α)} (hm : m ≤ limit)
    (h : (graph.records p limit).1 = .ok rs) : (graph.records p m).1 = .ok (rs.take m) := by
  obtain ⟨t, rfl, hvisit⟩ := records_eq_ok.1 h
  have hempty : Abridges m (Trace.empty : Trace α) .empty := .refl (Nat.zero_le m)
  obtain ⟨u, hu, hut⟩ := keeps_visit graph hm (maxPly - p.depth) _ _ _ _ hempty hvisit
  exact records_eq_ok.2 ⟨u, hut.records, hu⟩

/-- The walk begins with the node it is asked for. -/
theorem records_head? {graph : Graph α} {p : Position} {limit : Nat} {rs : List (Record α)}
    {node : Node α} (h : (graph.records p limit).1 = .ok rs) (hnode : graph.visited? p.hash = some node)
    (hlimit : 0 < limit) : rs.head? = some ⟨p.hash, node.visits, node.edges.toList⟩ := by
  obtain ⟨t, rfl, hvisit⟩ := records_eq_ok.1 h
  rw [visit_room, visitWith_of_new hlimit Std.HashSet.not_mem_empty, hnode] at hvisit
  have hfaithful : Faithful graph limit fun q => visit graph limit (maxPly - q.depth) q :=
    fun q => faithful_visit graph limit (maxPly - q.depth) q
  obtain ⟨_, u, hu, hgrows⟩ := hfaithful.walkEdges (node.edges.toList.filter fun e => 0 < e.visits) p
    ⟨Trace.empty.seen.insert p.hash, Trace.empty.records.push ⟨p.hash, node.visits, node.edges.toList⟩⟩
  obtain rfl : u = t := congrArg (·.2.2) (hu.symm.trans hvisit)
  obtain ⟨more, hmore⟩ := hgrows.records
  rw [← hmore]
  rfl

/-- **Collecting records is read-only, bounded and free of duplicates**, whatever the graph and the position.
The walk recurses as one without a bound on its depth would. The position comes back as it was, also from a
walk that fails. The records are those of different visited nodes, no more than the limit, the position's own
first; and a smaller limit gives the beginning of the same list. -/
theorem records_of_any_graph (graph : Graph α) (p : Position) :
    (∀ limit q t, visit graph limit (maxPly - q.depth) q t =
      visitWith graph limit (fun q => visit graph limit (maxPly - q.depth) q) q t) ∧
    (∀ limit, (graph.records p limit).2 = p) ∧
    ∀ limit rs, (graph.records p limit).1 = .ok rs →
      rs.length ≤ limit ∧
      (rs.map fun r => Text.word64 r.key).Nodup ∧
      (∀ r ∈ rs, ∃ node, graph.visited? r.key = some node ∧ r = ⟨r.key, node.visits, node.edges.toList⟩) ∧
      (∀ node, graph.visited? p.hash = some node → 0 < limit →
        rs.head? = some ⟨p.hash, node.visits, node.edges.toList⟩) ∧
      ∀ m ≤ limit, (graph.records p m).1 = .ok (rs.take (min m rs.length)) := by
  refine ⟨visit_room graph, records_position graph p, ?_⟩
  intro limit rs h
  obtain ⟨t, hrs, hvisit⟩ := records_eq_ok.1 h
  have htidy : t.Tidy graph limit := (grows_visit hvisit).tidy Trace.tidy_empty
  subst hrs
  refine ⟨htidy.size_le, ?_, htidy.nodes, fun node hnode hlimit => records_head? h hnode hlimit, ?_⟩
  · have hkeys := htidy.nodup.map Text.word64_injective
    rwa [Trace.keys, List.map_map] at hkeys
  · intro m hm
    rw [records_take hm h, ← List.take_eq_take_min]

/-- Two positions whose nodes lead to each other, the first one also with an edge that cannot be played. -/
theorem records_of_any_graph_circle :
    let p := Position.startWith ⟨.replicate 64 0, .replicate 64 0, 1⟩
    let there : Node Float := ⟨0, 7, #[⟨⟨⟨12⟩, ⟨20⟩⟩, 3, 2⟩, ⟨⟨⟨0⟩, ⟨63⟩⟩, 0, 0⟩]⟩
    let back : Node Float := ⟨1, 4, #[⟨⟨⟨52⟩, ⟨44⟩⟩, 3, 2⟩]⟩
    let graph : Graph Float := ⟨#[there, back], (Std.HashMap.emptyWithCapacity.insert 0 0).insert 1 1⟩
    let rs : List (Record Float) := [⟨0, 7, there.edges.toList⟩, ⟨1, 4, back.edges.toList⟩]
    (graph.records p 5).1 = .ok rs ∧ (graph.records p 5).2 = p ∧
      (rs.map fun r => Text.word64 r.key).Nodup ∧ (graph.records p 1).1 = .ok (rs.take 1) := by
  intro p there back graph rs
  let q := p.advance ⟨⟨12⟩, ⟨20⟩⟩
  let r := q.advance ⟨⟨52⟩, ⟨44⟩⟩
  have hp : p.Accepts ⟨⟨12⟩, ⟨20⟩⟩ := (p.refusal?_eq_none_iff _).1 (by decide)
  have hq : q.Accepts ⟨⟨52⟩, ⟨44⟩⟩ := (q.refusal?_eq_none_iff _).1 (by decide)
  have hkeys : p.hash = 0 ∧ q.hash = 1 ∧ r.hash = 0 := by decide
  have hthere : graph.visited? 0 = some there := by
    have hfind : graph.find? 0 = some 0 := by simp [Graph.find?, graph, Std.HashMap.getElem_insert]
    rw [Graph.visited?, hfind]
    rfl
  have hback : graph.visited? 1 = some back := by
    have hfind : graph.find? 1 = some 1 := by simp [Graph.find?, graph]
    rw [Graph.visited?, hfind]
    rfl
  let t : Trace Float := ⟨(∅ : Std.HashSet UInt64).insert 0, #[⟨0, 7, there.edges.toList⟩]⟩
  let u : Trace Float := ⟨t.seen.insert 1, t.records.push ⟨1, 4, back.edges.toList⟩⟩
  have hr : visit graph 5 (maxPly - r.depth) r u = (none, r, u) := by
    rw [visit_room, visitWith_of_stop]
    exact .inr (by simp [hkeys, u, t])
  have hvisit : visit graph 5 (maxPly - q.depth) q t = (none, q, u) := by
    have hwalk : walkEdges (fun s => visit graph 5 (maxPly - s.depth) s) [⟨⟨⟨52⟩, ⟨44⟩⟩, 3, 2⟩] q u =
        (none, q, u) := walkEdges_cons_of_enter hq hr []
    rw [visit_room, visitWith_of_new (by decide) (by simp [hkeys, t]), hkeys.2.1, hback]
    exact hwalk
  have hok : (graph.records p 5).1 = .ok rs := by
    have hwalk : walkEdges (fun s => visit graph 5 (maxPly - s.depth) s) [⟨⟨⟨12⟩, ⟨20⟩⟩, 3, 2⟩] p t =
        (none, p, u) := walkEdges_cons_of_enter hp hvisit []
    refine records_eq_ok.2 ⟨u, rfl, ?_⟩
    rw [visit_room, visitWith_of_new (by decide) Std.HashSet.not_mem_empty, hkeys.1, hthere]
    exact hwalk
  obtain ⟨_, hposition, hall⟩ := records_of_any_graph graph p
  obtain ⟨_, hnodup, _, _, htake⟩ := hall 5 rs hok
  exact ⟨hok, hposition 5, hnodup, htake 1 (by decide)⟩

end Graph

end Search

end Breakthrough
