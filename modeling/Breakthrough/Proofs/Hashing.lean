import Breakthrough.Proofs.Consistency
import Mathlib.Data.List.ProdSigma

/-!
# Boards that a hash tells apart

The hash of a consistent position is one exclusive or over its squares, an empty square adding nothing
(`Consistent.hash_eq_boardKey`). Changing what a square holds therefore takes one key out and puts another in
(`boardKey_update`). Where no key of the table is zero and no two are equal, boards that are one pawn apart have
different hashes, and so have the two sides to move on one board (`run_hash_separates`). The shared table is of
this kind.
-/

namespace Breakthrough

/-! ## Tables of keys -/

namespace KeyTable

variable {t : KeyTable}

/-- Every pawn on every square, White's first. -/
def pawns : List (Color × Square) := [.white, .black].product Square.all

theorem mem_pawns (c : Color) (s : Square) : (c, s) ∈ pawns := by
  rw [pawns, List.pair_mem_product]
  exact ⟨by cases c <;> simp, Square.mem_all s⟩

/-- The keys of a table in the order in which they are drawn. -/
def keys (t : KeyTable) : List UInt64 := pawns.map (fun q => t.pawn q.1 q.2) ++ [t.side]

/-- No key is zero and no two are equal. -/
structure Separating (t : KeyTable) : Prop where
  zero_not_mem : 0 ∉ t.keys
  nodup : t.keys.Nodup

theorem separating_iff_nodup : t.Separating ↔ (0 :: t.keys).Nodup := by
  rw [List.nodup_cons]
  exact ⟨fun h => ⟨h.1, h.2⟩, fun h => ⟨h.1, h.2⟩⟩

-- the numbers are compared and not the words: the kernel does that in one step
theorem separating_shared : shared.Separating :=
  separating_iff_nodup.2 (.of_map UInt64.toNat (by decide +kernel))

/-- What a square adds to a hash. -/
def cell (t : KeyTable) (s : Square) : Cell → UInt64
  | none => 0
  | some c => t.pawn c s

namespace Separating

theorem pawn_ne_zero (h : t.Separating) (c : Color) (s : Square) : t.pawn c s ≠ 0 := by
  have hmem : t.pawn c s ∈ t.keys := List.mem_append_left _ (List.mem_map.2 ⟨_, mem_pawns c s, rfl⟩)
  exact fun hzero => h.zero_not_mem (hzero ▸ hmem)

theorem side_ne_zero (h : t.Separating) : t.side ≠ 0 := by
  have hmem : t.side ∈ t.keys := List.mem_append_right _ (List.mem_singleton_self _)
  exact fun hzero => h.zero_not_mem (hzero ▸ hmem)

theorem eq_of_pawn_eq (h : t.Separating) {c d : Color} {s u : Square} (heq : t.pawn c s = t.pawn d u) :
    (c, s) = (d, u) :=
  List.inj_on_of_nodup_map (List.nodup_append.1 h.nodup).1 (mem_pawns c s) (mem_pawns d u) heq

/-- A square that holds something else adds something else. -/
theorem cell_injective (h : t.Separating) (s : Square) : Function.Injective (t.cell s) := by
  intro x y heq
  cases x with
  | none =>
    cases y with
    | none => rfl
    | some d => exact absurd heq.symm (h.pawn_ne_zero d s)
  | some c =>
    cases y with
    | none => exact absurd heq (h.pawn_ne_zero c s)
    | some d =>
      have hcolor : c = d := congrArg Prod.fst (h.eq_of_pawn_eq heq)
      rw [hcolor]

end Separating

end KeyTable

/-! ## The key of a board -/

theorem eq_zero_of_eq_xor {k d : UInt64} (h : k = k ^^^ d) : d = 0 := by
  rwa [← UInt64.xor_right_inj k, UInt64.xor_zero, eq_comm]

/-- The exclusive or of a key per square of a list. -/
def xorOver (key : Square → UInt64) (squares : List Square) : UInt64 :=
  squares.foldl (fun k s => k ^^^ key s) 0

section

variable {f g : Square → UInt64} {squares : List Square}

theorem xorOver_cons (f : Square → UInt64) (s : Square) (squares : List Square) :
    xorOver f (s :: squares) = xorOver f squares ^^^ f s :=
  Bitboard.foldl_xor_init f squares 0 (f s)

theorem xorOver_congr (h : ∀ s ∈ squares, f s = g s) : xorOver f squares = xorOver g squares := by
  induction squares with
  | nil => rfl
  | cons s squares ih =>
    rw [List.forall_mem_cons] at h
    rw [xorOver_cons, xorOver_cons, ih h.2, h.1]

theorem xorOver_xor (f g : Square → UInt64) (squares : List Square) :
    xorOver f squares ^^^ xorOver g squares = xorOver (fun s => f s ^^^ g s) squares := by
  induction squares with
  | nil => exact UInt64.xor_self
  | cons s squares ih =>
    rw [xorOver_cons, xorOver_cons, xorOver_cons, ← ih]
    ac_rfl

theorem xorOver_filter (f : Square → UInt64) (P : Square → Bool) (squares : List Square) :
    xorOver f (squares.filter P) = xorOver (fun s => if P s then f s else 0) squares := by
  induction squares with
  | nil => rfl
  | cons s squares ih =>
    rw [xorOver_cons, ← ih]
    by_cases hs : P s
    · rw [List.filter_cons_of_pos hs, xorOver_cons, if_pos hs]
    · rw [List.filter_cons_of_neg hs, if_neg hs, UInt64.xor_zero]

/-- Another key at one square: the old one leaves the exclusive or, the new one enters it. -/
theorem xorOver_of_eq_off {s : Square} (hnodup : squares.Nodup) (hs : s ∈ squares)
    (h : ∀ u, u ≠ s → g u = f u) : xorOver g squares = xorOver f squares ^^^ f s ^^^ g s := by
  induction squares with
  | nil => cases hs
  | cons u squares ih =>
    obtain ⟨hu, hrest⟩ := List.nodup_cons.1 hnodup
    rw [xorOver_cons, xorOver_cons]
    by_cases hsu : s = u
    · subst hsu
      have hsame : xorOver g squares = xorOver f squares := xorOver_congr fun v hv => h v fun hvs => hu (hvs ▸ hv)
      rw [hsame, UInt64.xor_assoc (xorOver f squares), UInt64.xor_self, UInt64.xor_zero]
    · have hmem : s ∈ squares := (List.mem_cons.1 hs).resolve_left hsu
      rw [ih hrest hmem, h u (Ne.symm hsu)]
      ac_rfl

end

namespace KeyTable

/-- What the side to move adds to a hash. -/
def mover (t : KeyTable) : Color → UInt64
  | .white => 0
  | .black => t.side

/-- The exclusive or of what the squares of a board add. -/
def boardKey (t : KeyTable) (board : Square → Cell) : UInt64 :=
  xorOver (fun s => t.cell s (board s)) Square.all

/-- Changing what a square holds takes what it added out and puts the other in. -/
theorem boardKey_update (t : KeyTable) (board : Square → Cell) (s : Square) (x : Cell) :
    t.boardKey (Function.update board s x) = t.boardKey board ^^^ t.cell s (board s) ^^^ t.cell s x := by
  rw [boardKey, xorOver_of_eq_off (f := fun u => t.cell u (board u)) Square.nodup_all (Square.mem_all s),
    Function.update_self]
  · rfl
  · intro u hu
    rw [Function.update_of_ne hu]

end KeyTable

namespace Position

variable {p q : Position}

theorem Consistent.pawnsKey_eq_xorOver (hp : p.Consistent) (c : Color) :
    p.pawnsKey c = xorOver (fun s => if p.cell s = some c then p.keys.pawn c s else 0) Square.all := by
  have hsquares : (p.pawns c).squares = Square.all.filter fun s => p.cell s = some c := by
    rw [Bitboard.squares_eq_filter, funext (hp.pawns c)]
  have hkey : p.pawnsKey c = xorOver (p.keys.pawn c) (p.pawns c).squares := rfl
  rw [hkey, hsquares, xorOver_filter]
  simp only [decide_eq_true_eq]

/-- White's pawns and Black's can be taken in one go, square by square. -/
theorem Consistent.hash_eq_boardKey (hp : p.Consistent) :
    p.hash = p.keys.boardKey p.cell ^^^ p.keys.mover p.side := by
  have hboard : p.pawnsKey .white ^^^ p.pawnsKey .black = p.keys.boardKey p.cell := by
    rw [hp.pawnsKey_eq_xorOver, hp.pawnsKey_eq_xorOver, xorOver_xor]
    apply xorOver_congr
    intro s _
    rcases p.cell s with _ | _ | _ <;> simp [KeyTable.cell]
  rw [hp.hash, hashFromBoard, hboard]
  cases p.side with
  | white => exact UInt64.xor_zero.symm
  | black => rfl

/-! ## Boards one pawn apart -/

/-- The second board is the first with one pawn put on, taken off, recoloured where it stands, or moved to an
empty square. -/
inductive OnePawnApart (a b : Square → Cell) : Prop
  | added {s : Square} {c : Color} (hs : a s = none) (hb : b = Function.update a s (some c))
  | removed {s : Square} {c : Color} (hs : a s = some c) (hb : b = Function.update a s none)
  | recoloured {s : Square} {c : Color} (hs : a s = some c) (hb : b = Function.update a s (some c.opponent))
  | relocated {s u : Square} {c : Color} (hs : a s = some c) (hu : a u = none)
      (hb : b = Function.update (Function.update a s none) u (some c))

end Position

namespace KeyTable.Separating

variable {t : KeyTable} {a b : Square → Cell}

/-- A board on which one square holds something else has another key. -/
theorem boardKey_update_ne (h : t.Separating) {s : Square} {x : Cell} (hx : a s ≠ x) :
    t.boardKey a ≠ t.boardKey (Function.update a s x) := by
  rw [boardKey_update, UInt64.xor_assoc]
  intro heq
  have hcells : t.cell s (a s) ^^^ t.cell s x = 0 := eq_zero_of_eq_xor heq
  exact hx (h.cell_injective s (UInt64.xor_eq_zero_iff.1 hcells))

theorem boardKey_ne (h : t.Separating) (hab : Position.OnePawnApart a b) : t.boardKey a ≠ t.boardKey b := by
  cases hab with
  | added hs hb => rw [hb]; exact h.boardKey_update_ne (by simp [hs])
  | removed hs hb => rw [hb]; exact h.boardKey_update_ne (by simp [hs])
  | @recoloured s c hs hb => rw [hb]; exact h.boardKey_update_ne (by simp [hs, c.opponent_ne.symm])
  | @relocated s u c hs hu hb =>
    have hne : u ≠ s := fun hus => by rw [hus, hs] at hu; cases hu
    have hkey : t.boardKey b = t.boardKey a ^^^ (t.pawn c s ^^^ t.pawn c u) := by
      rw [hb, boardKey_update, boardKey_update, Function.update_of_ne hne, hs, hu, cell, cell, cell, cell,
        UInt64.xor_zero, UInt64.xor_zero, UInt64.xor_assoc]
    rw [hkey]
    intro heq
    have hpawns : t.pawn c s = t.pawn c u := UInt64.xor_eq_zero_iff.1 (eq_zero_of_eq_xor heq)
    exact hne (congrArg Prod.snd (h.eq_of_pawn_eq hpawns)).symm

theorem mover_injective (h : t.Separating) : Function.Injective t.mover := by
  intro c d heq
  cases c with
  | white =>
    cases d with
    | white => rfl
    | black => exact absurd heq.symm h.side_ne_zero
  | black =>
    cases d with
    | white => exact absurd heq h.side_ne_zero
    | black => rfl

end KeyTable.Separating

namespace Position

variable {p q : Position}

theorem Consistent.hash_ne_of_onePawnApart (hp : p.Consistent) (hq : q.Consistent) (hkeys : p.keys = q.keys)
    (h : p.keys.Separating) (hside : p.side = q.side) (hboards : OnePawnApart p.cell q.cell) :
    p.hash ≠ q.hash := by
  rw [hp.hash_eq_boardKey, hq.hash_eq_boardKey, ← hkeys, ← hside]
  intro heq
  exact h.boardKey_ne hboards ((UInt64.xor_left_inj _).1 heq)

theorem Consistent.hash_ne_of_side_ne (hp : p.Consistent) (hq : q.Consistent) (hkeys : p.keys = q.keys)
    (h : p.keys.Separating) (hboard : p.board = q.board) (hside : p.side ≠ q.side) : p.hash ≠ q.hash := by
  have hcell : p.cell = q.cell := by funext s; rw [cell, cell, hboard]
  rw [hp.hash_eq_boardKey, hq.hash_eq_boardKey, ← hkeys, ← hcell]
  intro heq
  exact hside (h.mover_injective ((UInt64.xor_right_inj _).1 heq))

/-! ## Every run -/

/-- **What a hash tells apart.** Take any two positions that calls can lead to, over the shared table or over one
without equal or zero keys. If the same side is to move and the boards are one pawn apart, or if the boards are the
same and different sides are to move, then the hashes differ. -/
theorem run_hash_separates {b b' : Position} (hb : Origin b) (hb' : Origin b') (hkeys : b.keys = b'.keys)
    (hsep : b.keys = .shared ∨ b.keys.Separating) (calls calls' : List Call) :
    let p := b.run calls
    let q := b'.run calls'
    (p.side = q.side → OnePawnApart p.cell q.cell → p.hash ≠ q.hash) ∧
    (p.board = q.board → p.side ≠ q.side → p.hash ≠ q.hash) := by
  intro p q
  have hp : p.Consistent := hb.consistent_run calls
  have hq : q.Consistent := hb'.consistent_run calls'
  have hpq : p.keys = q.keys := by rw [hb.keys_run, hb'.keys_run, hkeys]
  have h : p.keys.Separating := by
    rw [hb.keys_run]
    rcases hsep with hshared | hsep
    · exact hshared ▸ KeyTable.separating_shared
    · exact hsep
  exact ⟨hp.hash_ne_of_onePawnApart hq hpq h, hp.hash_ne_of_side_ne hq hpq h⟩

/-- A pawn that stands on a3 in one game and on b3 in the other, and a board that comes back with the other side
to move after a pawn has gone too far and returned. -/
theorem run_hash_separates_detour :
    let once := start.run [.play ⟨⟨8⟩, ⟨16⟩⟩]
    let beside := start.run [.play ⟨⟨8⟩, ⟨17⟩⟩]
    let twice := start.run [.play ⟨⟨8⟩, ⟨24⟩⟩, .play ⟨⟨48⟩, ⟨40⟩⟩, .play ⟨⟨24⟩, ⟨16⟩⟩, .play ⟨⟨40⟩, ⟨48⟩⟩]
    (once.side = beside.side ∧ OnePawnApart once.cell beside.cell ∧ once.hash ≠ beside.hash) ∧
    (once.board = twice.board ∧ once.side ≠ twice.side ∧ once.hash ≠ twice.hash) := by
  intro once beside twice
  have hstart : Origin start := .start .shared
  have hfacts : once.cell ⟨16⟩ = some .white ∧ once.cell ⟨17⟩ = none ∧
      (∀ i : Fin 64, beside.cell ⟨i⟩ =
        Function.update (Function.update once.cell ⟨16⟩ none) ⟨17⟩ (some .white) ⟨i⟩) ∧
      once.side = beside.side ∧ once.board = twice.board ∧ once.side ≠ twice.side := by decide +kernel
  obtain ⟨hfrom, hto, hcells, hsame, hboard, hside⟩ := hfacts
  have hapart : OnePawnApart once.cell beside.cell := .relocated hfrom hto (funext fun s => hcells s.index)
  exact ⟨⟨hsame, hapart, (run_hash_separates hstart hstart rfl (.inl rfl) _ _).1 hsame hapart⟩, hboard, hside,
    (run_hash_separates hstart hstart rfl (.inl rfl) _ _).2 hboard hside⟩

end Position

end Breakthrough
