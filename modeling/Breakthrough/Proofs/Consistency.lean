import Breakthrough.Proofs.Line
import Mathlib.Algebra.Group.Nat.Even

/-!
# The three encodings agree

A position keeps its board as cells, as two sets of squares and as an incremental hash. On every
position that calls can lead to, the sets are those of the cells and the hash is the one computed
from scratch, so it depends on nothing but the board and the side to move
(`run_consistent`).
-/

namespace Breakthrough

namespace Bitboard

/-! ## Keys of a set -/

/-- The exclusive or of a key per square of the set. -/
def xorKeys (key : Square → UInt64) (b : Bitboard) : UInt64 :=
  b.squares.foldl (fun k s => k ^^^ key s) 0

theorem foldl_xor_init (key : Square → UInt64) (squares : List Square) (k a : UInt64) :
    squares.foldl (fun k s => k ^^^ key s) (k ^^^ a) =
      squares.foldl (fun k s => k ^^^ key s) k ^^^ a := by
  induction squares generalizing k with
  | nil => rfl
  | cons s squares ih =>
    rw [List.foldl_cons, List.foldl_cons, ← ih, UInt64.xor_assoc, UInt64.xor_comm a, UInt64.xor_assoc]

theorem xorKeys_toggle_of_not_contains (key : Square → UInt64) {b : Bitboard} {s : Square}
    (h : b.contains s = false) : xorKeys key (b.toggle s) = xorKeys key b ^^^ key s := by
  have hcomm : ∀ x ∈ (b.toggle s).squares, ∀ y ∈ (b.toggle s).squares, ∀ k : UInt64,
      (k ^^^ key x) ^^^ key y = (k ^^^ key y) ^^^ key x := by
    intro x _ y _ k
    rw [UInt64.xor_assoc, UInt64.xor_comm (key x), UInt64.xor_assoc]
  rw [xorKeys, (squares_toggle h).foldl_eq' hcomm, List.foldl_cons, foldl_xor_init]
  rfl

/-- Putting a square in or taking it out changes the keys by its own. -/
theorem xorKeys_toggle (key : Square → UInt64) (b : Bitboard) (s : Square) :
    xorKeys key (b.toggle s) = xorKeys key b ^^^ key s := by
  cases h : b.contains s with
  | false => exact xorKeys_toggle_of_not_contains key h
  | true =>
    have hout : (b.toggle s).contains s = false := by simp [h]
    have hb := xorKeys_toggle_of_not_contains key hout
    rw [toggle_toggle] at hb
    rw [hb, UInt64.xor_assoc, UInt64.xor_self, UInt64.xor_zero]

theorem xor_pair_eq_toggle {s t : Square} (h : s ≠ t) (b : Bitboard) :
    b ^^^ (single s ||| single t) = (b.toggle s).toggle t := by
  apply ext_contains
  intro u
  simp only [contains_xor, contains_or, contains_single, contains_toggle]
  by_cases hs : s = u
  · have ht : t ≠ u := fun ht => h (hs.trans ht.symm)
    simp [hs, ht]
  · simp [hs]

/-- Toggling every square of a list that `P` holds of. -/
theorem contains_foldl_toggle (P : Square → Prop) [DecidablePred P] (squares : List Square)
    (hnd : squares.Nodup) (b : Bitboard) (t : Square) :
    (squares.foldl (fun b s => if P s then b.toggle s else b) b).contains t =
      (b.contains t ^^ decide (t ∈ squares ∧ P t)) := by
  induction squares generalizing b with
  | nil => simp
  | cons s squares ih =>
    obtain ⟨hs, hnd'⟩ := List.nodup_cons.1 hnd
    rw [List.foldl_cons, ih hnd']
    by_cases hP : P s
    · by_cases hst : s = t
      · subst hst; simp [hP, hs]
      · simp [hP, hst, Ne.symm hst]
    · by_cases hst : t = s
      · subst hst; simp [hP]
      · simp [hP, hst]

end Bitboard

namespace Position

/-! ## Consistency -/

/-- The sets and the hash are those of the cells. -/
structure Consistent (p : Position) : Prop where
  pawns : ∀ c s, (p.pawns c).contains s = decide (p.cell s = some c)
  hash : p.hash = p.hashFromBoard

theorem contains_pawnsOf (board : Vector Cell 64) (c : Color) (s : Square) :
    (pawnsOf board c).contains s = decide (board.get s.index = some c) := by
  rw [pawnsOf, Bitboard.contains_foldl_toggle _ _ Square.nodup_all, Bitboard.contains_empty]
  simp [Square.mem_all]

theorem consistent_ofBoard (board : Vector Cell 64) (side : Color) (keys : KeyTable) :
    (ofBoard board side keys).Consistent := by
  refine ⟨fun c s => ?_, rfl⟩
  cases c
  · exact contains_pawnsOf board .white s
  · exact contains_pawnsOf board .black s

theorem pawnsKey_eq (p : Position) (c : Color) :
    p.pawnsKey c = Bitboard.xorKeys (p.keys.pawn c) (p.pawns c) := rfl

theorem pawnsKey_advance_self (p : Position) {m : Move} (h : m.source ≠ m.target) :
    (p.advance m).pawnsKey p.side =
      p.pawnsKey p.side ^^^ p.keys.pawn p.side m.source ^^^ p.keys.pawn p.side m.target := by
  rw [pawnsKey_eq, pawns_advance_self, Bitboard.xor_pair_eq_toggle h, Bitboard.xorKeys_toggle,
    Bitboard.xorKeys_toggle]
  rfl

theorem pawnsKey_advance_opponent (p : Position) (m : Move) :
    (p.advance m).pawnsKey p.side.opponent =
      if p.cell m.target == some p.side.opponent then
        p.pawnsKey p.side.opponent ^^^ p.keys.pawn p.side.opponent m.target
      else p.pawnsKey p.side.opponent := by
  rw [pawnsKey_eq, pawns_advance_opponent]
  split
  · rw [Bitboard.xorKeys_toggle]; rfl
  · rfl

theorem hash_advance_eq {p : Position} {m : Move} (h : m.source ≠ m.target)
    (hp : p.hash = p.hashFromBoard) : (p.advance m).hash = (p.advance m).hashFromBoard := by
  have hown := pawnsKey_advance_self p h
  have hopp := pawnsKey_advance_opponent p m
  -- Black's key enters on White's moves and cancels on Black's own
  have hside : p.keys.side ^^^ p.keys.side = 0 := UInt64.xor_self
  rw [hash_advance, hashAfter, hp]
  generalize (p.cell m.target == some p.side.opponent) = capture at *
  cases hs : p.side
  all_goals
    rw [hs] at hown hopp
    simp only [hashFromBoard, side_advance, keys_advance, hs, Color.opponent] at hown hopp ⊢
    rw [hown, hopp]
    cases capture <;> simp only [Bool.false_eq_true, if_true, if_false] <;> grind

theorem contains_pawns_advance {p : Position} {m : Move} (hsource : p.cell m.source = some p.side)
    (htarget : p.cell m.target ≠ some p.side)
    (hp : ∀ c s, (p.pawns c).contains s = decide (p.cell s = some c)) (c : Color) (s : Square) :
    ((p.advance m).pawns c).contains s = decide ((p.advance m).cell s = some c) := by
  rw [cell_advance]
  by_cases hc : c = p.side
  · subst hc
    rw [pawns_advance_self]
    simp only [Bitboard.contains_xor, Bitboard.contains_or, Bitboard.contains_single, hp]
    by_cases ht : s = m.target
    · subst ht
      simp [htarget]
    · by_cases hs : s = m.source
      · subst hs
        simp [hsource, ht]
      · simp [ht, hs, Ne.symm ht, Ne.symm hs]
  · obtain rfl : c = p.side.opponent := Color.eq_opponent_of_ne hc
    have hne : ¬ (some p.side = some p.side.opponent) := fun e => hc (Option.some.inj e).symm
    rw [pawns_advance_opponent]
    by_cases ht : s = m.target
    · subst ht
      by_cases hcap : p.cell m.target = some p.side.opponent
      · simp [hcap, hp, hne]
      · simp [hcap, hp, hne]
    · have hcell : (if p.cell m.target == some p.side.opponent then
            (p.pawns p.side.opponent).toggle m.target else p.pawns p.side.opponent).contains s =
          (p.pawns p.side.opponent).contains s := by
        split
        · simp [Ne.symm ht]
        · rfl
      rw [hcell, hp]
      by_cases hs : s = m.source
      · subst hs
        simp [hsource, ht, hne]
      · simp [ht, hs]

/-- A move of a pawn onto a square that its side does not occupy keeps the encodings together, whatever else
may speak against it. -/
theorem Consistent.advance_of_target_ne {p : Position} {m : Move} (hp : p.Consistent)
    (hsource : p.cell m.source = some p.side) (htarget : p.cell m.target ≠ some p.side) :
    (p.advance m).Consistent :=
  ⟨contains_pawns_advance hsource htarget hp.pawns,
    hash_advance_eq (fun he => htarget (he ▸ hsource)) hp.hash⟩

theorem Consistent.advance {p : Position} {m : Move} (hp : p.Consistent) (h : p.Accepts m) :
    (p.advance m).Consistent := hp.advance_of_target_ne h.source h.target

theorem Line.consistent {b p : Position} (hb : b.Consistent) (h : Line b p) : p.Consistent := by
  induction h with
  | base => exact hb
  | step _ hm ih => exact ih.advance hm

theorem Consistent.pawns_eq {p q : Position} (hp : p.Consistent) (hq : q.Consistent)
    (h : p.board = q.board) (c : Color) : p.pawns c = q.pawns c := by
  apply Bitboard.ext_contains
  intro s
  rw [hp.pawns, hq.pawns, cell, cell, h]

theorem Consistent.hash_eq {p q : Position} (hp : p.Consistent) (hq : q.Consistent)
    (hkeys : p.keys = q.keys) (hboard : p.board = q.board) (hside : p.side = q.side) :
    p.hash = q.hash := by
  have hkey : ∀ c, p.pawnsKey c = q.pawnsKey c := fun c => by
    rw [pawnsKey_eq, pawnsKey_eq, hp.pawns_eq hq hboard, hkeys]
  rw [hp.hash, hq.hash, hashFromBoard, hashFromBoard, hkey, hkey, hside, hkeys]

theorem Consistent.contains_vacant {p : Position} (hp : p.Consistent) (s : Square) :
    p.vacant.contains s = true ↔ p.cell s = none := by
  have hw := hp.pawns .white s
  have hb := hp.pawns .black s
  simp only [Position.pawns] at hw hb
  rw [vacant, Bitboard.contains_not, Bitboard.contains_or, hw, hb]
  rcases p.cell s with _ | _ | _ <;> simp

theorem Consistent.white_and_black {p : Position} (hp : p.Consistent) :
    p.white &&& p.black = .empty := by
  apply Bitboard.ext_contains
  intro s
  have hw := hp.pawns .white s
  have hb := hp.pawns .black s
  simp only [Position.pawns] at hw hb
  rw [Bitboard.contains_and, Bitboard.contains_empty, hw, hb]
  rcases p.cell s with _ | _ | _ <;> simp

/-! ## Counting moves along a line -/

theorem Line.ply_eq {b p : Position} (hb : b.ply = b.depth) (h : Line b p) : p.ply = p.depth := by
  induction h with
  | base => exact hb
  | step _ _ ih => rw [ply_advance, depth_advance, ih]

theorem Line.depth_le {b p : Position} (hb : b.depth = 0) (h : Line b p) : p.depth ≤ maxPly := by
  cases h with
  | base => omega
  | step _ hm => have := hm.room; rw [depth_advance]; omega

theorem Line.root_eq {b p : Position} (h : Line b p) : p.history.root = b.history.root := by
  induction h with
  | base => rfl
  | step _ _ ih => exact ih

/-- The sides take turns. -/
theorem Line.side_eq {b p : Position} (hb : b.depth = 0) (h : Line b p) :
    p.side = if p.depth % 2 = 0 then b.side else b.side.opponent := by
  induction h with
  | base => simp [hb]
  | @step p m _ _ ih =>
    rw [side_advance, depth_advance, ih]
    rcases Nat.mod_two_eq_zero_or_one p.depth with h | h
    · rw [if_pos h, if_neg (by omega)]
    · rw [if_neg (by omega), if_pos (by omega), Color.opponent_opponent]

theorem Line.side_eq_iff {b p : Position} (hb : b.depth = 0) (h : Line b p) :
    p.side = b.side ↔ Even p.depth := by
  rw [h.side_eq hb, Nat.even_iff]
  split
  · simp [*]
  · simp [*, Color.opponent_ne]

theorem Origin.consistent {b : Position} (h : Origin b) : b.Consistent := by
  obtain ⟨board, side, keys, rfl⟩ := h.eq_ofBoard
  exact consistent_ofBoard board side keys

theorem Origin.ply_eq {b : Position} (h : Origin b) : b.ply = b.depth := by
  obtain ⟨board, side, keys, rfl⟩ := h.eq_ofBoard
  rfl

theorem Origin.root_eq {b : Position} (h : Origin b) :
    b.history.root = ⟨b.hash, false, .absent⟩ := by
  obtain ⟨board, side, keys, rfl⟩ := h.eq_ofBoard
  rfl

/-! ## Every run -/

/-- The line on which a run of calls from an origin ends. -/
theorem Origin.line_run {b : Position} (hb : Origin b) (calls : List Call) :
    Line (b.baseAfter calls) (b.run calls) := Line.run hb.depth_eq_zero .base calls

theorem Origin.consistent_run {b : Position} (hb : Origin b) (calls : List Call) :
    (b.run calls).Consistent := (hb.line_run calls).consistent (hb.baseAfter calls).consistent

theorem keys_baseAfter (b : Position) (calls : List Call) : (b.baseAfter calls).keys = b.keys := by
  induction calls generalizing b with
  | nil => rfl
  | cons c calls ih =>
    cases c with
    | reset => exact ih b.reset
    | _ => exact ih b

theorem Origin.keys_run {b : Position} (hb : Origin b) (calls : List Call) :
    (b.run calls).keys = b.keys := by
  rw [(hb.line_run calls).keys_eq, keys_baseAfter]

/-- **Consistency of every run.** Whatever is called on a position, in any order and with any moves,
the sets and the hash stay those of the cells, the ply is the depth of the history, the base entry
stays below it, and the sides take turns from the base. So the hash of a position is the same on
every way to it. -/
theorem run_consistent {b : Position} (hb : Origin b) (calls : List Call) :
    let p := b.run calls
    let base := b.baseAfter calls
    (∀ c s, (p.pawns c).contains s = true ↔ p.cell s = some c) ∧
    p.white &&& p.black = .empty ∧
    (∀ s, p.vacant.contains s = true ↔ p.cell s = none) ∧
    p.hash = p.hashFromBoard ∧
    p.ply = p.depth ∧ p.depth ≤ 256 ∧
    p.history.root = ⟨base.hashFromBoard, false, .absent⟩ ∧
    (p.side = base.side ↔ Even p.depth) ∧
    ∀ (b' : Position) (calls' : List Call), Origin b' → (b'.run calls').keys = p.keys →
      (b'.run calls').board = p.board → (b'.run calls').side = p.side →
      (b'.run calls').hash = p.hash := by
  intro p base
  have hbase : Origin base := hb.baseAfter calls
  have hline : Line base p := hb.line_run calls
  have hp : p.Consistent := hb.consistent_run calls
  refine ⟨fun c s => ?_, hp.white_and_black, hp.contains_vacant, hp.hash,
    hline.ply_eq hbase.ply_eq, hline.depth_le hbase.depth_eq_zero, ?_,
    hline.side_eq_iff hbase.depth_eq_zero, ?_⟩
  · rw [hp.pawns, decide_eq_true_iff]
  · rw [hline.root_eq, hbase.root_eq, hbase.consistent.hash]
  · intro b' calls' hb' hkeys hboard hside
    exact (hb'.consistent_run calls').hash_eq hp hkeys hboard hside

/-- Two move orders to one board, the second with a capture across the whole board that is taken back
and with calls that are refused. -/
theorem run_consistent_transposition :
    Origin start ∧
    (start.run [.play ⟨⟨12⟩, ⟨20⟩⟩, .play ⟨⟨52⟩, ⟨44⟩⟩, .play ⟨⟨11⟩, ⟨19⟩⟩]).hash =
      (start.run [.play ⟨⟨8⟩, ⟨55⟩⟩, .takeBackNewest, .play ⟨⟨11⟩, ⟨19⟩⟩, .play ⟨⟨11⟩, ⟨19⟩⟩,
        .play ⟨⟨52⟩, ⟨44⟩⟩, .takeBack ⟨⟨11⟩, ⟨19⟩⟩, .play ⟨⟨12⟩, ⟨20⟩⟩]).hash := by
  have hstart : Origin start := .start .shared
  refine ⟨hstart, (run_consistent hstart _).2.2.2.2.2.2.2.2 start _ hstart ?_ ?_ ?_⟩
  · rw [hstart.keys_run, hstart.keys_run]
  · decide +kernel
  · decide +kernel

end Position

end Breakthrough
