import Mathlib.Algebra.BigOperators.Group.List.Basic
import Breakthrough.Evaluation
import Breakthrough.Proofs.Rules

/-!
# Color and mirror symmetry

The board can be turned over, the two sides changing places, and it can be seen in a mirror. Neither changes the
game: a position and its image are lost together, have corresponding moves with corresponding results, and are
worth the same.

Everything is read off single squares. A reflection maps the directions of a side to those of the corresponding
side (`leads_direction`), hence the image of a set commutes with looking ahead, along the diagonals and as far as
pawns could ever go. The one term that is not symmetric in itself is the shape: it counts pawns with a neighbour
to the left, which is to the right in the mirror. There are as many of one kind as of the other
(`countP_left`).
-/

namespace Breakthrough

/-- The two symmetries of the game. -/
inductive Reflection where
  /-- Top and bottom change places, and so do the sides. -/
  | flip
  /-- Left and right change places. -/
  | mirror
  deriving DecidableEq, Repr

namespace Reflection

def square : Reflection → Square → Square
  | flip, s => .of s.column s.row.rev
  | mirror, s => .of s.column.rev s.row

def color : Reflection → Color → Color
  | flip, c => c.opponent
  | mirror, c => c

def move (f : Reflection) (m : Move) : Move := ⟨f.square m.source, f.square m.target⟩

def board (f : Reflection) (board : Vector Cell 64) : Vector Cell 64 :=
  .ofFn fun i => (board.get (f.square ⟨i⟩).index).map f.color

def set (f : Reflection) (b : Bitboard) : Bitboard :=
  Square.all.foldl (fun set s => if b.contains (f.square s) then set.toggle s else set) .empty

def direction : Reflection → Direction → Direction
  | flip, .up => .down
  | flip, .down => .up
  | flip, .upLeft => .downLeft
  | flip, .upRight => .downRight
  | flip, .downLeft => .upLeft
  | flip, .downRight => .upRight
  | flip, .left => .left
  | flip, .right => .right
  | mirror, .up => .up
  | mirror, .down => .down
  | mirror, .upLeft => .upRight
  | mirror, .upRight => .upLeft
  | mirror, .downLeft => .downRight
  | mirror, .downRight => .downLeft
  | mirror, .left => .right
  | mirror, .right => .left

variable (f : Reflection)

/-! ## Squares and sides -/

@[simp] theorem square_square (s : Square) : f.square (f.square s) = s := by
  cases f <;> simp [square]

theorem square_injective : Function.Injective f.square :=
  Function.LeftInverse.injective f.square_square

@[simp] theorem square_inj {s t : Square} : f.square s = f.square t ↔ s = t :=
  f.square_injective.eq_iff

@[simp] theorem color_color (c : Color) : f.color (f.color c) = c := by
  cases f <;> simp [color]

theorem color_injective : Function.Injective f.color :=
  Function.LeftInverse.injective f.color_color

@[simp] theorem color_opponent (c : Color) : (f.color c).opponent = f.color c.opponent := by
  cases f <;> rfl

@[simp] theorem map_color_eq_some {x : Cell} {c : Color} : x.map f.color = some (f.color c) ↔ x = some c := by
  cases x <;> simp [f.color_injective.eq_iff]

@[simp] theorem move_move (m : Move) : f.move (f.move m) = m := by
  simp [move]

theorem isStraight_move (m : Move) : (f.move m).isStraight = m.isStraight := by
  cases f <;> simp [move, square, Move.isStraight, Fin.rev_inj]

/-- A reflection takes the home row of a side to that of the corresponding side. -/
theorem row_square_eq_homeRow (s : Square) (c : Color) :
    (f.square s).row = (f.color c).homeRow ↔ s.row = c.homeRow := by
  cases f
  · cases c <;> simp only [square, color, Square.row_of, Color.opponent, Color.homeRow, Fin.ext_iff,
      Fin.val_rev] <;> omega
  · simp [square, color]

theorem rowsToGoal_square (c : Color) (s : Square) :
    Position.rowsToGoal (f.color c) (f.square s) = Position.rowsToGoal c s := by
  cases f <;> cases c <;> simp [Position.rowsToGoal, color, square, Color.relativeRow, Color.opponent]

theorem leads_direction (d : Direction) (s t : Square) :
    (f.direction d).Leads (f.square s) (f.square t) ↔ d.Leads s t := by
  have hsc := s.column.isLt
  have hsr := s.row.isLt
  have htc := t.column.isLt
  have htr := t.row.isLt
  cases f <;> cases d <;>
    simp only [direction, square, Direction.Leads, Direction.columnStep, Direction.rowStep,
      Square.column_of, Square.row_of, Fin.val_rev] <;> omega

theorem ahead_color (c : Color) : (f.color c).ahead = f.direction c.ahead := by
  cases f <;> cases c <;> rfl

theorem leads_ahead (c : Color) (s t : Square) :
    (f.color c).ahead.Leads (f.square s) (f.square t) ↔ c.ahead.Leads s t := by
  rw [ahead_color, leads_direction]

/-- The mirror exchanges the two diagonals. -/
theorem leads_diagonal (c : Color) (s t : Square) :
    ((f.color c).aheadLeft.Leads (f.square s) (f.square t) ∨
      (f.color c).aheadRight.Leads (f.square s) (f.square t)) ↔
    (c.aheadLeft.Leads s t ∨ c.aheadRight.Leads s t) := by
  rw [← leads_direction f c.aheadLeft, ← leads_direction f c.aheadRight]
  cases f <;> cases c <;> simp only [color, Color.opponent, Color.aheadLeft, Color.aheadRight, direction,
    or_comm]

theorem get_board (board : Vector Cell 64) (s : Square) :
    (f.board board).get (f.square s).index = (board.get s.index).map f.color := by
  change (Vector.ofFn _)[(f.square s).index.val] = _
  rw [Vector.getElem_ofFn]
  change (board.get (f.square (f.square s)).index).map f.color = _
  rw [square_square]

@[simp] theorem contains_set (b : Bitboard) (s : Square) : (f.set b).contains s = b.contains (f.square s) := by
  rw [set, Bitboard.contains_foldl_toggle (fun s => b.contains (f.square s)) _ Square.nodup_all]
  simp [Square.mem_all]

/-! ## Steps -/

theorem step_board (board : Vector Cell 64) (c : Color) (m : Move) :
    Mailbox.Step (f.board board) (f.color c) (f.move m) ↔ Mailbox.Step board c m := by
  have hcell := f.get_board board
  have hown : ∀ s, (f.board board).get (f.square s).index = some (f.color c) ↔ board.get s.index = some c := by
    intro s
    rw [hcell, map_color_eq_some]
  have hempty : ∀ s, (f.board board).get (f.square s).index = none ↔ board.get s.index = none := by
    intro s
    rw [hcell, Option.map_eq_none_iff]
  constructor
  · rintro ⟨hsource, hway⟩
    refine ⟨(hown _).1 hsource, ?_⟩
    rwa [move, leads_ahead, leads_diagonal, hempty, ne_eq, hown] at hway
  · rintro ⟨hsource, hway⟩
    refine ⟨(hown _).2 hsource, ?_⟩
    rwa [move, leads_ahead, leads_diagonal, hempty, ne_eq, hown]

/-! ## Sets of squares -/

section Sets

open Bitboard

variable {f} (a b : Bitboard) (c : Color) (s : Square)

theorem set_and : f.set (a &&& b) = f.set a &&& f.set b := ext_contains fun s => by simp

theorem set_or : f.set (a ||| b) = f.set a ||| f.set b := ext_contains fun s => by simp

theorem set_single : f.set (single s) = single (f.square s) := by
  apply ext_contains
  intro t
  rw [contains_set, contains_single, contains_single]
  congr 1
  rw [eq_iff_iff, ← f.square_inj, square_square]

theorem isNonempty_set : (f.set b).isNonempty = b.isNonempty := by
  rw [Bool.eq_iff_iff, isNonempty_iff, isNonempty_iff]
  constructor
  · rintro ⟨s, hs⟩
    exact ⟨f.square s, by rwa [contains_set] at hs⟩
  · rintro ⟨s, hs⟩
    exact ⟨f.square s, by rwa [contains_set, square_square]⟩

theorem isEmpty_set : (f.set b).isEmpty = b.isEmpty := by
  have h : ∀ b : Bitboard, b.isEmpty = !b.isNonempty := fun b => by simp [isEmpty, isNonempty, bne]
  rw [h, h, isNonempty_set]

theorem squares_set : (f.set b).squares.Perm (b.squares.map f.square) := by
  rw [List.perm_ext_iff_of_nodup (nodup_squares _) ((nodup_squares b).map f.square_injective)]
  intro s
  rw [mem_squares, contains_set, List.mem_map]
  constructor
  · intro hs
    exact ⟨f.square s, (mem_squares _ _).2 hs, f.square_square s⟩
  · rintro ⟨t, ht, rfl⟩
    rwa [square_square, ← mem_squares]

theorem count_set : (f.set b).count = b.count := by
  rw [← length_squares, ← length_squares, (squares_set b).length_eq, List.length_map]

theorem forward_set : (f.set b).forward (f.color c) = f.set (b.forward c) := by
  apply ext_contains
  intro t
  rw [Bool.eq_iff_iff, contains_set, contains_forward, contains_forward]
  constructor
  · rintro ⟨s, hs, hst⟩
    refine ⟨f.square s, by rwa [contains_set] at hs, ?_⟩
    rwa [← leads_ahead f, square_square, square_square]
  · rintro ⟨s, hs, hst⟩
    refine ⟨f.square s, by rwa [contains_set, square_square], ?_⟩
    rwa [← leads_ahead f, square_square] at hst

theorem attacks_set : (f.set b).attacks (f.color c) = f.set (b.attacks c) := by
  apply ext_contains
  intro t
  rw [Bool.eq_iff_iff, contains_set, contains_attacks, contains_attacks]
  constructor
  · rintro ⟨s, hs, hst⟩
    refine ⟨f.square s, by rwa [contains_set] at hs, ?_⟩
    rwa [← leads_diagonal f, square_square, square_square]
  · rintro ⟨s, hs, hst⟩
    refine ⟨f.square s, by rwa [contains_set, square_square], ?_⟩
    rwa [← leads_diagonal f, square_square] at hst

theorem advance_set (steps : Nat) :
    advance (f.color c) steps (f.set a) (f.set b) = f.set (advance c steps a b) := by
  induction steps generalizing a b with
  | zero => rfl
  | succ steps ih =>
    simp only [advance, isEmpty_set, forward_set, attacks_set, ← set_or, ih]
    split <;> rfl

theorem span_square : span (f.color c) (f.square s) = f.set (span c s) := by
  rw [span, span, ← advance_set, set_single]

theorem attackers_square : attackers (f.color c) (f.square s) = f.set (attackers c s) := by
  rw [attackers, attackers, color_opponent, ← set_single, attacks_set]

end Sets

/-! ## Neighbours -/

section Neighbours

open Bitboard

/-- Whether a set has the square one step from another. -/
def hasNeighbour (b : Bitboard) (d : Direction) (s : Square) : Bool := ((single s).shift d &&& b).isNonempty

theorem hasNeighbour_iff (b : Bitboard) (d : Direction) (s : Square) :
    hasNeighbour b d s = true ↔ ∃ t, d.Leads s t ∧ b.contains t = true := by
  simp only [hasNeighbour, isNonempty_iff, contains_and, Bool.and_eq_true, contains_shift, contains_single,
    decide_eq_true_eq, exists_eq_left']

theorem direction_direction (d : Direction) : f.direction (f.direction d) = d := by
  cases f <;> cases d <;> rfl

theorem hasNeighbour_set (b : Bitboard) (d : Direction) (s : Square) :
    hasNeighbour (f.set b) d (f.square s) = hasNeighbour b (f.direction d) s := by
  rw [Bool.eq_iff_iff, hasNeighbour_iff, hasNeighbour_iff]
  constructor
  · rintro ⟨t, hst, ht⟩
    refine ⟨f.square t, ?_, by rwa [contains_set] at ht⟩
    rwa [← leads_direction f, direction_direction, square_square]
  · rintro ⟨t, hst, ht⟩
    refine ⟨f.square t, ?_, by rwa [contains_set, square_square]⟩
    rwa [← leads_direction f, direction_direction] at hst

/-- As many squares have a neighbour on the left as on the right: a pair counts for one of its squares in either
case. -/
theorem countP_left (b : Bitboard) :
    b.squares.countP (hasNeighbour b .left) = b.squares.countP (hasNeighbour b .right) := by
  let stepLeft : Square → Square := fun s => (s.step? .left).getD s
  have hstep : ∀ {s t}, Direction.left.Leads s t → stepLeft s = t := by
    intro s t h
    simp [stepLeft, (Square.step?_eq_some_iff s t .left).2 h]
  have hinj : ∀ s ∈ b.squares.filter (hasNeighbour b .left), ∀ t ∈ b.squares.filter (hasNeighbour b .left),
      stepLeft s = stepLeft t → s = t := by
    intro s hs t ht heq
    obtain ⟨u, hu, _⟩ := (hasNeighbour_iff _ _ _).1 (List.mem_filter.1 hs).2
    obtain ⟨v, hv, _⟩ := (hasNeighbour_iff _ _ _).1 (List.mem_filter.1 ht).2
    rw [hstep hu, hstep hv] at heq
    subst heq
    apply Square.eq_of_column_row
    · exact Fin.ext (by have h := hu.1; have h' := hv.1; omega)
    · exact Fin.ext (by have h := hu.2; have h' := hv.2; omega)
  have hperm : (b.squares.filter (hasNeighbour b .right)).Perm
      ((b.squares.filter (hasNeighbour b .left)).map stepLeft) := by
    rw [List.perm_ext_iff_of_nodup ((nodup_squares b).filter _)
      (List.Nodup.map_on hinj ((nodup_squares b).filter _))]
    intro t
    simp only [List.mem_filter, List.mem_map, mem_squares, hasNeighbour_iff]
    constructor
    · rintro ⟨ht, s, hts, hs⟩
      have hst : Direction.left.Leads s t := (Direction.right.leads_opposite s t).2 hts
      exact ⟨s, ⟨hs, t, hst, ht⟩, hstep hst⟩
    · rintro ⟨s, ⟨hs, u, hsu, hu⟩, rfl⟩
      rw [hstep hsu]
      exact ⟨hu, s, (Direction.right.leads_opposite s u).1 hsu, hs⟩
  rw [List.countP_eq_length_filter, List.countP_eq_length_filter, hperm.length_eq, List.length_map]

theorem countP_direction_left (b : Bitboard) :
    b.squares.countP (hasNeighbour b (f.direction .left)) = b.squares.countP (hasNeighbour b .left) := by
  cases f
  · rfl
  · exact (countP_left b).symm

end Neighbours

/-! ## Positions -/

open Position

/-- What squares are worth does not depend on their order. -/
theorem worthOf_perm {points : Square → Nat} {l l' : List Square} (h : l.Perm l') :
    worthOf points l = worthOf points l' := by
  have hsum : ∀ l : List Square, worthOf points l = (l.map points).sum := by
    intro l
    induction l with
    | nil => rfl
    | cons s l ih => rw [List.map_cons, List.sum_cons, ← ih]; rfl
  rw [hsum, hsum, (h.map points).sum_eq]

theorem worthOf_map (points : Square → Nat) (g : Square → Square) (l : List Square) :
    worthOf points (l.map g) = worthOf (points ∘ g) l := by
  rw [worthOf, worthOf, List.foldr_map]
  rfl

/-- The shape of a side: two points for each pawn with a neighbour on the left, one for each with a pawn ahead. -/
theorem worthOf_shapePoints (p : Position) (c : Color) (l : List Square) :
    worthOf (p.shapePoints c) l =
      2 * l.countP (hasNeighbour (p.pawns c) .left) + l.countP (hasNeighbour (p.pawns c) c.ahead) := by
  have hforward : ∀ s, (Bitboard.single s).forward c = (Bitboard.single s).shift c.ahead := by
    intro s
    cases c <;> rfl
  induction l with
  | nil => rfl
  | cons s l ih =>
    have hcons : worthOf (p.shapePoints c) (s :: l) = p.shapePoints c s + worthOf (p.shapePoints c) l := rfl
    have hpoints : p.shapePoints c s = (if hasNeighbour (p.pawns c) .left s then 2 else 0) +
        if hasNeighbour (p.pawns c) c.ahead s then 1 else 0 := by
      rw [shapePoints, hforward]
      rfl
    rw [hcons, ih, hpoints, List.countP_cons, List.countP_cons]
    cases hasNeighbour (p.pawns c) .left s <;> cases hasNeighbour (p.pawns c) c.ahead s <;> simp <;> omega

/-- A position and its image, whatever their histories are. -/
structure Image (p q : Position) : Prop where
  original : p.Consistent
  image : q.Consistent
  board : q.board = f.board p.board
  side : q.side = f.color p.side

theorem image_ofBoard (board : Vector Cell 64) (side : Color) (keys keys' : KeyTable) :
    f.Image (ofBoard board side keys) (ofBoard (f.board board) (f.color side) keys') :=
  ⟨consistent_ofBoard _ _ _, consistent_ofBoard _ _ _, rfl, rfl⟩

namespace Image

variable {f} {p q : Position} (h : f.Image p q)

include h

theorem cell (s : Square) : q.cell (f.square s) = (p.cell s).map f.color := by
  rw [Position.cell, h.board, get_board]
  rfl

theorem cell_eq_some (s : Square) (c : Color) : q.cell (f.square s) = some (f.color c) ↔ p.cell s = some c := by
  rw [h.cell, map_color_eq_some]

theorem cell_eq_none (s : Square) : q.cell (f.square s) = none ↔ p.cell s = none := by
  rw [h.cell, Option.map_eq_none_iff]

theorem pawns (c : Color) : q.pawns (f.color c) = f.set (p.pawns c) := by
  apply Bitboard.ext_contains
  intro s
  rw [h.image.pawns, contains_set, h.original.pawns]
  congr 1
  rw [eq_iff_iff, ← h.cell_eq_some, square_square]

/-! ### Moves -/

theorem mem_moves (m : Move) : f.move m ∈ q.moves ↔ m ∈ p.moves := by
  rw [h.image.mem_moves, h.original.mem_moves, h.board, h.side, step_board]

theorem moves_perm : q.moves.Perm (p.moves.map f.move) := by
  have hinj : Function.Injective f.move := Function.LeftInverse.injective f.move_move
  rw [List.perm_ext_iff_of_nodup h.image.nodup_moves (h.original.nodup_moves.map hinj)]
  intro m
  rw [List.mem_map]
  constructor
  · intro hm
    exact ⟨f.move m, by rwa [← h.mem_moves, move_move], f.move_move m⟩
  · rintro ⟨n, hn, rfl⟩
    rwa [h.mem_moves]

theorem isLost : q.isLost = p.isLost := by
  have hmoves : q.moves = [] ↔ p.moves = [] := by
    rw [← List.length_eq_zero_iff, h.moves_perm.length_eq, List.length_map, List.length_eq_zero_iff]
  rw [Bool.eq_iff_iff, h.image.isLost_iff, h.original.isLost_iff, hmoves, h.side, color_opponent]
  refine or_congr_left ?_
  constructor
  · rintro ⟨s, hrow, hcell⟩
    refine ⟨f.square s, ?_, ?_⟩
    · rwa [← row_square_eq_homeRow f, square_square]
    · rwa [← h.cell_eq_some, square_square]
  · rintro ⟨s, hrow, hcell⟩
    exact ⟨f.square s, (row_square_eq_homeRow f _ _).2 hrow, (h.cell_eq_some _ _).2 hcell⟩

theorem accepts_iff (hdepth : q.depth = p.depth) (m : Move) : q.Accepts (f.move m) ↔ p.Accepts m := by
  constructor
  · rintro ⟨hlost, hsource, htarget, hstraight, hroom⟩
    rw [h.side] at hsource htarget
    rw [isStraight_move] at hstraight
    refine ⟨by rwa [← h.isLost], (h.cell_eq_some _ _).1 hsource, ?_, ?_, by rwa [← hdepth]⟩
    · rwa [ne_eq, ← h.cell_eq_some]
    · exact fun hs => (h.cell_eq_none _).1 (hstraight hs)
  · rintro ⟨hlost, hsource, htarget, hstraight, hroom⟩
    refine ⟨by rwa [h.isLost], ?_, ?_, ?_, by rwa [hdepth]⟩
    · rw [h.side]
      exact (h.cell_eq_some _ _).2 hsource
    · rw [h.side]
      exact fun ht => htarget ((h.cell_eq_some _ _).1 ht)
    · rw [isStraight_move]
      exact fun hs => (h.cell_eq_none _).2 (hstraight hs)

/-- Corresponding moves lead to corresponding positions. -/
theorem advance {m : Move} (hp : p.Accepts m) (hq : q.Accepts (f.move m)) :
    f.Image (p.advance m) (q.advance (f.move m)) := by
  refine ⟨h.original.advance hp, h.image.advance hq, ?_, ?_⟩
  · apply board_ext
    intro s
    change (q.advance (f.move m)).cell s = _
    rw [← f.square_square s, get_board]
    change _ = ((p.advance m).cell (f.square s)).map f.color
    rw [cell_advance, cell_advance, h.side, h.cell]
    simp only [move, square_inj]
    split
    · rfl
    · split
      · rfl
      · rfl
  · rw [side_advance, side_advance, h.side, color_opponent]

theorem capture (m : Move) :
    (q.advance (f.move m)).history.newest.capture = (p.advance m).history.newest.capture := by
  rw [newest_advance, newest_advance]
  simp only [h.side, color_opponent]
  rw [Bool.eq_iff_iff, beq_iff_eq, beq_iff_eq]
  exact h.cell_eq_some _ _

/-! ### Evaluation -/

theorem isRunner (c : Color) (s : Square) : q.isRunner (f.color c) (f.square s) = p.isRunner c s := by
  rw [Position.isRunner, Position.isRunner, color_opponent, h.pawns, span_square, ← set_and, count_set]

theorem isGuarded (c : Color) (s : Square) : q.isGuarded (f.color c) (f.square s) = p.isGuarded c s := by
  rw [Position.isGuarded, Position.isGuarded, color_opponent, h.pawns, h.pawns, attackers_square,
    attackers_square, ← set_and, ← set_and, count_set, count_set]

theorem fastest? (c : Color) : q.fastest? (f.color c) = p.fastest? c := by
  have hperm : (((q.pawns (f.color c)).squares.filter (q.isRunner (f.color c))).map (rowsToGoal (f.color c))).Perm
      (((p.pawns c).squares.filter (p.isRunner c)).map (rowsToGoal c)) := by
    rw [h.pawns]
    refine ((squares_set (p.pawns c)).filter _).map _ |>.trans ?_
    rw [List.filter_map, List.map_map]
    have hrunner : q.isRunner (f.color c) ∘ f.square = p.isRunner c := funext (h.isRunner c)
    have hrows : rowsToGoal (f.color c) ∘ f.square = rowsToGoal c := funext (f.rowsToGoal_square c)
    rw [hrunner, hrows]
  rw [Position.fastest?, Position.fastest?]
  refine hperm.foldl_eq' ?_ none
  intro m _ n _ best
  cases best with
  | none => simp [closer, Nat.min_comm]
  | some k => simp [closer, Nat.min_assoc, Nat.min_comm m n]

theorem shape (c : Color) :
    worthOf (q.shapePoints (f.color c)) (q.pawns (f.color c)).squares =
      worthOf (p.shapePoints c) (p.pawns c).squares := by
  have hcount : ∀ d, (f.set (p.pawns c)).squares.countP (hasNeighbour (f.set (p.pawns c)) d) =
      (p.pawns c).squares.countP (hasNeighbour (p.pawns c) (f.direction d)) := by
    intro d
    rw [(squares_set (p.pawns c)).countP_eq, List.countP_map]
    exact congrArg (List.countP · _) (funext (hasNeighbour_set f (p.pawns c) d))
  rw [worthOf_shapePoints, worthOf_shapePoints, h.pawns, hcount, hcount, countP_direction_left, ahead_color,
    direction_direction]

theorem levers (c : Color) :
    worthOf (q.leverPoints (f.color c)) (q.pawns (f.color c)).squares =
      worthOf (p.leverPoints c) (p.pawns c).squares := by
  have hpoints : q.leverPoints (f.color c) ∘ f.square = p.leverPoints c := by
    funext s
    rw [Function.comp_apply, leverPoints, leverPoints, h.isGuarded]
  rw [h.pawns, worthOf_perm (squares_set (p.pawns c)), worthOf_map, hpoints]

theorem summary (c : Color) : q.summary (f.color c) = p.summary c := by
  simp only [Position.summary, h.fastest?, h.shape, h.levers]
  rw [h.pawns, count_set]

theorem evaluate {α : Type} [Score α] : (q.evaluate : α) = p.evaluate := by
  rw [Position.evaluate, Position.evaluate, h.side, color_opponent, h.summary, h.summary]

end Image

/-- **The game is symmetric.** A position and its image under a reflection, with histories of the same length,
are lost together. The moves of the image are the images of the moves. A move can be played exactly if its image
can, and then the results correspond: the cells, the sets of pawns, the side to move and whether a pawn was
captured. What the pawns of corresponding sides amount to is the same, and so is the score, whatever numbers it
is computed with. -/
theorem symmetric_game {p q : Position} (h : f.Image p q) (hdepth : q.depth = p.depth) :
    q.isLost = p.isLost ∧
    q.moves.Perm (p.moves.map f.move) ∧
    (∀ m, ((∃ q', q.play (f.move m) = .ok q') ↔ ∃ p', p.play m = .ok p') ∧
      ∀ p' q', p.play m = .ok p' → q.play (f.move m) = .ok q' →
        q'.board = f.board p'.board ∧ (∀ c, q'.pawns (f.color c) = f.set (p'.pawns c)) ∧
        q'.side = f.color p'.side ∧ q'.history.newest.capture = p'.history.newest.capture) ∧
    (∀ c, q.summary (f.color c) = p.summary c) ∧
    ∀ (α : Type) [Score α], (q.evaluate : α) = p.evaluate := by
  have hplay : ∀ (r r' : Position) (m : Move), r.play m = .ok r' ↔ r.Accepts m ∧ r' = r.advance m := by
    intro r r' m
    rw [← refusal?_eq_none_iff, play]
    cases r.refusal? m with
    | none => simp [eq_comm]
    | some e => simp
  refine ⟨h.isLost, h.moves_perm, fun m => ⟨?_, ?_⟩, h.summary, fun α _ => h.evaluate⟩
  · simp only [hplay, h.accepts_iff hdepth, exists_and_left, exists_eq, and_true]
  · intro p' q' hp' hq'
    obtain ⟨hp, rfl⟩ := (hplay _ _ _).1 hp'
    obtain ⟨hq, rfl⟩ := (hplay _ _ _).1 hq'
    have himage := h.advance hp hq
    exact ⟨himage.board, himage.pawns, himage.side, h.capture m⟩

/-- In the mirror: a pawn with a neighbour on one side only, and a capture. -/
theorem symmetric_game_capture :
    let board : Vector Cell 64 := .ofFn fun i =>
      if i.val ∈ [9, 10, 20] then some .white else if i.val ∈ [29, 44] then some .black else none
    let keys : KeyTable := ⟨.replicate 64 0, .replicate 64 0, 0⟩
    let p := ofBoard board .white keys
    let q := ofBoard (mirror.board board) .white keys
    mirror.Image p q ∧ q.depth = p.depth ∧
      (∃ q', q.play (mirror.move ⟨⟨20⟩, ⟨29⟩⟩) = .ok q' ∧ q'.history.newest.capture = true) ∧
      q.summary .white = ⟨3, some 6, 2, 4⟩ ∧ (q.evaluate : Float) = p.evaluate := by
  intro board keys p q
  have himage : mirror.Image p q := mirror.image_ofBoard board .white keys keys
  have hdepth : q.depth = p.depth := by
    have hzero : ∀ board side keys, (ofBoard board side keys).depth = 0 := fun _ _ _ => rfl
    rw [hzero, hzero]
  obtain ⟨_, _, hplay, hsummary, hscore⟩ := symmetric_game mirror himage hdepth
  have hp : p.play ⟨⟨20⟩, ⟨29⟩⟩ = .ok (p.advance ⟨⟨20⟩, ⟨29⟩⟩) := by decide +kernel
  obtain ⟨q', hq'⟩ := (hplay ⟨⟨20⟩, ⟨29⟩⟩).1.2 ⟨_, hp⟩
  obtain ⟨_, _, _, hcapture⟩ := (hplay ⟨⟨20⟩, ⟨29⟩⟩).2 _ q' hp hq'
  refine ⟨himage, hdepth, ⟨q', hq', hcapture.trans (by decide +kernel)⟩, ?_, hscore Float⟩
  exact (hsummary .white).trans (by decide +kernel)

end Reflection

end Breakthrough
