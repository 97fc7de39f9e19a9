import Breakthrough.Proofs.Consistency

/-!
# Reading and printing diagrams

The *marks* of a text are the letters `W`, `B` and `.` of the lines that have one (`marks`); a diagram
is read off its marks and off nothing else (`marks_eq`). A line feed cuts the rows of a text in two
(`charRows_append`), so the rows of a printed position are read off line by line: the heading and the
column letters have no mark, and each line of the picture has those of one row (`diagramRows_text`).
-/

namespace Breakthrough

/-! ## Marks -/

namespace Cell

/-- The characters that stand for a cell. -/
def isMark (ch : Char) : Bool := ch = 'W' || ch = 'B' || ch = '.'

theorem symbol_of_ofSymbol? {ch : Char} {c : Cell} (h : ofSymbol? ch = some c) : c.symbol = ch := by
  unfold ofSymbol? at h
  split at h <;> cases h <;> rfl

theorem isMark_eq (ch : Char) : isMark ch = (ofSymbol? ch).isSome := by
  unfold ofSymbol?
  split
  · rfl
  · rfl
  · rfl
  · rename_i hW hB hnone
    simp only [isMark, decide_eq_false hW, decide_eq_false hB, decide_eq_false hnone]
    rfl

end Cell

namespace Position

/-- The marks of every line that has one. -/
def marks (s : String) : List (List Char) :=
  ((textLines s).filter (·.any Cell.isMark)).map (·.filter Cell.isMark)

theorem map_symbol_lineCells (line : List Char) :
    (lineCells line).map Cell.symbol = line.filter Cell.isMark := by
  induction line with
  | nil => rfl
  | cons ch line ih =>
    rw [lineCells] at ih ⊢
    cases h : Cell.ofSymbol? ch with
    | none => rw [List.filterMap_cons_none h, ih, List.filter_cons_of_neg (by simp [Cell.isMark_eq, h])]
    | some c =>
      rw [List.filterMap_cons_some h, List.map_cons, ih, Cell.symbol_of_ofSymbol? h,
        List.filter_cons_of_pos (by simp [Cell.isMark_eq, h])]

theorem any_isMark (line : List Char) : line.any Cell.isMark = !(lineCells line).isEmpty := by
  have h := congrArg List.isEmpty (map_symbol_lineCells line)
  rw [List.isEmpty_map] at h
  rw [h, Bool.eq_iff_iff]
  simp

/-- The marks are the rows, letter for letter. -/
theorem marks_eq (s : String) : marks s = (diagramRows s).map (·.map Cell.symbol) := by
  rw [marks, diagramRows, List.filter_map, List.map_map]
  have hrow : (fun line : List Char => line.any Cell.isMark) =
      (fun row : List Cell => !row.isEmpty) ∘ lineCells := funext any_isMark
  have hletters : (fun line : List Char => line.filter Cell.isMark) =
      (fun row : List Cell => row.map Cell.symbol) ∘ lineCells :=
    funext fun line => (map_symbol_lineCells line).symm
  rw [hrow, hletters]

theorem getElem?_marks (s : String) (i c : Nat) :
    (marks s)[i]?.bind (·[c]?) = ((diagramRows s)[i]?.bind (·[c]?)).map Cell.symbol := by
  rw [marks_eq, List.getElem?_map, Option.bind_map, Option.map_bind]
  simp only [Function.comp_def, List.getElem?_map]

/-! ## Reading -/

/-- Eight rows of eight. -/
def IsSquare {α : Type} (rows : List (List α)) : Prop :=
  rows.length = 8 ∧ ∀ row ∈ rows, row.length = 8

theorem isSquare_marks (s : String) : IsSquare (marks s) ↔ IsSquare (diagramRows s) := by
  rw [IsSquare, IsSquare, marks_eq, List.length_map, List.forall_mem_map]
  simp only [List.length_map]

theorem unevenRow?_eq_none_iff (rows : List (List Cell)) :
    unevenRow? rows = none ↔ ∀ row ∈ rows, row.length = 8 := by
  rw [unevenRow?, List.findSome?_eq_none_iff]
  constructor
  · intro h row hrow
    obtain ⟨i, hi, rfl⟩ := List.getElem_of_mem hrow
    have := h (rows[i], i) (List.mk_mem_zipIdx_iff_getElem?.2 (List.getElem?_eq_getElem hi))
    by_contra hne
    simp [hne] at this
  · rintro h ⟨row, i⟩ hmem
    exact if_pos (h row (List.fst_mem_of_mem_zipIdx hmem))

theorem ofDiagram_eq_ok_iff {s : String} {side : Color} {p : Position} :
    ofDiagram s side = .ok p ↔
      IsSquare (diagramRows s) ∧ ofBoard (boardOfRows (diagramRows s)) side .shared = p := by
  constructor
  · intro h
    simp only [ofDiagram] at h
    split at h
    · cases h
    · split at h
      · cases h
      · rename_i hlength _ heven
        exact ⟨⟨not_not.1 hlength, (unevenRow?_eq_none_iff _).1 heven⟩, Except.ok.inj h⟩
  · rintro ⟨⟨hlength, heven⟩, rfl⟩
    exact ofDiagram_of_rows side ⟨hlength, (unevenRow?_eq_none_iff _).2 heven, rfl⟩

/-- The rows stand on the board upside down. -/
theorem get_boardOfRows {rows : List (List Cell)} (h : IsSquare rows) (i c : Fin 8) :
    rows[i.val]?.bind (·[c.val]?) = some ((boardOfRows rows).get (Square.of c i.rev).index) := by
  have hi : i.val < rows.length := by rw [h.1]; exact i.isLt
  have hc : c.val < rows[i.val].length := by rw [h.2 _ (List.getElem_mem hi)]; exact c.isLt
  have hrev : 7 - i.rev.val = i.val := by rw [Fin.val_rev]; omega
  have hget : (boardOfRows rows).get (Square.of c i.rev).index =
      ((rows[7 - (Square.of c i.rev).row.val]?.getD [])[(Square.of c i.rev).column.val]?).getD none :=
    Vector.getElem_ofFn _
  rw [hget, Square.row_of, Square.column_of, hrev, List.getElem?_eq_getElem hi, Option.getD_some,
    List.getElem?_eq_getElem hc, Option.getD_some, Option.bind_some, List.getElem?_eq_getElem hc]

/-! ## Printing -/

/-- The rows of a list of characters. -/
def charRows (cs : List Char) : List (List Cell) :=
  ((cs.splitOn '\n').map lineCells).filter fun row => !row.isEmpty

theorem charRows_append (cs ds : List Char) :
    charRows (cs ++ '\n' :: ds) = charRows cs ++ charRows ds := by
  rw [charRows, List.splitOn_append_cons_self, List.map_append, List.filter_append]
  rfl

theorem lineCells_append (cs ds : List Char) : lineCells (cs ++ ds) = lineCells cs ++ lineCells ds :=
  List.filterMap_append

/-- Characters that stay on their line and show no cell. -/
structure Silent (cs : List Char) : Prop where
  feed : '\n' ∉ cs
  cells : lineCells cs = []

theorem Silent.append {cs ds : List Char} (h : Silent cs) (k : Silent ds) : Silent (cs ++ ds) where
  feed := List.not_mem_append h.feed k.feed
  cells := by rw [lineCells_append, h.cells, k.cells, List.append_nil]

theorem silent_toDigits (n : Nat) : Silent (Nat.toDigits 10 n) := by
  have hmem : ∀ ch : Char, ch.isDigit = false → ch ∉ Nat.toDigits 10 n := by
    intro ch h hch
    rw [Nat.isDigit_of_mem_toDigits (b := 10) (by decide) (by decide) hch] at h
    cases h
  refine ⟨hmem _ rfl, List.filterMap_eq_nil_iff.2 fun ch hch => ?_⟩
  cases h : Cell.ofSymbol? ch with
  | none => rfl
  | some c =>
    have hsymbol : c.symbol.isDigit = false := by rcases c with _ | _ | _ <;> rfl
    rw [Cell.symbol_of_ofSymbol? h] at hsymbol
    exact absurd hch (hmem ch hsymbol)

theorem Silent.charRows_eq_nil {cs : List Char} (h : Silent cs) : charRows cs = [] := by
  simp [charRows, List.splitOn_eq_singleton h.feed, h.cells]

theorem charRows_of_lineCells_ne_nil {cs : List Char} (hfeed : '\n' ∉ cs) (h : lineCells cs ≠ []) :
    charRows cs = [lineCells cs] := by
  simp [charRows, List.splitOn_eq_singleton hfeed, h]

def heading (ply : Nat) (side : Color) : List Char :=
  "ply ".toList ++ Nat.toDigits 10 ply ++ ", ".toList ++ side.lowerText.toList ++ " to play".toList

theorem toList_heading (ply : Nat) (side : Color) :
    (s!"ply {ply}, {side.lowerText} to play\n").toList = heading ply side ++ ['\n'] := by
  simp only [String.toList_append, Nat.toString_eq_repr, Nat.toList_repr]
  exact (List.append_assoc _ " to play".toList ['\n']).symm

theorem silent_heading (ply : Nat) (side : Color) : Silent (heading ply side) := by
  have hside : Silent side.lowerText.toList := by cases side <;> exact ⟨by decide, rfl⟩
  refine (((Silent.append ?_ (silent_toDigits ply)).append ?_).append hside).append ?_
  all_goals exact ⟨by decide, rfl⟩

/-- The line of a picture that shows a row. -/
def pictureLine (mark : Square → Char) (r : Fin 8) : List Char :=
  Nat.toDigits 10 (r.val + 1) ++ "  ".toList ++
    (List.finRange 8).flatMap fun c => [' ', mark (.of c r), ' ']

theorem toList_picture (mark : Square → Char) :
    (Bitboard.picture mark).toList =
      (List.finRange 8).reverse.flatMap fun r => pictureLine mark r ++ ['\n'] := by
  simp [Bitboard.picture, pictureLine, -List.map_reverse, List.flatMap_map, toString]

theorem toList_text (p : Position) :
    p.text.toList = heading p.ply p.side ++ '\n' ::
      ((List.finRange 8).reverse.flatMap (fun r => pictureLine (fun s => (p.cell s).symbol) r ++ ['\n']) ++
        (Bitboard.columnLetters.toList ++ ['\n'])) := by
  rw [text, String.toList_append, String.toList_append, String.toList_append, toList_picture, toList_heading,
    List.append_assoc, List.append_assoc, List.append_assoc]
  rfl

theorem charRows_pictureLine (p : Position) (r : Fin 8) :
    charRows (pictureLine (fun s => (p.cell s).symbol) r) =
      [(List.finRange 8).map fun c => p.cell (.of c r)] := by
  have hcell : ∀ c : Cell, '\n' ≠ c.symbol ∧ lineCells [' ', c.symbol, ' '] = [c] := by
    intro c
    rcases c with _ | _ | _ <;> exact ⟨by decide, rfl⟩
  have hnumber : Silent (Nat.toDigits 10 (r.val + 1) ++ "  ".toList) :=
    (silent_toDigits _).append ⟨by decide, rfl⟩
  have hfeed : '\n' ∉ pictureLine (fun s => (p.cell s).symbol) r := by
    apply List.not_mem_append hnumber.feed
    simp [fun c => (hcell c).1]
  have hrow : lineCells ((List.finRange 8).flatMap fun c => [' ', (p.cell (.of c r)).symbol, ' ']) =
      (List.finRange 8).flatMap fun c => lineCells [' ', (p.cell (.of c r)).symbol, ' '] :=
    List.filterMap_flatMap
  have hcells : lineCells (pictureLine (fun s => (p.cell s).symbol) r) =
      (List.finRange 8).map fun c => p.cell (.of c r) := by
    simp only [fun c => (hcell c).2, ← List.map_eq_flatMap] at hrow
    rw [pictureLine, lineCells_append, hnumber.cells, hrow, List.nil_append]
  rw [charRows_of_lineCells_ne_nil hfeed (by simp [hcells]), hcells]

/-- What a printed position shows: its rows, from the top, and no other. -/
theorem diagramRows_text (p : Position) :
    diagramRows p.text =
      (List.finRange 8).reverse.map fun r => (List.finRange 8).map fun c => p.cell (.of c r) := by
  have hlines : ∀ (rows : List (Fin 8)) (rest : List Char),
      charRows (rows.flatMap (fun r => pictureLine (fun s => (p.cell s).symbol) r ++ ['\n']) ++ rest) =
        (rows.map fun r => (List.finRange 8).map fun c => p.cell (.of c r)) ++ charRows rest := by
    intro rows rest
    induction rows with
    | nil => rfl
    | cons r rows ih =>
      rw [List.flatMap_cons, List.append_assoc, List.append_assoc, List.singleton_append,
        charRows_append, charRows_pictureLine, ih]
      rfl
  have hletters : charRows (Bitboard.columnLetters.toList ++ ['\n']) = [] := rfl
  change charRows p.text.toList = _
  rw [toList_text, charRows_append, (silent_heading _ _).charRows_eq_nil, hlines, hletters, List.nil_append,
    List.append_nil]

theorem isSquare_diagramRows_text (p : Position) : IsSquare (diagramRows p.text) := by
  rw [diagramRows_text]
  exact ⟨rfl, List.forall_mem_map.2 fun r _ => by rw [List.length_map, List.length_finRange]⟩

theorem boardOfRows_diagramRows_text (p : Position) : boardOfRows (diagramRows p.text) = p.board := by
  have hrow : ∀ r : Fin 8, (List.finRange 8).reverse[r.rev.val]? = some r := by decide
  have hcolumn : ∀ c : Fin 8, (List.finRange 8)[c.val]? = some c := by decide
  apply board_ext
  intro s
  have h := get_boardOfRows (isSquare_diagramRows_text p) s.row.rev s.column
  rw [Fin.rev_rev, Square.of_column_row, diagramRows_text, List.getElem?_map, hrow, Option.map_some,
    Option.bind_some, List.getElem?_map, hcolumn, Option.map_some, Square.of_column_row,
    ← diagramRows_text] at h
  exact (Option.some.inj h).symm

theorem ofDiagram_text (p : Position) (side : Color) :
    ofDiagram p.text side = .ok (ofBoard p.board side .shared) :=
  ofDiagram_eq_ok_iff.2 ⟨isSquare_diagramRows_text p, by rw [boardOfRows_diagramRows_text]⟩

/-- **Diagrams read and print faithfully.** A text is a diagram exactly when eight of its lines have
marks and each of them has eight. What is read has the `c`-th mark of the `i`-th such line on column
`c` of row `7 - i`, sets and hash of that board, and no moves behind it. And a reachable position over
the shared keys is read back from its own text, whatever its ply and side. -/
theorem ofDiagram_faithful (text : String) (side : Color) :
    ((∃ p, ofDiagram text side = .ok p) ↔
      (marks text).length = 8 ∧ ∀ row ∈ marks text, row.length = 8) ∧
    (∀ p, ofDiagram text side = .ok p →
      (∀ i c : Fin 8, (marks text)[i.val]?.bind (·[c.val]?) = some (p.cell (.of c i.rev)).symbol) ∧
      (∀ c s, (p.pawns c).contains s = true ↔ p.cell s = some c) ∧
      p.hash = p.hashFromBoard ∧ p.keys = .shared ∧
      p.side = side ∧ p.ply = 0 ∧ p.depth = 0) ∧
    ∀ (b : Position) (calls : List Call), Origin b → (b.run calls).keys = .shared →
      ∃ q, ofDiagram (b.run calls).text (b.run calls).side = .ok q ∧
        q.board = (b.run calls).board ∧ q.white = (b.run calls).white ∧
        q.black = (b.run calls).black ∧ q.side = (b.run calls).side ∧
        q.hash = (b.run calls).hash := by
  refine ⟨?_, ?_, ?_⟩
  · change _ ↔ IsSquare (marks text)
    rw [isSquare_marks]
    simp only [ofDiagram_eq_ok_iff, exists_and_left, exists_eq', and_true]
  · intro p hp
    obtain ⟨hsquare, rfl⟩ := ofDiagram_eq_ok_iff.1 hp
    have hconsistent := consistent_ofBoard (boardOfRows (diagramRows text)) side .shared
    refine ⟨fun i c => ?_, fun c s => ?_, hconsistent.hash, rfl, rfl, rfl, rfl⟩
    · rw [getElem?_marks, get_boardOfRows hsquare]
      rfl
    · rw [hconsistent.pawns, decide_eq_true_iff]
  · intro b calls hb hkeys
    have hp := hb.consistent_run calls
    have hq := consistent_ofBoard (b.run calls).board (b.run calls).side .shared
    exact ⟨_, ofDiagram_text _ _, rfl, hq.pawns_eq hp rfl .white, hq.pawns_eq hp rfl .black, rfl,
      hq.hash_eq hp hkeys.symm rfl rfl⟩

/-- A diagram with a heading, gaps, dashes and row numbers. -/
def annotated : String :=
  "to move\n\n8 B B....B B\nB.....BB\n........\n........\n... W ....\n........ | 3\n.WW..WWW\nW-W-W-W-W-W-W-W\n"

/-- An annotated diagram, and the text of a position after a capture. -/
theorem ofDiagram_faithful_capture :
    (∃ p, ofDiagram annotated .black = .ok p ∧
      (p.cell ⟨27⟩).symbol = 'W' ∧ p.hash = p.hashFromBoard ∧ p.depth = 0) ∧
    ∃ q, ofDiagram (start.run [.play ⟨⟨8⟩, ⟨55⟩⟩, .play ⟨⟨52⟩, ⟨44⟩⟩]).text .white = .ok q ∧
      q.hash = (start.run [.play ⟨⟨8⟩, ⟨55⟩⟩, .play ⟨⟨52⟩, ⟨44⟩⟩]).hash := by
  constructor
  · obtain ⟨hiff, hread, -⟩ := ofDiagram_faithful annotated .black
    have hmark : (marks annotated)[(4 : Fin 8).val]?.bind (·[(3 : Fin 8).val]?) = some 'W' := by
      decide +kernel
    obtain ⟨p, hp⟩ := hiff.2 (by decide +kernel)
    obtain ⟨hcells, -, hhash, -, -, -, hdepth⟩ := hread p hp
    exact ⟨p, hp, Option.some.inj ((hcells 4 3).symm.trans hmark), hhash, hdepth⟩
  · have hstart : Origin start := .start .shared
    obtain ⟨q, hq, -, -, -, -, hhash⟩ := (ofDiagram_faithful annotated .white).2.2 start
      [.play ⟨⟨8⟩, ⟨55⟩⟩, .play ⟨⟨52⟩, ⟨44⟩⟩] hstart (hstart.keys_run _)
    exact ⟨q, hq, hhash⟩

end Position

end Breakthrough
