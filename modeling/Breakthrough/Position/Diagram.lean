import Breakthrough.Position.Basic

/-!
# Diagrams

A diagram is a text with eight rows of the letters `W`, `B` and `.`, the highest row first. All other
characters are passed over, and lines without a letter are no rows. A position is printed as a
heading and such a diagram.
-/

namespace Breakthrough.Position

/-- The cells that a line of a diagram shows. -/
def lineCells (line : List Char) : List Cell := line.filterMap Cell.ofSymbol?

/-- The characters of a text cut at its line feeds. -/
def textLines (s : String) : List (List Char) := s.toList.splitOn '\n'

/-- The rows of a diagram, from the top. -/
def diagramRows (s : String) : List (List Cell) :=
  ((textLines s).map lineCells).filter fun row => !row.isEmpty

/-- The first row that has not eight cells, with its number on the board. -/
def unevenRow? (rows : List (List Cell)) : Option Error :=
  rows.zipIdx.findSome? fun (row, i) =>
    if row.length = 8 then none else some (.diagramWidth (8 - i) row.length)

/-- The board of eight rows of eight cells, from the top. -/
def boardOfRows (rows : List (List Cell)) : Vector Cell 64 :=
  .ofFn fun i =>
    let s : Square := ⟨i⟩
    ((rows[7 - s.row.val]?.getD [])[s.column.val]?).getD none

def ofDiagram (s : String) (side : Color) : Except Error Position :=
  let rows := diagramRows s
  if rows.length ≠ 8 then .error (.diagramHeight rows.length)
  else
    match unevenRow? rows with
    | some e => .error e
    | none => .ok (ofBoard (boardOfRows rows) side .shared)

def text (p : Position) : String :=
  s!"ply {p.ply}, {p.side.lowerText} to play\n"
    ++ Bitboard.picture (fun s => (p.cell s).symbol) ++ Bitboard.columnLetters ++ "\n"

/-- The position as its hash and its text. -/
def describe (p : Position) : String :=
  s!"Position \x7b hash: 0x{Text.word64 p.hash} \x7d\n" ++ p.text

end Breakthrough.Position
