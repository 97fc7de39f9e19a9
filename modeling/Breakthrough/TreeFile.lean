import Breakthrough.Player
import Breakthrough.Search.Export

/-!
# Files with searched graphs

The graph searched for a move is written to a file named after the ply. The file is made first; if the
graph cannot be written out after that, the file stays empty.
-/

namespace Breakthrough

/-- A file to be written: its path, and what it shows unless the graph cannot be written out. -/
structure TreeFile where
  path : String
  dump : Except Error (Search.Dump Float)

namespace TreeFile

/-- The file for the graph searched from a position. -/
def of (settings : Settings) (graph : Search.Graph Float) (p : Position) : TreeFile × Position :=
  let path := settings.treePath p.ply
  let (dump, p) := graph.dump p settings.maxNodes
  (⟨path, dump⟩, p)

def store (file : TreeFile) (files : FileTree) :
    Except Failure Unit × List LogLine × FileTree :=
  match files.write file.path .empty with
  | .error problem => (.error (.uncreatable file.path problem), [], files)
  | .ok files =>
    match file.dump with
    | .error e => (.error (.unwritable file.path e), [], files)
    | .ok dump =>
      match files.write file.path dump.text.toUTF8 with
      | .error problem => (.error (.uncreatable file.path problem), [], files)
      | .ok files => (.ok (), [.debug s!"Wrote {file.path}"], files)

def makeDir (settings : Settings) (files : FileTree) : Except Failure Unit × FileTree :=
  let (result, files) := files.createDir settings.treeDir
  (result.mapError (.uncreatable settings.treeDir), files)

end TreeFile

/-- A move that has been found, and the file that has to be written before it is played. -/
structure Answer where
  move : Move
  file? : Option TreeFile

/-- Writes the file of an answer, if it has one. -/
def Answer.store (a : Answer) (files : FileTree) : Except Failure Unit × List LogLine × FileTree :=
  match a.file? with
  | none => (.ok (), [], files)
  | some file => file.store files

end Breakthrough
