import Std.Data.HashSet

/-!
# Files and directories

A directory tree as a value: which directories there are and what each file holds. Paths are texts
with slashes. A path is followed step by step, from the root if it starts with a slash and from the
working directory otherwise: a single dot stays, two dots lead one directory up, and a name leads to
what the directory holds under it. Every step but the last has to lead to a directory that is there,
so a dot behind a file, or behind nothing, is refused.
-/

namespace Breakthrough

inductive FileProblem where
  | notFound
  | alreadyExists
  | notADirectory
  | isADirectory
  | invalidInput
  | invalidName
  | invalidData
  | other
  deriving DecidableEq, Repr

namespace Path

/-- The parts of a path between its slashes. -/
def parts (path : String) : List String := (path.toList.splitOn '/').map String.ofList

def isAbsolute (path : String) : Bool := path.startsWith "/"

/-- The steps along a path; repeated slashes count once, and those at the end not at all. -/
def steps (path : String) : List String := (parts path).filter (· != "")

/-- The steps along a path that do not stay where they are. -/
def names (path : String) : List String := (steps path).filter (· != ".")

/-- The parts that matter when paths are compared: repeated slashes and single dots do not, except
for a dot at the very beginning. -/
def components (path : String) : List String :=
  let leading := if isAbsolute path then ["/"] else if (parts path).head? = some "." then ["."] else []
  leading ++ names path

/-- The path without the last of its names, empty if there is no other. -/
def parent (path : String) : String :=
  (if isAbsolute path then "/" else "") ++ "/".intercalate (names path).dropLast

/-- A path below a directory; one that starts at the root stands for itself. -/
def join (dir path : String) : String :=
  if isAbsolute path || dir.isEmpty then path
  else if dir.endsWith "/" then dir ++ path
  else dir ++ "/" ++ path

/-- The longest name that a directory holds, in bytes. -/
def maxNameBytes : Nat := 255

def maxBytes : Nat := 4095

end Path

/-- A place in a directory tree: the names that lead to it from the working directory. Places above
the working directory start with two dots, and places reached from the root start with a slash. -/
abbrev Place := List String

namespace Place

def root : Place := ["/"]

def start (path : String) : Place := if Path.isAbsolute path then root else []

/-- The directory around a place; the root is its own. -/
def outer (place : Place) : Place :=
  match place.getLast? with
  | none => [".."]
  | some name =>
    if name = ".." then place ++ [".."] else if place = root then root else place.dropLast

def isInner (place : Place) : Bool := place.head?.all fun name => name != ".." && name != "/"

end Place

structure FileTree where
  /-- The directories, except for the root, the working directory and those above it. -/
  dirs : Std.HashSet Place
  files : List (Place × ByteArray)

namespace FileTree

def empty : FileTree := ⟨∅, []⟩

def isDir (t : FileTree) (place : Place) : Bool :=
  place.all (· == "..") || place == Place.root || t.dirs.contains place

def content? (t : FileTree) (place : Place) : Option ByteArray := t.files.lookup place

def isFile (t : FileTree) (place : Place) : Bool := (t.content? place).isSome

/-- Follows steps from a directory. The last of them may lead to something that is not there. -/
def follow (t : FileTree) : (here : Place) → List String → Except FileProblem Place
  | here, [] => .ok here
  | here, "." :: steps => follow t here steps
  | here, ".." :: steps => follow t here.outer steps
  | here, name :: steps =>
    let next := here ++ [name]
    if Path.maxNameBytes < name.utf8ByteSize then .error .invalidName
    else if steps.isEmpty || t.isDir next then follow t next steps
    else if t.isFile next then .error .notADirectory
    else .error .notFound

/-- The place that a path leads to, whether or not there is something. -/
def locate (t : FileTree) (path : String) : Except FileProblem Place :=
  if path.contains '\x00' then .error .invalidInput
  else if path.isEmpty then .error .notFound
  else if Path.maxBytes < path.utf8ByteSize then .error .invalidName
  else t.follow (Place.start path) (Path.steps path)

/-! ## Directories -/

def ensureDir (t : FileTree) (path : String) : Except FileProblem FileTree :=
  match t.locate path with
  | .error e => .error e
  | .ok place =>
    if t.isDir place then .ok t
    else if t.isFile place then .error .alreadyExists
    else .ok { t with dirs := t.dirs.insert place }

/-- Follows names from a directory and makes the directories that are missing. -/
def makeDirs : FileTree → (here : Place) → List String → Except FileProblem Unit × FileTree
  | t, _, [] => (.ok (), t)
  | t, here, ".." :: names => makeDirs t here.outer names
  | t, here, name :: names =>
    let next := here ++ [name]
    if Path.maxNameBytes < name.utf8ByteSize then (.error .invalidName, t)
    else if t.isDir next then makeDirs t next names
    else if t.isFile next then (.error .alreadyExists, t)
    else makeDirs { t with dirs := t.dirs.insert next } next names

/-- Makes a directory. When something above it is missing, the directories along its parent are made
first. The empty path asks for nothing. -/
def createDir (t : FileTree) (path : String) : Except FileProblem Unit × FileTree :=
  let once (t : FileTree) : Except FileProblem Unit × FileTree :=
    match t.ensureDir path with
    | .error e => (.error e, t)
    | .ok t => (.ok (), t)
  if path.isEmpty then (.ok (), t)
  else
    match once t with
    | (.error .notFound, t) =>
      match t.makeDirs (Place.start path) (Path.names path).dropLast with
      | (.error e, t) => (.error e, t)
      | (.ok (), t) => once t
    | result => result

/-! ## Files -/

/-- The tree with a file that holds the given bytes, whatever it held before. -/
def put (t : FileTree) (place : Place) (bytes : ByteArray) : FileTree :=
  { t with files := (place, bytes) :: t.files.filter fun f => f.1 != place }

def write (t : FileTree) (path : String) (bytes : ByteArray) : Except FileProblem FileTree :=
  match t.locate path with
  | .error e => .error e
  | .ok place =>
    if path.endsWith "/" || t.isDir place then .error .isADirectory else .ok (t.put place bytes)

def read (t : FileTree) (path : String) : Except FileProblem ByteArray :=
  match t.locate path with
  | .error e => .error e
  | .ok place =>
    if t.isDir place then .error .isADirectory
    else
      match t.content? place with
      | none => .error .notFound
      | some bytes => if path.endsWith "/" then .error .notADirectory else .ok bytes

/-- The files below the working directory with their paths, in the order of the paths' texts. -/
def listing (t : FileTree) : List (String × ByteArray) :=
  ((t.files.filter fun f => f.1.isInner).map fun (place, bytes) =>
    ("/".intercalate place, bytes)).mergeSort fun a b => a.1 ≤ b.1

end FileTree

end Breakthrough
