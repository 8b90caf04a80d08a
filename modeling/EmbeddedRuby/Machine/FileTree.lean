import EmbeddedRuby.Text.Layout

/-!
# Files

The files that scripts are loaded from.  A path starts at the root if it is absolute, and at the
working directory otherwise.  It is looked up one component at a time: `.` and the empty component
stay, `..` goes up, and each step has to start from a directory.  Paths with a NUL and paths that are
too long lead nowhere.

`LoadPath.candidates` are the paths at which a script is looked for.
-/

namespace EmbeddedRuby

/-- What stands at a place in the tree. -/
inductive FileNode where
  | directory
  | file (bytes : List UInt8)

/-- A file system: what stands at its places, and the working directory.  Places are given by their
components from the root. -/
structure FileTree where
  nodes : List (List String × FileNode) := []
  workDir : List String := ["work"]

namespace FileTree

/-- What stands at a place.  The working directory and all that is above it always exist. -/
def node? (t : FileTree) (place : List String) : Option FileNode :=
  if place.isPrefixOf t.workDir then some .directory
  else (t.nodes.find? fun entry => entry.1 == place).map (·.2)

/-- The components of a path. -/
def components (path : String) : List String :=
  (Text.splitOn ['/'] path.toList).map String.ofList

/-- The place at which a path starts. -/
def start (t : FileTree) (path : String) : List String :=
  if path.toList.head? = some '/' then [] else t.workDir

/-- Where one component leads from a place; nothing is above the root. -/
def reach (place : List String) (name : String) : List String :=
  if name = "" ∨ name = "." then place
  else if name = ".." then place.dropLast
  else place ++ [name]

/-- Follow components from a place; each step starts at a directory. -/
def walk (t : FileTree) (place : List String) : List String → Option (List String)
  | [] => some place
  | name :: rest =>
    match t.node? place with
    | some .directory => t.walk (reach place name) rest
    | _ => none

/-- The longest path that can be followed has one byte less, whether or not its steps cancel out. -/
def pathLimit : Nat := 4096

/-- The contents of the file at a path. -/
def file? (t : FileTree) (path : String) : Option (List UInt8) :=
  if path.toList.contains '\x00' ∨ pathLimit ≤ path.utf8ByteSize then none
  else
    match (t.walk (t.start path) (components path)).bind t.node? with
    | some (.file bytes) => some bytes
    | _ => none

/-- The places that components pass from a place, the last of them first. -/
def passed (place : List String) (names : List String) : List (List String) :=
  names.foldl (fun places name => reach (places.headD place) name :: places) []

/-- The tree with a node at a path.  Whatever the path passes on the way is made a directory. -/
def insert (t : FileTree) (path : String) (node : FileNode) : FileTree :=
  match passed (t.start path) (components path) with
  | [] => t
  | place :: above => { t with nodes := (place, node) :: above.map (·, .directory) ++ t.nodes }

end FileTree

namespace LoadPath

/-- A path below a directory. -/
def join (directory path : String) : String :=
  if directory = "" then path
  else if directory.toList.getLast? = some '/' then directory ++ path
  else directory ++ "/" ++ path

/-- Is the path looked up as it is, whatever the load path? -/
def isExplicit (path : String) : Bool :=
  let text := path.toList
  "/".toList.isPrefixOf text || "./".toList.isPrefixOf text || "../".toList.isPrefixOf text

/-- The paths at which a script is looked for, in this order. -/
def candidates (directories : List String) (path : String) : List String :=
  if isExplicit path then [path] else directories.map (join · path) ++ [path]

end LoadPath

end EmbeddedRuby
