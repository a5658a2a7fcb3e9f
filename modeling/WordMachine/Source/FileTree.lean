import WordMachine.Source

/-!
# Directory trees

A tree of directories and files as a source. A relative name is tried in each search directory
before the working directory, and its path is the canonical one: absolute, without dots or
repeated slashes. A name of which nothing is found stays as it is.

Names are followed from left to right. Every step needs a directory to start from, also one that
stays there, so a final slash after a file is an error. A name of more than 255 bytes is refused
once its directory is reached, and a path of more than 4095 bytes before any step, yet only where
something is opened: a longer path still has a canonical one. No path holds the zero character.
-/

set_option autoImplicit false

namespace WordMachine

/-- The names from the root to a file or directory. -/
abbrev FileTree.Location := List String

/-- What stands at a location. -/
inductive Entry where
  | directory
  | file (bytes : ByteArray)

/-- The files and directories other than the root, and the directory that relative names start
from. -/
structure FileTree where
  entries : List (FileTree.Location × Entry)
  working : FileTree.Location

namespace FileTree

/-- A tree without files. -/
def empty : FileTree := ⟨[], []⟩

/-- What stands at a location. -/
def entry? (tree : FileTree) (location : Location) : Option Entry :=
  if location = [] then some .directory else tree.entries.lookup location

/-- The tree with an entry, and with the directories above it. -/
def insert (tree : FileTree) (location : Location) (entry : Entry) : FileTree :=
  let parents := (List.range location.length).map fun depth => location.take depth
  let missing := parents.filter fun parent => (tree.entry? parent).isNone
  { tree with
    entries := (location, entry) :: missing.map (fun parent => (parent, .directory)) ++ tree.entries }

/-- The greatest number of bytes in a name. -/
def greatestName : Nat := 255

/-- The greatest number of bytes in a path that is opened. -/
def greatestPath : Nat := 4095

/-- The location that the pieces of a path lead to. -/
def follow (tree : FileTree) (current : Location) : List String → Except LoadError Location
  | [] => .ok current
  | piece :: rest =>
      match tree.entry? current with
      | some .directory =>
          if Path.isIdle piece then tree.follow current rest
          else if piece = ".." then tree.follow current.dropLast rest
          else if greatestName < piece.utf8ByteSize then .error .nameTooLong
          else
            let next := current ++ [piece]
            if (tree.entry? next).isSome then tree.follow next rest else .error .noEntry
      | _ => .error .notDirectory

/-- The location of a path. -/
def locate (tree : FileTree) (path : Path) : Except LoadError Location :=
  if path.hasZero then .error .zeroCharacter
  else if path.text.isEmpty then .error .noEntry
  else tree.follow (if path.isAbsolute then [] else tree.working) path.pieces

/-- What a path leads to when it is opened. -/
def openEntry (tree : FileTree) (path : Path) : Except LoadError Entry := do
  if greatestPath < path.text.utf8ByteSize && !path.hasZero then
    throw .nameTooLong
  match tree.entry? (← tree.locate path) with
  | some entry => return entry
  | none => throw .noEntry

/-- Whether a path leads to a file. -/
def isFile (tree : FileTree) (path : Path) : Bool :=
  match tree.openEntry path with
  | .ok (.file _) => true
  | _ => false

/-- The canonical path of a location. -/
def canonical (location : Location) : Path :=
  ⟨"/" ++ "/".intercalate location⟩

/-- The path of a name, given the search directories. -/
def resolve (tree : FileTree) (search : List Path) (name : String) : Path :=
  let candidates := search.map fun directory => directory.join ⟨name⟩
  let found :=
    if (Path.mk name).isAbsolute then ⟨name⟩ else (candidates.find? tree.isFile).getD ⟨name⟩
  match tree.locate found with
  | .ok location => canonical location
  | .error _ => found

/-- The text at a path. -/
def load (tree : FileTree) (path : Path) : Except LoadError String := do
  match ← tree.openEntry path with
  | .file bytes =>
      match String.fromUTF8? bytes with
      | some text => return text
      | none => throw .invalidText
  | .directory => throw .isDirectory

/-- The tree as a source, with search directories. -/
def toSource (tree : FileTree) (search : List Path) : Source where
  resolve := tree.resolve search
  load := tree.load

end FileTree
end WordMachine
