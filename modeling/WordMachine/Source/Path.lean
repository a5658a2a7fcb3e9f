/-!
# Paths

A path is kept as it was written, because messages show it that way. Two paths are the same if
they have the same *key*: repeated slashes, a final slash and dots after the first name do not
count, while a leading dot and any pair of dots do.
-/

set_option autoImplicit false

namespace WordMachine

/-- A path as it was written. -/
structure Path where
  text : String
  deriving DecidableEq, Repr

namespace Path

/-- What identifies a path: whether it starts at the root, and the names on it. -/
structure Key where
  rooted : Bool
  names : List String
  deriving DecidableEq, Repr

/-- The pieces of a path between its slashes. -/
def pieces (path : Path) : List String :=
  (path.text.toList.splitOn '/').map String.ofList

/-- Whether the path starts at the root. -/
def isAbsolute (path : Path) : Bool :=
  path.text.toList.head? == some '/'

/-- Whether the path holds the zero character, which ends a path for the file system. -/
def hasZero (path : Path) : Bool :=
  path.text.toList.any fun c => c.toNat == 0

/-- Whether a piece stays in the same directory. -/
def isIdle (piece : String) : Bool :=
  piece == "" || piece == "."

def key (path : Path) : Key :=
  let names := path.pieces.filter fun piece => !isIdle piece
  { rooted := path.isAbsolute
    names := if path.pieces.head? = some "." then "." :: names else names }

/-- A name looked up in a directory. An absolute name stays as it is. -/
def join (directory name : Path) : Path :=
  if name.isAbsolute || directory.text.isEmpty then name
  else if directory.text.toList.getLast? = some '/' then ⟨directory.text ++ name.text⟩
  else ⟨directory.text ++ "/" ++ name.text⟩

end Path
end WordMachine
