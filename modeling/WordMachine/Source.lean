import WordMachine.Source.Path
import WordMachine.Text.Blank

/-!
# Where source texts come from

An assembly can splice in other texts by name. A source *resolves* a name to a path, so that two
names of one file become the same path, and *loads* the text at a path or says why it cannot.

A `Library` holds its texts in memory under their names.
-/

set_option autoImplicit false

namespace WordMachine

/-- Why a text cannot be loaded. -/
inductive LoadError where
  | unknownSource (path : Path)
  | noEntry
  | isDirectory
  | notDirectory
  | nameTooLong
  | zeroCharacter
  | invalidText
  deriving DecidableEq, Repr

def LoadError.message : LoadError → String
  | unknownSource path => "no source named " ++ path.text
  | noEntry => "No such file or directory (os error 2)"
  | isDirectory => "Is a directory (os error 21)"
  | notDirectory => "Not a directory (os error 20)"
  | nameTooLong => "File name too long (os error 36)"
  | zeroCharacter => "file name contained an unexpected NUL byte"
  | invalidText => "stream did not contain valid UTF-8"

/-- Texts that can be found by name. -/
structure Source where
  resolve : String → Path
  load : Path → Except LoadError String

/-- Texts held in memory, the latest first. -/
structure Library where
  texts : List (Path.Key × String)

namespace Library

def empty : Library := ⟨[]⟩

/-- The path of a name: the name without blanks around it. -/
def path (name : String) : Path :=
  ⟨String.ofList (Text.trim name.toList)⟩

/-- The library with one more text, which replaces an earlier one of the same name. -/
def insert (library : Library) (name text : String) : Library :=
  ⟨((path name).key, text) :: library.texts⟩

/-- The library as a source. -/
def toSource (library : Library) : Source where
  resolve := path
  load path :=
    match library.texts.lookup path.key with
    | some text => .ok text
    | none => .error (.unknownSource path)

end Library
end WordMachine
