import WordMachine.Text.Blank

/-!
# Macros

A macro is a name that stands for a text. Expanding a text follows macros from name to name until
it reaches a text that is none. A chain that visits more names than there are has to repeat one
and would never end, so expansion gives up after as many replacements as there are macros.
-/

set_option autoImplicit false

namespace WordMachine.Assembly

open WordMachine.Text

/-- The defined macros with their texts. -/
structure MacroTable where
  definitions : List (List Char × List Char)

namespace MacroTable

def empty : MacroTable := ⟨[]⟩

def size (table : MacroTable) : Nat :=
  table.definitions.length

/-- The text of a macro. -/
def find? (table : MacroTable) (name : List Char) : Option (List Char) :=
  table.definitions.lookup name

def contains (table : MacroTable) (name : List Char) : Bool :=
  (table.find? name).isSome

/-- The table with one more macro. -/
def define (table : MacroTable) (name text : List Char) : MacroTable :=
  ⟨(name, text) :: table.definitions⟩

/-- The table without a macro. -/
def erase (table : MacroTable) (name : List Char) : MacroTable :=
  ⟨table.definitions.filter fun entry => entry.1 != name⟩

/-- Follows macros for at most a number of replacements. -/
def follow? (table : MacroTable) : Nat → List Char → Option (List Char)
  | 0, text => if table.contains text then none else some text
  | budget + 1, text =>
      match table.find? text with
      | some replacement => table.follow? budget (trim replacement)
      | none => some text

/-- What a text stands for, unless its macros go around in a circle. -/
def expand? (table : MacroTable) (text : List Char) : Option (List Char) :=
  table.follow? table.size (trim text)

end MacroTable
end WordMachine.Assembly
