import WordMachine.Register
import WordMachine.Text.Blank
import WordMachine.Text.Uppercase

/-!
# Register names

A register is written `%R`, its index in decimal and the letter of its view, such as `%R12D`. In
a source text case does not matter, blanks around the name are dropped, a name that ends in its
index stands for the word view, and `%SP` and `%BP` are the stack pointer and the base pointer.
-/

set_option autoImplicit false

namespace WordMachine.Register

open WordMachine.Text

/-- The written form of a register. -/
def name (register : Register) : String :=
  "%R" ++ toString register.index.val ++ String.singleton register.width.letter

/-- Every register under its name. -/
def names : List (List Char × Register) :=
  (List.finRange 16).flatMap fun index =>
    Width.all.map fun width => ((name ⟨index, width⟩).toList, ⟨index, width⟩)

/-- A name in capitals with the view it leaves out filled in. -/
def complete (text : List Char) : List Char :=
  match text.getLast? with
  | some last => if last.isDigit then text ++ ['W'] else text
  | none => text

/-- The register a text names, if it names one. -/
def parse? (text : List Char) : Option Register :=
  match upper (trim text) with
  | ['%', 'S', 'P'] => some stackPointer
  | ['%', 'B', 'P'] => some basePointer
  | capitals => names.lookup (complete capitals)

end WordMachine.Register
