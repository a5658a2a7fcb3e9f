import WordMachine.Assembly.Statement

/-!
# The state of an assembly

An assembly keeps the code emitted so far, the scope, the *patches*, the origin, the lines that
wait to be read, the imported paths and the warnings. It goes on from this state after an error as
well.

A patch is an emitted instruction that waits for the address of a label. Once all lines have been
read its immediate is filled in, in place.
-/

set_option autoImplicit false

namespace WordMachine

namespace Assembly

/-- An emitted instruction whose immediate waits for a label, and where it was written. -/
structure Patch where
  label : String
  layout : Layout
  format : Format
  place : SourceLine
  deriving DecidableEq, Repr

/-- A doubt about a statement that is assembled all the same. -/
structure Warning where
  place : SourceLine
  message : String
  deriving DecidableEq, Repr

end Assembly

open Assembly

/-- The state of an assembly. -/
structure Assembler where
  code : Code
  scope : Scope
  /-- In the order in which the instructions were emitted. -/
  patches : Array Patch
  /-- The address of the first byte of the code. -/
  origin : UInt32
  queue : List LogicalLine
  imported : List Path.Key
  /-- In the order in which they came up. -/
  warnings : Array Warning

namespace Assembler

/-- Nothing emitted, nothing known, nothing to read. -/
def initial : Assembler where
  code := .empty
  scope := .empty
  patches := #[]
  origin := 0
  queue := []
  imported := []
  warnings := #[]

/-- The address of the byte to be emitted next. -/
def cursor (assembler : Assembler) : UInt32 :=
  assembler.origin + UInt32.ofNat assembler.code.size

/-- The state with the lines of a text in front of those that wait. -/
def enqueue (assembler : Assembler) (name text : String) : Assembler :=
  { assembler with queue := logicalLines name text ++ assembler.queue }

/-! ## Reading statements -/

/-- An action on the state that can find a statement wrong. -/
abbrev Reading (α : Type) := EStateM StatementError Assembler α

/-- The outcome of a computation that does not change the state. -/
def ofExcept {α : Type} : Except StatementError α → Reading α
  | .ok value => pure value
  | .error error => throw error

/-- Defines a label at the cursor. -/
def defineLabel (label : List Char) : Reading Unit := do
  let assembler ← get
  let name := String.ofList label
  if !isIdentifier label then
    throw (.illegalLabel name)
  else
    match assembler.scope.symbols.define name assembler.cursor with
    | .ok symbols => set { assembler with scope := { assembler.scope with symbols } }
    | .error _ => throw (.labelRedefinition name)

/-- The state with an encoded instruction appended, and with a record of what it waits for and what
is doubtful about it. -/
def append (assembler : Assembler) (place : SourceLine) (emission : Emission)
    (encoding : Encoding) : Assembler :=
  let layout := Layout.ofEncoding assembler.code.size encoding
  let waiting := emission.forward.map fun label =>
    { label, layout, format := emission.instruction.opcode.format, place : Patch }
  let doubts := emission.warning?.map fun message => { place, message : Warning }
  { assembler with
    code := assembler.code.append encoding.bytes
    patches := assembler.patches ++ waiting.toList
    warnings := assembler.warnings ++ doubts.toList }

/-- Emits an instruction. -/
def emit (place : SourceLine) (emission : Emission) : Reading Unit := do
  match emission.instruction.encoding with
  | .error error => throw (.encode error)
  | .ok encoding => modify fun assembler => assembler.append place emission encoding

/-- Puts the lines of a source text in front of those that wait. If it is to be read only once, a
path that has been imported before is passed over, and the path counts as imported from now on. -/
def splice (source : Source) (name : String) (once : Bool) : Reading Unit := do
  let assembler ← get
  let path := source.resolve name
  if once && assembler.imported.contains path.key then
    return
  if once then
    set { assembler with imported := path.key :: assembler.imported }
  match source.load path with
  | .ok text => modify (·.enqueue path.text text)
  | .error error => throw (.sourceUnavailable path error)

end Assembler
end WordMachine
