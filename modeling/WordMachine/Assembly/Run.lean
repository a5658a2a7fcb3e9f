import WordMachine.Assembly.Directive
import WordMachine.Source.FileTree

/-!
# Running an assembly

Lines are read one after the other from the front of the queue, and each is taken off before it is
read. A line is read in three parts: its label is defined first, then its mnemonic decides between
directive and instruction. The first error stops the assembly with the state it has by then, and a
later run goes on from there.

Once the queue is empty the patches are taken, all at once, and resolved in order. Then the code is
handed out and the next run starts with an empty buffer; everything else stays.

Texts that splice in each other without end would keep the queue filled for ever. So a run reads at
most as many lines as wait at its start, plus an allowance for lines to be spliced in
(`assembleAll`). A text that nothing can be spliced into needs no allowance (`assemble`).
-/

set_option autoImplicit false

namespace WordMachine

open Assembly

/-- Why an assembly stopped early: an error, or more lines than allowed. -/
inductive Assembly.Stop where
  | failed (failure : AssemblyError)
  | lineLimit
  deriving DecidableEq, Repr

namespace Assembler

/-- Reads the statement after a label. -/
def readStatement (source : Source) (place : SourceLine) (statement : List Char) :
    Reading Unit := do
  let (mnemonic, operands) := splitStatement statement
  if mnemonic = [] then
    return
  let name := String.ofList (Text.upper mnemonic)
  if (Text.upper mnemonic).head? = some '.' then
    direct source name operands
  else
    emit place (← ofExcept ((← get).scope.statement name operands))

/-- Reads a line. -/
def readLine (source : Source) (line : LogicalLine) : Reading Unit := do
  let (label, statement) := splitLabel (stripComment line.text)
  match label with
  | some label => defineLabel label
  | none => pure ()
  readStatement source line.place statement

/-- An action on the state that can stop the assembly. -/
abbrev Running (α : Type) := EStateM Stop Assembler α

/-- Reads on behalf of a place, which is where an error then is. -/
def readAt {α : Type} (place : SourceLine) (reading : Reading α) : Running α := fun assembler =>
  match reading assembler with
  | .ok value assembler => .ok value assembler
  | .error error assembler => .error (.failed ⟨place, error⟩) assembler

/-- Takes the first line off the queue and reads it. -/
def readNext (source : Source) (line : LogicalLine) (rest : List LogicalLine) : Running Unit := do
  modify fun assembler => { assembler with queue := rest }
  readAt line.place (readLine source line)

/-- Reads at most a number of lines, until the queue is empty. -/
def readQueue (source : Source) : Nat → Running Unit
  | 0 => do
      if (← get).queue ≠ [] then
        throw .lineLimit
  | limit + 1 => do
      match (← get).queue with
      | [] => return
      | line :: rest =>
          readNext source line rest
          readQueue source limit

/-! ## Patches -/

/-- Fills in the address that an instruction waits for. -/
def resolvePatch (patch : Patch) : Reading Unit := do
  let assembler ← get
  match assembler.scope.symbols.address? patch.label with
  | none => throw (.unresolvedSymbol patch.label)
  | some address =>
      let value ← ofExcept (checkRange address.toNat 0 Scope.greatestImmediate)
      match assembler.code.patchImmediate patch.layout patch.format (UInt16.ofInt value) with
      | .ok code => set { assembler with code }
      | .error error => throw (.encode error)

/-- Resolves patches in order. -/
def resolvePatches : List Patch → Running Unit
  | [] => pure ()
  | patch :: rest => do
      readAt patch.place (resolvePatch patch)
      resolvePatches rest

/-- Takes the patches, leaving none, and resolves them. -/
def resolveAll : Running Unit := do
  let patches := (← get).patches
  modify fun assembler => { assembler with patches := #[] }
  resolvePatches patches.toList

/-! ## Whole runs -/

/-- Hands out the code, leaving an empty buffer. -/
def takeCode : Running (Array UInt8) := do
  let bytes := (← get).code.bytes
  modify fun assembler => { assembler with code := .empty }
  return bytes

/-- Reads every line that waits, and at most `allowance` lines that they splice in, resolves the
patches and hands out the code. -/
def assembleAll (source : Source) (allowance : Nat) : Running (Array UInt8) := do
  readQueue source ((← get).queue.length + allowance)
  resolveAll
  takeCode

/-- Queues the text of a name found at a source. An error has the place zero of that name. -/
def loadFile (source : Source) (name : String) : Running Unit :=
  readAt ⟨name, 0⟩ (splice source name false)

/-- The allowance for spliced lines where nothing asks for another. -/
def standardAllowance : Nat := 2 ^ 32

end Assembler

/-- The name of a text that comes from no file. -/
def unnamedText : String := "<input>"

/-- Assembles a single text, with an allowance for the lines it splices in from a source. -/
def assembleFrom (source : Source) (allowance : Nat) (text : String) :
    Except Stop (Array UInt8) :=
  match Assembler.assembleAll source allowance (Assembler.initial.enqueue unnamedText text) with
  | .ok bytes _ => .ok bytes
  | .error stop _ => .error stop

/-- Assembles a single text, to which no other text is available. -/
def assemble (text : String) : Except Stop (Array UInt8) :=
  assembleFrom (FileTree.empty.toSource []) 0 text

end WordMachine
