import WordMachine.Instruction.Text
import WordMachine.Machine.Execute

/-!
# Single steps

A step fetches the instruction at the instruction pointer, prefixes included, moves the pointer
past it and executes it. If memory faults while the words are read nothing has changed. An illegal
operation leaves the pointer past its last word.

A `Dispatch` records an instruction that is about to be executed together with its address; the
record of a run is its list of dispatches.
-/

set_option autoImplicit false

namespace WordMachine

/-- An instruction about to be executed, and where it stands. -/
structure Dispatch where
  address : UInt32
  instruction : Instruction
  deriving DecidableEq, Repr

/-- A dispatch as a line of text. -/
def Dispatch.render (dispatch : Dispatch) : String :=
  addressText dispatch.address ++ "  " ++ dispatch.instruction.text

namespace Core

/-- Moves the pointer past what was fetched and executes it. -/
def dispatch (fetched : Fetched) (next : UInt32) : Execution Unit := do
  let address ← getPointer
  setPointer next
  match fetched with
  | .instruction found => execute found address
  | .illegal word => throw (.illegalOpcode word address)

/-- Executes exactly one instruction. -/
def step : Execution Unit := fun core =>
  match core.fetch with
  | .ok (fetched, next) => dispatch fetched next core
  | .error error => .error (.memory error) core

/-- The instruction the next step executes, if it gets that far. -/
def upcoming? (core : Core) : Option Dispatch :=
  match core.fetch with
  | .ok (.instruction found, _) => some ⟨core.pointer, found⟩
  | _ => none

/-- Executes an instruction as if it had been fetched at the instruction pointer. -/
def executeHere (instruction : Instruction) : Execution Unit := do
  execute instruction (← getPointer)

end Core
end WordMachine
