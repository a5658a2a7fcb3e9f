import WordMachine.AddressSpace
import WordMachine.Fetch
import WordMachine.RegisterFile

/-!
# The core of the machine

What an instruction can see and change: the registers, the instruction pointer and memory. An
execution is an action on the core that ends normally or with a fault; the core it leaves behind
can be inspected in both cases.

The actions here are the ones instructions are made of: reading and writing registers through
their views, accessing memory, and moving a dword to and from the stack.
-/

set_option autoImplicit false

namespace WordMachine

/-- Why an execution ended early. -/
inductive Fault where
  | illegalOpcode (word : UInt16) (address : UInt32)
  | formatMismatch (opcode : Opcode) (address : UInt32)
  | divisionByZero (address : UInt32)
  | memory (error : MemoryError)
  deriving DecidableEq, Repr

def Fault.message : Fault → String
  | illegalOpcode word address =>
      "illegal operation 0x" ++ Text.hexPadded 4 word.toNat ++ " at " ++ addressText address
  | formatMismatch opcode address =>
      opcode.mnemonic ++ " at " ++ addressText address ++ " has operands of the wrong format"
  | divisionByZero address => "division by zero at " ++ addressText address
  | memory error => error.message

/-- Registers, instruction pointer and memory. -/
structure Core where
  registers : RegisterFile
  pointer : UInt32
  memory : AddressSpace

/-- An action on the core that can end with a fault. -/
abbrev Execution (α : Type) := EStateM Fault Core α

namespace Core

/-! ## Registers -/

/-- The register through its view, extended with zeros. -/
def readUnsigned (register : Register) : Execution UInt32 :=
  return (← get).registers.readUnsigned register

/-- The register through its view, extended with its sign. -/
def readSigned (register : Register) : Execution Int :=
  return (← get).registers.readSigned register

/-- Replaces the view of a register. -/
def write (register : Register) (value : UInt32) : Execution Unit :=
  modify fun core => { core with registers := core.registers.write register value }

/-- Replaces the view of a register by the low bits of a number. -/
def writeNumber (register : Register) (value : Int) : Execution Unit :=
  write register (UInt32.ofInt value)

/-- The whole contents of a register. -/
def getRegister (index : Fin 16) : Execution UInt32 :=
  return (← get).registers.get index

/-- Replaces the whole contents of a register. -/
def setRegister (index : Fin 16) (value : UInt32) : Execution Unit :=
  modify fun core => { core with registers := core.registers.set index value }

/-- The address of the instruction to run next. -/
def getPointer : Execution UInt32 :=
  return (← get).pointer

def setPointer (address : UInt32) : Execution Unit :=
  modify fun core => { core with pointer := address }

/-! ## Memory -/

/-- The number held in memory, most significant byte first. -/
def load (address : UInt32) (bytes : Nat) : Execution Nat := fun core =>
  match core.memory.readNumber address bytes with
  | .ok value => .ok value core
  | .error error => .error (.memory error) core

/-- The number held in memory, in two's complement. -/
def loadSigned (address : UInt32) (bytes : Nat) : Execution Int :=
  return Int.bmod (← load address bytes) (256 ^ bytes)

/-- Stores the low bytes of a number. Bytes before a fault stay stored. -/
def store (address : UInt32) (bytes value : Nat) : Execution Unit := fun core =>
  match AddressSpace.writeNumber address bytes value core.memory with
  | .ok () memory => .ok () { core with memory }
  | .error error memory => .error (.memory error) { core with memory }

/-! ## The stack -/

/-- The index of the stack pointer. -/
def stackIndex : Fin 16 := Register.stackPointer.index

/-- The index of the base pointer. -/
def baseIndex : Fin 16 := Register.basePointer.index

/-- Stores a dword below the top of the stack and moves the top down to it. -/
def pushDword (value : UInt32) : Execution Unit := do
  let address := (← getRegister stackIndex) - 4
  store address 4 value.toNat
  setRegister stackIndex address

/-- Loads the dword at the top of the stack and moves the top past it. -/
def popDword : Execution UInt32 := do
  let address ← getRegister stackIndex
  let value ← load address 4
  setRegister stackIndex (address + 4)
  return UInt32.ofNat value

/-! ## Fetching -/

/-- The words of memory from an address on. A failure leaves the address alone. -/
def nextWord (memory : AddressSpace) : WordSource MemoryError UInt32 := fun address =>
  match memory.readNumber address 2 with
  | .ok word => .ok (UInt16.ofNat word) (address + 2)
  | .error error => .error error address

/-- The instruction at the instruction pointer, and the address after it. -/
def fetch (core : Core) : Except MemoryError (Fetched × UInt32) :=
  match WordMachine.fetch (nextWord core.memory) core.pointer with
  | .ok fetched next => .ok (fetched, next)
  | .error error _ => .error error

theorem fetch_quanta_pos {core : Core} {found : Instruction} {next : UInt32}
    (fetched : core.fetch = .ok (.instruction found, next)) : 0 < found.quanta := by
  rw [fetch] at fetched
  split at fetched
  · rename_i outcome
    cases fetched
    exact WordMachine.fetch_quanta_pos outcome
  · cases fetched

end Core
end WordMachine
