import WordMachine.Opcode

/-!
# Instructions

An instruction is an operation code with operands. The operands come in five shapes, one for each
operand format, and hold the whole 16-bit immediate and the whole register operands: what prefix
words contribute is already folded in.

The shape of the operands may disagree with the format of the operation. Such an instruction has
a text but no encoding and no effect; `WellFormed` says that the two agree.
-/

set_option autoImplicit false

namespace WordMachine

/-- The places a register operand can take, from the most significant field down. -/
inductive Slot where
  | d
  | c
  | b
  | a
  deriving DecidableEq, Repr

namespace Slot

/-- The number of a slot, counted from the most significant field. -/
def position : Slot → Nat
  | d => 0
  | c => 1
  | b => 2
  | a => 3

/-- The slot with a number. Numbers past the last name the least significant field. -/
def ofPosition : Nat → Slot
  | 0 => d
  | 1 => c
  | 2 => b
  | _ => a

/-- The value of a slot's lowest bit in an instruction word or a prefix payload. -/
def weight : Slot → Nat
  | d => 512
  | c => 64
  | b => 8
  | a => 1

/-- The three-bit field of a word at a slot. -/
def field (slot : Slot) (word : UInt16) : Fin 8 :=
  Fin.ofNat 8 (word.toNat / slot.weight)

end Slot

/-- The operands of an instruction, one shape for each operand format. -/
inductive Operands where
  | imm (value : UInt16)
  | immReg (value : UInt16) (ra : Register)
  | immRegReg (value : UInt16) (rb ra : Register)
  | regRegReg (rc rb ra : Register)
  | regRegRegReg (rd rc rb ra : Register)
  deriving DecidableEq, Repr

namespace Operands

/-- The format these operands are the operands of. -/
def format : Operands → Format
  | imm .. => .imm
  | immReg .. => .immReg
  | immRegReg .. => .immRegReg
  | regRegReg .. => .regRegReg
  | regRegRegReg .. => .regRegRegReg

def immediate? : Operands → Option UInt16
  | imm value => some value
  | immReg value _ => some value
  | immRegReg value _ _ => some value
  | _ => none

/-- The register operands with their slots, most significant field first. -/
def registers : Operands → List (Slot × Register)
  | imm _ => []
  | immReg _ ra => [(.a, ra)]
  | immRegReg _ rb ra => [(.b, rb), (.a, ra)]
  | regRegReg rc rb ra => [(.c, rc), (.b, rb), (.a, ra)]
  | regRegRegReg rd rc rb ra => [(.d, rd), (.c, rc), (.b, rb), (.a, ra)]

/-- The operands with another immediate. Operands without one stay as they are. -/
def withImmediate : Operands → UInt16 → Operands
  | imm _, value => imm value
  | immReg _ ra, value => immReg value ra
  | immRegReg _ rb ra, value => immRegReg value rb ra
  | operands, _ => operands

/-- The operands with every register replaced, depending on its slot. -/
def mapRegisters (f : Slot → Register → Register) : Operands → Operands
  | imm value => imm value
  | immReg value ra => immReg value (f .a ra)
  | immRegReg value rb ra => immRegReg value (f .b rb) (f .a ra)
  | regRegReg rc rb ra => regRegReg (f .c rc) (f .b rb) (f .a ra)
  | regRegRegReg rd rc rb ra => regRegRegReg (f .d rd) (f .c rc) (f .b rb) (f .a ra)

end Operands

/-- An operation code with operands. -/
structure Instruction where
  opcode : Opcode
  operands : Operands
  deriving DecidableEq, Repr

namespace Instruction

/-- The operands have the shape that the operation asks for. -/
def WellFormed (instruction : Instruction) : Prop :=
  instruction.operands.format = instruction.opcode.format

instance (instruction : Instruction) : Decidable instruction.WellFormed :=
  inferInstanceAs (Decidable (_ = _))

def immediate? (instruction : Instruction) : Option UInt16 :=
  instruction.operands.immediate?

/-- The instruction with another immediate, if it has one. -/
def withImmediate (instruction : Instruction) (value : UInt16) : Instruction :=
  { instruction with operands := instruction.operands.withImmediate value }

/-- The instruction with every register operand replaced, depending on its slot. -/
def mapRegisters (f : Slot → Register → Register) (instruction : Instruction) : Instruction :=
  { instruction with operands := instruction.operands.mapRegisters f }

/-- The price of one execution. -/
def quanta (instruction : Instruction) : Nat :=
  instruction.opcode.quanta

end Instruction
end WordMachine
