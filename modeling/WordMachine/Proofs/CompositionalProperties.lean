import WordMachine.Machine.Execute
import WordMachine.Proofs.Actions

/-!
# Properties that instructions take over from their parts

An instruction is put together from actions on registers and pointer, from loading and storing, and
from the fault of a division by zero. A property of actions that holds of these parts, and of two
actions in a row if it holds of each, is compositional (`Core.Compositional`).

A compositional property holds of every instruction whose operands have the shape that its operation
asks for (`Core.Compositional.execute`). What is to be shown of all instructions is therefore shown
of a few parts; the walk through the operations is made once, here.
-/

set_option autoImplicit false

namespace WordMachine
namespace Core

/-- An action that always succeeds and has nothing to do with memory. -/
def Quiet {α : Type} (action : Execution α) : Prop :=
  ∀ core memory, ∃ value after,
    action core = .ok value after ∧ after.memory = core.memory ∧
      action { core with memory } = .ok value { after with memory }

/-- A property of actions that holds of the parts of instructions and of actions in a row. -/
structure Compositional (holds : ∀ {α : Type}, Execution α → Prop) : Prop where
  quiet : ∀ {α : Type} {action : Execution α}, Quiet action → holds action
  load : ∀ address bytes, holds (load address bytes)
  store : ∀ address bytes value, holds (store address bytes value)
  divisionByZero : ∀ address, holds (throw (.divisionByZero address) : Execution PUnit)
  bind : ∀ {α β : Type} {action : Execution α} {next : α → Execution β},
    holds action → (∀ value, holds (next value)) → holds (action >>= next)

namespace Compositional

variable {holds : ∀ {α : Type}, Execution α → Prop} (closed : Compositional holds)
include closed

/-! ## Registers and pointer -/

theorem pure {α : Type} (value : α) : holds (pure value : Execution α) :=
  closed.quiet fun _ _ => ⟨_, _, rfl, rfl, rfl⟩

/-- An action that is performed under a condition only. -/
theorem guarded {condition : Prop} [Decidable condition] {action : Execution Unit}
    (first : holds action) : holds (if condition then action else Pure.pure ()) := by
  split
  · exact first
  · exact closed.pure ()

section Registers

variable (register : Register) (index : Fin 16) (value : UInt32)

theorem readUnsigned : holds (readUnsigned register) :=
  closed.quiet fun _ _ => ⟨_, _, rfl, rfl, rfl⟩

theorem readSigned : holds (readSigned register) :=
  closed.quiet fun _ _ => ⟨_, _, rfl, rfl, rfl⟩

theorem write : holds (write register value) :=
  closed.quiet fun _ _ => ⟨_, _, rfl, rfl, rfl⟩

theorem writeNumber (number : Int) : holds (writeNumber register number) :=
  closed.write register _

theorem getRegister : holds (getRegister index) :=
  closed.quiet fun _ _ => ⟨_, _, rfl, rfl, rfl⟩

theorem setRegister : holds (setRegister index value) :=
  closed.quiet fun _ _ => ⟨_, _, rfl, rfl, rfl⟩

theorem getPointer : holds getPointer :=
  closed.quiet fun _ _ => ⟨_, _, rfl, rfl, rfl⟩

theorem setPointer : holds (setPointer value) :=
  closed.quiet fun _ _ => ⟨_, _, rfl, rfl, rfl⟩

theorem effectiveAddress (immediate : UInt16) : holds (effectiveAddress immediate register) :=
  closed.quiet fun _ _ => ⟨_, _, rfl, rfl, rfl⟩

end Registers

/-! ## Memory and the stack -/

theorem loadSigned (address : UInt32) (bytes : Nat) : holds (loadSigned address bytes) :=
  closed.bind (closed.load address bytes) fun _ => closed.pure _

theorem pushDword (value : UInt32) : holds (pushDword value) :=
  closed.bind (closed.getRegister _) fun _ =>
    closed.bind (closed.store _ _ _) fun _ => closed.setRegister _ _

theorem popDword : holds popDword :=
  closed.bind (closed.getRegister _) fun _ => closed.bind (closed.load _ _) fun _ =>
    closed.bind (closed.setRegister _ _) fun _ => closed.pure _

section Lists

variable (size : Nat) (mask : UInt16) (width : Width) (base : Register)

theorem storeDown {value : Fin 16 → Execution UInt32} (reads : ∀ index, holds (value index))
    (indices : List (Fin 16)) (address : UInt32) :
    holds (storeDown size value indices address) := by
  induction indices generalizing address with
  | nil => exact closed.pure address
  | cons index rest ih =>
      exact closed.bind (reads index) fun _ => closed.bind (closed.store _ _ _) fun _ => ih _

theorem loadUp {assign : Fin 16 → UInt32 → Execution Unit}
    (assigns : ∀ index value, holds (assign index value)) (indices : List (Fin 16))
    (address : UInt32) : holds (loadUp size assign indices address) := by
  induction indices generalizing address with
  | nil => exact closed.pure address
  | cons index rest ih =>
      exact closed.bind (closed.load _ _) fun _ => closed.bind (assigns _ _) fun _ => ih _

theorem moveStack (address : UInt32) : holds (moveStack mask address) := by
  rw [Core.moveStack]
  split
  · exact closed.pure ()
  · exact closed.setRegister _ _

theorem pushList : holds (pushList mask) :=
  closed.bind (closed.getRegister _) fun _ =>
    closed.bind (closed.storeDown _ closed.getRegister _ _) fun _ => closed.moveStack _ _

theorem popList : holds (popList mask) :=
  closed.bind (closed.getRegister _) fun _ =>
    closed.bind (closed.loadUp _ (fun _ _ => closed.write _ _) _ _) fun _ => closed.moveStack _ _

theorem writeBack (address : UInt32) : holds (writeBack mask base address) :=
  closed.guarded (closed.write _ _)

theorem loadMultiple : holds (loadMultiple width mask base) :=
  closed.bind (closed.readUnsigned _) fun _ =>
    closed.bind (closed.loadUp _ (fun _ _ => closed.write _ _) _ _) fun _ =>
      closed.writeBack _ _ _

theorem storeMultiple : holds (storeMultiple width mask base) :=
  closed.bind (closed.readUnsigned _) fun _ =>
    closed.bind (closed.storeDown _ (fun _ => closed.readUnsigned _) _ _) fun _ =>
      closed.writeBack _ _ _

end Lists

/-! ## The operations of each shape -/

section Shapes

variable {opcode : Opcode} (value : UInt16) (rd rc rb ra : Register) (address : UInt32)

theorem executeImm (agrees : opcode.format = .imm) : holds (executeImm opcode value address) := by
  cases opcode with
  | push => exact closed.pushList value
  | pop => exact closed.popList value
  | ret =>
      exact closed.bind closed.popDword fun _ => closed.bind (closed.setPointer _) fun _ =>
        closed.bind (closed.getRegister _) fun _ => closed.setRegister _ _
  | enter =>
      exact closed.bind (closed.getRegister _) fun _ => closed.bind (closed.pushDword _) fun _ =>
        closed.bind (closed.getRegister _) fun _ => closed.bind (closed.setRegister _ _) fun _ =>
          closed.setRegister _ _
  | leave =>
      exact closed.bind (closed.getRegister _) fun _ =>
        closed.bind (closed.setRegister _ _) fun _ =>
          closed.bind closed.popDword fun _ => closed.setRegister _ _
  | _ => cases agrees

theorem executeImmReg (agrees : opcode.format = .immReg) :
    holds (executeImmReg opcode value ra address) := by
  cases opcode with
  | jrel condition =>
      exact closed.bind (closed.readSigned _) fun _ =>
        closed.guarded (closed.bind closed.getPointer fun _ => closed.setPointer _)
  | ldm width => exact closed.loadMultiple value width ra
  | stm width => exact closed.storeMultiple value width ra
  | movI | addI | subI | rsubI | shlI | shrI | sarI | movLo | movHi =>
      exact closed.quiet fun _ _ => ⟨_, _, rfl, rfl, rfl⟩
  | _ => cases agrees

theorem executeImmRegReg (agrees : opcode.format = .immRegReg) :
    holds (executeImmRegReg opcode value rb ra address) := by
  cases opcode with
  | jabs condition =>
      exact closed.bind (closed.readSigned _) fun _ =>
        closed.guarded (closed.bind (closed.effectiveAddress _ _) fun _ => closed.setPointer _)
  | call condition =>
      exact closed.bind (closed.readSigned _) fun _ =>
        closed.guarded (closed.bind (closed.effectiveAddress _ _) fun _ =>
          closed.bind closed.getPointer fun _ =>
            closed.bind (closed.pushDword _) fun _ => closed.setPointer _)
  | ld size =>
      exact closed.bind (closed.effectiveAddress _ _) fun _ =>
        closed.bind (closed.loadSigned _ _) fun _ => closed.writeNumber _ _
  | st size =>
      exact closed.bind (closed.readSigned _) fun _ =>
        closed.bind (closed.effectiveAddress _ _) fun _ => closed.store _ _ _
  | cmovI =>
      exact closed.bind (closed.readSigned _) fun _ =>
        closed.guarded (closed.write _ _)
  | _ => cases agrees

theorem executeRegRegReg (agrees : opcode.format = .regRegReg) :
    holds (executeRegRegReg opcode rc rb ra address) := by
  cases opcode with
  | cmovR =>
      exact closed.bind (closed.readSigned _) fun _ =>
        closed.guarded (closed.bind (closed.readSigned _) fun _ => closed.writeNumber _ _)
  | addR | subR | andR | orR | xorR | andnR | ornR | shlR | shrR | sarR
  | paddW | paddB | psubW | psubB => exact closed.quiet fun _ _ => ⟨_, _, rfl, rfl, rfl⟩
  | _ => cases agrees

theorem writeQuotient (quotient remainder : Register) (dividend divisor : Int) :
    holds (writeQuotient quotient remainder dividend divisor address) := by
  have written : holds (do
      Core.writeNumber remainder (dividend.tmod divisor)
      Core.writeNumber quotient (dividend.tdiv divisor)) :=
    closed.bind (closed.writeNumber _ _) fun _ => closed.writeNumber _ _
  rw [Core.writeQuotient]
  split
  · exact closed.bind (closed.divisionByZero address) fun _ => written
  · exact written

theorem executeRegRegRegReg (agrees : opcode.format = .regRegRegReg) :
    holds (executeRegRegRegReg opcode rd rc rb ra address) := by
  cases opcode with
  | idiv =>
      exact closed.bind (closed.readSigned _) fun _ => closed.bind (closed.readSigned _) fun _ =>
        closed.writeQuotient _ _ _ _ _
  | div =>
      exact closed.bind (closed.readUnsigned _) fun _ =>
        closed.bind (closed.readUnsigned _) fun _ => closed.writeQuotient _ _ _ _ _
  | imul | mul | imac => exact closed.quiet fun _ _ => ⟨_, _, rfl, rfl, rfl⟩
  | _ => cases agrees

end Shapes

/-- **Instructions whose operands have the right shape have every compositional property.** -/
theorem execute {instruction : Instruction} (agrees : instruction.WellFormed) (address : UInt32) :
    holds (execute instruction address) := by
  obtain ⟨opcode, operands⟩ := instruction
  have format : opcode.format = operands.format := Eq.symm agrees
  cases operands with
  | imm value => exact closed.executeImm value address format
  | immReg value ra => exact closed.executeImmReg value ra address format
  | immRegReg value rb ra => exact closed.executeImmRegReg value rb ra address format
  | regRegReg rc rb ra => exact closed.executeRegRegReg rc rb ra address format
  | regRegRegReg rd rc rb ra => exact closed.executeRegRegRegReg rd rc rb ra address format

end Compositional
end Core
end WordMachine
