import WordMachine.Instruction
import WordMachine.Instruction.RegisterList
import WordMachine.Register.Name
import WordMachine.Text.Columns

/-!
# The text of an instruction

An instruction is written as its mnemonic, filled up to a column of eleven characters, and its
operands in the order in which the assembler reads them. Immediates are hexadecimal. Register
lists are written out, and the flag of a list becomes part of the mnemonic: `PUSH.W` and `PUSH.D`
for the size of a stack transfer, a final `S` for the write-back of a multiple transfer. The
immediate of a frame's end is not shown.
-/

set_option autoImplicit false

namespace WordMachine

open WordMachine.Text

/-- The width of the mnemonic column. -/
def mnemonicColumn : Nat := 11

/-- The registers of a list, through one view, as operands. -/
def RegisterList.text (mask : UInt16) (width : Width) : String :=
  ", ".intercalate ((indices mask).map fun index => Register.name ⟨index, width⟩)

namespace Instruction

/-- A mnemonic in its column, and the operands after it. -/
def line (mnemonic operands : String) : String :=
  padRight mnemonicColumn mnemonic ++ operands

/-- The view of the registers in a stack transfer: words, or dwords if the flag is set. -/
def stackWidth (mask : UInt16) : Width :=
  if RegisterList.flag mask then .dword else .word

/-- The text of a push or pop. -/
def stackText (opcode : Opcode) (mask : UInt16) : String :=
  let width := stackWidth mask
  line (opcode.mnemonic ++ "." ++ String.singleton width.letter) (RegisterList.text mask width)

/-- The text of a multiple transfer through one view. -/
def transferText (opcode : Opcode) (width : Width) (mask : UInt16) (base : Register) : String :=
  line (opcode.mnemonic ++ if RegisterList.flag mask then "S" else "")
    (RegisterList.text mask width ++ ", " ++ base.name)

/-- The written form of an immediate. -/
def immediateText (value : UInt16) : String :=
  "0x" ++ hex value.toNat

/-- The written form of an instruction. -/
def text : Instruction → String
  | ⟨.push, .imm mask⟩ => stackText .push mask
  | ⟨.pop, .imm mask⟩ => stackText .pop mask
  | ⟨.leave, .imm _⟩ => Opcode.leave.mnemonic
  | ⟨opcode, .imm value⟩ => line opcode.mnemonic (immediateText value)
  | ⟨.ldm width, .immReg mask base⟩ => transferText (.ldm width) width mask base
  | ⟨.stm width, .immReg mask base⟩ => transferText (.stm width) width mask base
  | ⟨opcode, .immReg value ra⟩ =>
      line opcode.mnemonic (ra.name ++ ", " ++ immediateText value)
  | ⟨opcode, .immRegReg value rb ra⟩ =>
      line opcode.mnemonic (ra.name ++ ", " ++ immediateText value ++ ", " ++ rb.name)
  | ⟨opcode, .regRegReg rc rb ra⟩ =>
      line opcode.mnemonic (ra.name ++ ", " ++ rc.name ++ ", " ++ rb.name)
  | ⟨opcode, .regRegRegReg rd rc rb ra⟩ =>
      line opcode.mnemonic (ra.name ++ ", " ++ rb.name ++ ", " ++ rd.name ++ ", " ++ rc.name)

end Instruction
end WordMachine
