import WordMachine.Prefix

/-!
# Classified words

Every 16-bit word is a prefix, a raw instruction or an illegal operation (`Decoded.ofWord`). A raw
instruction has word views of the first eight registers and only the low bits of its immediate.
Illegal are the words of the unassigned operation code and of the reserved one.
-/

set_option autoImplicit false

namespace WordMachine

/-- What a single word is. -/
inductive Decoded where
  | extension (word : Prefix)
  | instruction (raw : Instruction)
  | illegal (word : UInt16)
  deriving DecidableEq, Repr

/-- The register a slot of an instruction word names on its own. -/
def Slot.rawRegister (slot : Slot) (word : UInt16) : Register :=
  Register.ofParts (slot.field word) 0

/-- The operands in the payload of a word, if the format has operands. -/
def Operands.ofWord? (word : UInt16) : Format → Option Operands
  | .imm => some (.imm (Format.imm.readImmediate word))
  | .immReg => some (.immReg (Format.immReg.readImmediate word) (Slot.a.rawRegister word))
  | .immRegReg =>
      some (.immRegReg (Format.immRegReg.readImmediate word) (Slot.b.rawRegister word)
        (Slot.a.rawRegister word))
  | .regRegReg =>
      some (.regRegReg (Slot.c.rawRegister word) (Slot.b.rawRegister word)
        (Slot.a.rawRegister word))
  | .regRegRegReg =>
      some (.regRegRegReg (Slot.d.rawRegister word) (Slot.c.rawRegister word)
        (Slot.b.rawRegister word) (Slot.a.rawRegister word))
  | .prefixWord => none
  | .reserved => none

/-- The class of a word. -/
def WordClass.ofWord (word : UInt16) : WordClass :=
  if word.toNat < 32768 then .zero else .one

namespace Decoded

/-- The prefix whose operation code this is, with the payload of a word. -/
def extension? (word : UInt16) : Opcode → Option Prefix
  | .rex => some (.registers (RegisterExtension.ofPayload word))
  | .iex | .iexHigh => some (.immediate (UInt16.ofNat (word.toNat % 8192)))
  | _ => none

/-- A word of which the operation code is known. -/
def ofOpcode (word : UInt16) (opcode : Opcode) : Decoded :=
  match extension? word opcode with
  | some found => .extension found
  | none =>
      match Operands.ofWord? word opcode.format with
      | some operands => .instruction ⟨opcode, operands⟩
      | none => .illegal word

/-- The classification of a word. -/
def ofWord (word : UInt16) : Decoded :=
  let wordClass := WordClass.ofWord word
  match Opcode.ofCode? wordClass (word.toNat / wordClass.payloadSize) with
  | some opcode => ofOpcode word opcode
  | none => .illegal word

theorem format_of_ofWord? {word : UInt16} {format : Format} {operands : Operands}
    (found : Operands.ofWord? word format = some operands) : operands.format = format := by
  cases format <;> simp [Operands.ofWord?] at found <;> subst found <;> rfl

/-- The operands of a raw instruction have the format of its operation. -/
theorem wellFormed_of_ofWord {word : UInt16} {raw : Instruction}
    (decoded : ofWord word = .instruction raw) : raw.WellFormed := by
  simp only [ofWord] at decoded
  split at decoded
  · rename_i opcode _
    simp only [ofOpcode] at decoded
    split at decoded
    · cases decoded
    · split at decoded
      · rename_i operands found
        cases decoded
        exact format_of_ofWord? found
      · cases decoded
  · cases decoded

/-- **A raw instruction has a price.** -/
theorem quanta_pos {word : UInt16} {raw : Instruction}
    (decoded : ofWord word = .instruction raw) : 0 < raw.quanta := by
  have agrees := wellFormed_of_ofWord decoded
  rcases raw with ⟨opcode, operands⟩
  cases opcode <;> cases operands <;>
    simp_all [Instruction.WellFormed, Operands.format, Opcode.format, Instruction.quanta,
      Opcode.quanta]

end Decoded
end WordMachine
