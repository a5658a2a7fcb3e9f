import WordMachine.Proofs.Fetching

/-!
# Reading words back

Every bit of a word is part of what is read from it. A prefix word is the word of the prefix that it
is read as (`Decoded.word_of_ofWord_extension`), and an instruction word that of the raw instruction
(`Decoded.word_of_ofWord`).

The prefixes of an instruction add what the instruction word has no room for and leave alone what it
holds (`Pending.word_apply`). Conversely, the high bits of the immediate and the fields of the
registers are those of the prefixes, as far as the format has a use for them
(`Pending.toNat_highImmediate_apply`, `Pending.extensionField_apply`).
-/

set_option autoImplicit false

namespace WordMachine

/-! ## Reading loses nothing -/

namespace Opcode

/-- The operation code found in a word accounts for all of the word but a payload. -/
theorem toNat_of_ofCode? {word : UInt16} {opcode : Opcode}
    (found : ofCode? (WordClass.ofWord word)
      (word.toNat / (WordClass.ofWord word).payloadSize) = some opcode) :
    word.toNat = opcode.baseWord.toNat + word.toNat % opcode.wordClass.payloadSize := by
  have bound := word.toNat_lt
  have numbered := number_of_ofNumber? found
  have sameClass : opcode.wordClass = WordClass.ofWord word := by
    rw [wordClass, numbered]
    unfold WordClass.ofWord
    split <;> simp only [WordClass.firstNumber, WordClass.codeCount, WordClass.payloadSize]
    · exact if_pos (by omega)
    · exact if_neg (by omega)
  rw [toNat_baseWord, code, sameClass, numbered]
  unfold WordClass.ofWord
  split <;>
    simp only [WordClass.firstNumber, WordClass.codeCount, WordClass.payloadSize,
      WordClass.firstWord] <;>
    omega

end Opcode

theorem Operands.payload_of_ofWord? {word : UInt16} {format : Format} {operands : Operands}
    (read : Operands.ofWord? word format = some operands) :
    operands.payload = word.toNat % format.payloadSize := by
  have bound := word.toNat_lt
  rw [payload_eq]
  cases format <;> simp only [Operands.ofWord?, Option.some.injEq, reduceCtorEq] at read <;>
    subst read <;>
    simp only [registerPayload, registers, List.foldr, Slot.weight, immediate?,
      Option.getD_some, Option.getD_none, UInt16.toNat_zero, Operands.format,
      Format.toNat_readImmediate, Format.immediateBits, Format.immediateShift, Format.payloadSize,
      Slot.rawRegister, Register.lowBits_ofParts, Slot.field, Fin.val_ofNat] <;>
    omega

namespace Decoded

theorem eq_instruction_of_ofWord {word : UInt16} {raw : Instruction}
    (decoded : ofWord word = .instruction raw) :
    Opcode.ofCode? (WordClass.ofWord word)
        (word.toNat / (WordClass.ofWord word).payloadSize) = some raw.opcode ∧
      Operands.ofWord? word raw.opcode.format = some raw.operands := by
  simp only [ofWord] at decoded
  split at decoded
  · rename_i opcode found
    simp only [ofOpcode] at decoded
    split at decoded
    · cases decoded
    · split at decoded
      · rename_i operands read
        cases decoded
        exact ⟨found, read⟩
      · cases decoded
  · cases decoded

/-- **An instruction word is the word of what is read from it.** -/
theorem word_of_ofWord {word : UInt16} {raw : Instruction}
    (decoded : ofWord word = .instruction raw) : raw.word = word := by
  have agrees := wellFormed_of_ofWord decoded
  obtain ⟨found, read⟩ := eq_instruction_of_ofWord decoded
  apply UInt16.toNat_inj.mp
  rw [Instruction.toNat_word agrees, Operands.payload_of_ofWord? read,
    ← raw.opcode.payloadSize_wordClass (Instruction.operation_of_wellFormed agrees)]
  exact (Opcode.toNat_of_ofCode? found).symm

/-- **A prefix word is the word of what is read from it.** -/
theorem word_of_ofWord_extension {word : UInt16} {found : Prefix}
    (decoded : ofWord word = .extension found) : found.word = word := by
  have bound := word.toNat_lt
  simp only [ofWord] at decoded
  split at decoded
  case h_2 => cases decoded
  rename_i opcode located
  have whole := Opcode.toNat_of_ofCode? located
  simp only [ofOpcode] at decoded
  split at decoded
  case h_2 => split at decoded <;> cases decoded
  rename_i extension
  cases decoded
  apply UInt16.toNat_inj.mp
  cases opcode <;> simp only [extension?, Option.some.injEq, reduceCtorEq] at extension <;>
    subst extension
  case rex =>
    have base : Opcode.rex.baseWord.toNat = 32768 := rfl
    rw [show Opcode.rex.wordClass.payloadSize = 4096 from rfl] at whole
    rw [Prefix.toNat_word_registers, RegisterExtension.toNat_payload]
    simp only [RegisterExtension.ofPayload, Slot.field, Slot.weight, Fin.val_ofNat]
    omega
  case iex =>
    have base : Opcode.iex.baseWord.toNat = 57344 := rfl
    rw [show Opcode.iex.wordClass.payloadSize = 4096 from rfl] at whole
    rw [Prefix.toNat_word_immediate, UInt16.toNat_ofNat']
    omega
  case iexHigh =>
    have base : Opcode.iexHigh.baseWord.toNat = 61440 := rfl
    rw [show Opcode.iexHigh.wordClass.payloadSize = 4096 from rfl] at whole
    rw [Prefix.toNat_word_immediate, UInt16.toNat_ofNat']
    omega

/-- What a word says on its own is all that it says of its operands. -/
theorem truncated_of_ofWord {word : UInt16} {raw : Instruction}
    (decoded : ofWord word = .instruction raw) : raw.operands.truncated = raw.operands := by
  have again := Instruction.ofWord_word (wellFormed_of_ofWord decoded)
  rw [word_of_ofWord decoded, decoded] at again
  exact (congrArg Instruction.operands (Decoded.instruction.inj again)).symm

end Decoded

/-! ## What prefixes add -/

namespace Format

/-- The high bits that the immediate has no room for are dropped. -/
theorem toNat_joinImmediate {format : Format} {high low : UInt16}
    (small : low.toNat < 2 ^ format.immediateBits) :
    (format.joinImmediate high low).toNat =
      high.toNat % 2 ^ (16 - format.immediateBits) * 2 ^ format.immediateBits + low.toNat := by
  have bound := high.toNat_lt
  rw [joinImmediate, UInt16.toNat_ofNat', Nat.mul_comm, ← Nat.two_pow_add_eq_or_of_lt small]
  revert small
  cases format <;> simp only [immediateBits] <;> omega

theorem inWord_joinImmediate {format : Format} {high low : UInt16}
    (small : low.toNat < 2 ^ format.immediateBits) :
    (format.joinImmediate high low).toNat % 2 ^ format.immediateBits = low.toNat := by
  rw [toNat_joinImmediate small, Nat.add_comm, Nat.add_mul_mod_self_right, Nat.mod_eq_of_lt small]

theorem toNat_overflow_joinImmediate {format : Format} {high low : UInt16}
    (small : low.toNat < 2 ^ format.immediateBits) :
    (format.overflow (format.joinImmediate high low)).toNat =
      high.toNat % 2 ^ (16 - format.immediateBits) := by
  rw [toNat_overflow, toNat_joinImmediate small, Nat.add_comm,
    Nat.add_mul_div_right _ _ (Nat.two_pow_pos _), Nat.div_eq_of_lt small, Nat.zero_add]

/-- Whether instructions of the format have an operand at a slot. -/
def hasSlot (format : Format) (slot : Slot) : Bool :=
  decide (4 ≤ slot.position + format.registerCount)

end Format

theorem Operands.hasImmediate_format (operands : Operands) :
    operands.format.hasImmediate = operands.immediate?.isSome := by
  cases operands <;> rfl

namespace Pending

variable (pending : Pending)

theorem immediate?_apply (raw : Instruction) :
    (pending.apply raw).operands.immediate? =
      raw.operands.immediate?.map (raw.operands.format.joinImmediate pending.high) := by
  rcases pending with ⟨_ | fields, _ | bits⟩ <;> rcases raw with ⟨opcode, operands⟩ <;>
    cases operands <;>
    simp only [apply, extendRegisters, extendImmediate, Instruction.immediate?, high,
      Operands.immediate?, Instruction.mapRegisters, Instruction.withImmediate,
      Operands.mapRegisters, Operands.withImmediate, Option.map_some, Option.map_none,
      Option.getD_none, Option.getD_some, Format.joinImmediate_zero]

theorem format_apply (raw : Instruction) :
    (pending.apply raw).operands.format = raw.operands.format := by
  rcases pending with ⟨_ | fields, _ | high⟩ <;> rcases raw with ⟨opcode, operands⟩ <;>
    cases operands <;> rfl

theorem wellFormed_apply {raw : Instruction} (agrees : raw.WellFormed) :
    (pending.apply raw).WellFormed := by
  rw [Instruction.WellFormed, format_apply, opcode_apply]
  exact agrees

theorem registers_apply {raw : Instruction} (bare : raw.operands.truncated = raw.operands) :
    (pending.apply raw).operands.registers =
      raw.operands.registers.map fun entry =>
        (entry.1, Register.ofParts entry.2.lowBits (pending.extension.field entry.1)) := by
  rcases raw with ⟨opcode, operands⟩
  rcases pending with ⟨_ | fields, _ | high⟩ <;> cases operands <;>
    simp only [apply, extendRegisters, extendImmediate, Instruction.immediate?, extension,
      Operands.immediate?, Instruction.mapRegisters, Instruction.withImmediate,
      Operands.mapRegisters, Operands.withImmediate, Operands.registers, List.map,
      Option.getD_none, Option.getD_some, RegisterExtension.field, Operands.truncated,
      Operands.format, Operands.immReg.injEq, Operands.immRegReg.injEq, Operands.regRegReg.injEq,
      Operands.regRegRegReg.injEq] at bare ⊢ <;>
    simp only [bare]

variable {pending} {raw : Instruction}

theorem small_of_bare (bare : raw.operands.truncated = raw.operands) {low : UInt16}
    (found : raw.operands.immediate? = some low) :
    low.toNat < 2 ^ raw.operands.format.immediateBits := by
  rcases raw with ⟨opcode, operands⟩
  have same : operands.format.inWord low = low := by
    cases operands <;> cases found <;>
      simp only [Operands.truncated, Operands.mapRegisters, Operands.withImmediate,
        Operands.immediate?, Option.getD_some, Operands.imm.injEq, Operands.immReg.injEq,
        Operands.immRegReg.injEq] at bare
    · exact bare
    · exact bare.1
    · exact bare.1
  rw [← same, Format.toNat_inWord]
  exact Nat.mod_lt _ (Nat.two_pow_pos _)

/-- **Prefixes do not change what the instruction word holds.** -/
theorem word_apply (bare : raw.operands.truncated = raw.operands) :
    (pending.apply raw).word = raw.word := by
  have immediates : (pending.apply raw).operands.immediateBits = raw.operands.immediateBits := by
    apply UInt16.toNat_inj.mp
    rw [Operands.toNat_immediateBits, Operands.toNat_immediateBits, format_apply, immediate?_apply]
    cases found : raw.operands.immediate? with
    | none => rfl
    | some low =>
        have small := small_of_bare bare found
        simp only [Option.map_some, Option.getD_some, Format.inWord_joinImmediate small,
          Nat.mod_eq_of_lt small]
  have indices : (pending.apply raw).operands.registerBits = raw.operands.registerBits := by
    simp only [Operands.registerBits, Operands.registerPayload, registers_apply pending bare,
      List.foldr_map, Register.lowBits_ofParts]
  rw [Instruction.word, Instruction.word, opcode_apply, immediates, indices]

/-- The high bits of a fetched immediate are those of its prefix, as far as there is room. -/
theorem toNat_highImmediate_apply (bare : raw.operands.truncated = raw.operands) :
    (pending.apply raw).operands.highImmediate.toNat =
      if raw.operands.format.hasImmediate then
        pending.high.toNat % 2 ^ (16 - raw.operands.format.immediateBits)
      else 0 := by
  rw [Operands.highImmediate, format_apply, immediate?_apply]
  have takes := raw.operands.hasImmediate_format
  cases found : raw.operands.immediate? with
  | none =>
      rw [found, Option.isSome_none] at takes
      rw [takes, Option.map_none, Option.getD_none, Format.toNat_overflow]
      exact Nat.zero_div _
  | some low =>
      rw [found, Option.isSome_some] at takes
      rw [takes, Option.map_some, Option.getD_some,
        Format.toNat_overflow_joinImmediate (small_of_bare bare found)]
      rfl

/-- The fields of fetched registers are those of their prefix, where there is a register. -/
theorem extensionField_apply (bare : raw.operands.truncated = raw.operands) (slot : Slot) :
    (pending.apply raw).operands.extensionField slot =
      if raw.operands.format.hasSlot slot then pending.extension.field slot else 0 := by
  rw [Operands.extensionField, registers_apply pending bare]
  rcases raw with ⟨opcode, operands⟩
  -- Either there is no register at the slot, or it was put together from the field.
  cases operands <;> cases slot <;> first | rfl | exact Register.extension_ofParts _ _

end Pending

end WordMachine
