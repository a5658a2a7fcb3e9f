import WordMachine.Code

/-!
# What an instruction word says

The instruction word of an instruction is a sum: the word of its operation with an empty payload,
the low bits of the immediate and the low bits of the register indices, each at its place. The
summands do not overlap, so the operation code, the immediate field and the register fields can be
read off again. What is read is the operation with *truncated* operands
(`Instruction.ofWord_word`), and no other information was in the word.

The two kinds of prefix words are read as the fields they were made from in the same way
(`Prefix.ofWord_registers`, `Prefix.ofWord_immediate`). Truncated operands and prefix fields
together hold all of an operand: `Format.joinImmediate_inWord` puts an immediate together again,
and `Register.ofParts_lowBits_extension` a register.
-/

set_option autoImplicit false

namespace WordMachine

/-! ## The parts of an immediate -/

namespace Format

theorem toNat_placeImmediate (format : Format) (value : UInt16) :
    (format.placeImmediate value).toNat =
      value.toNat % 2 ^ format.immediateBits * 2 ^ format.immediateShift := by
  cases format <;>
    simp only [placeImmediate, immediateBits, immediateShift, UInt16.toNat_ofNat'] <;> omega

theorem toNat_readImmediate (format : Format) (word : UInt16) :
    (format.readImmediate word).toNat =
      word.toNat / 2 ^ format.immediateShift % 2 ^ format.immediateBits := by
  have bound := word.toNat_lt
  cases format <;>
    simp only [readImmediate, immediateBits, immediateShift, UInt16.toNat_ofNat'] <;> omega

theorem toNat_overflow (format : Format) (value : UInt16) :
    (format.overflow value).toNat = value.toNat / 2 ^ format.immediateBits := by
  have bound := value.toNat_lt
  rw [overflow, UInt16.toNat_ofNat', Nat.mod_eq_of_lt]
  exact Nat.lt_of_le_of_lt (Nat.div_le_self _ _) bound

/-- The low bits of an immediate, as the instruction word holds them. -/
def inWord (format : Format) (value : UInt16) : UInt16 :=
  UInt16.ofNat (value.toNat % 2 ^ format.immediateBits)

theorem toNat_inWord (format : Format) (value : UInt16) :
    (format.inWord value).toNat = value.toNat % 2 ^ format.immediateBits := by
  have bound := value.toNat_lt
  rw [inWord, UInt16.toNat_ofNat', Nat.mod_eq_of_lt]
  exact Nat.lt_of_le_of_lt (Nat.mod_le _ _) bound

/-- **An immediate is put together from its two parts.** Of the high part only the bits count that
the immediate has room for. -/
theorem joinImmediate_inWord {format : Format} {high value : UInt16}
    (agrees : high.toNat % 2 ^ (16 - format.immediateBits) = (format.overflow value).toNat) :
    format.joinImmediate high (format.inWord value) = value := by
  apply UInt16.toNat_inj.mp
  rw [toNat_overflow] at agrees
  have bound := value.toNat_lt
  have low : (format.inWord value).toNat < 2 ^ format.immediateBits := by
    rw [toNat_inWord]
    exact Nat.mod_lt _ (Nat.two_pow_pos _)
  rw [joinImmediate, UInt16.toNat_ofNat', Nat.mul_comm, ← Nat.two_pow_add_eq_or_of_lt low,
    toNat_inWord]
  cases format <;> simp only [immediateBits] at agrees ⊢ <;> omega

end Format

/-! ## Words without a payload -/

namespace Opcode

theorem firstNumber_le_number (opcode : Opcode) :
    opcode.wordClass.firstNumber ≤ opcode.number := by
  unfold wordClass
  split
  · exact Nat.zero_le _
  · simp only [WordClass.firstNumber]
    omega

theorem code_lt_codeCount (opcode : Opcode) : opcode.code < opcode.wordClass.codeCount := by
  have bound := number_lt opcode
  unfold code wordClass
  split <;> simp only [WordClass.firstNumber, WordClass.codeCount] <;> omega

theorem ofCode?_code (opcode : Opcode) : ofCode? opcode.wordClass opcode.code = some opcode := by
  rw [ofCode?, Nat.mod_eq_of_lt opcode.code_lt_codeCount, code,
    Nat.add_sub_cancel' opcode.firstNumber_le_number]
  exact ofNumber?_number opcode

theorem toNat_baseWord (opcode : Opcode) :
    opcode.baseWord.toNat =
      opcode.wordClass.firstWord + opcode.code * opcode.wordClass.payloadSize := by
  have bound := opcode.code_lt_codeCount
  rw [baseWord, UInt16.toNat_ofNat', Nat.mod_eq_of_lt]
  revert bound
  cases opcode.wordClass <;>
    simp only [WordClass.codeCount, WordClass.firstWord, WordClass.payloadSize] <;> omega

theorem baseWord_add_lt {opcode : Opcode} {payload : Nat}
    (small : payload < opcode.wordClass.payloadSize) :
    opcode.baseWord.toNat + payload < 65536 := by
  have bound := opcode.code_lt_codeCount
  rw [toNat_baseWord]
  revert small bound
  cases opcode.wordClass <;>
    simp only [WordClass.codeCount, WordClass.firstWord, WordClass.payloadSize] <;> omega

end Opcode

/-- The operation code field of a word that is composed with an operation names that operation. -/
theorem Opcode.ofCode?_of_payload {opcode : Opcode} {word : UInt16} {payload : Nat}
    (small : payload < opcode.wordClass.payloadSize)
    (composed : word.toNat = opcode.baseWord.toNat + payload) :
    Opcode.ofCode? (WordClass.ofWord word)
      (word.toNat / (WordClass.ofWord word).payloadSize) = some opcode := by
  have bound := opcode.code_lt_codeCount
  rw [Opcode.toNat_baseWord] at composed
  have sameClass : WordClass.ofWord word = opcode.wordClass := by
    revert small composed bound
    unfold WordClass.ofWord
    cases opcode.wordClass <;>
      simp only [WordClass.codeCount, WordClass.firstWord, WordClass.payloadSize] <;>
      intro small bound composed <;> split <;> first | rfl | omega
  rw [sameClass, ← opcode.ofCode?_code, Opcode.ofCode?, Opcode.ofCode?]
  congr 2
  revert small composed bound
  cases opcode.wordClass <;>
    simp only [WordClass.codeCount, WordClass.firstWord, WordClass.payloadSize] <;> omega

/-- **A word is classified by its operation code alone.** -/
theorem Decoded.ofWord_of_payload {opcode : Opcode} {word : UInt16} {payload : Nat}
    (small : payload < opcode.wordClass.payloadSize)
    (composed : word.toNat = opcode.baseWord.toNat + payload) :
    Decoded.ofWord word = Decoded.ofOpcode word opcode := by
  simp only [ofWord, Opcode.ofCode?_of_payload small composed]

/-! ## Payloads -/

/-- One more than the largest payload of a format's words. -/
def Format.payloadSize : Format → Nat
  | .regRegRegReg => 4096
  | _ => 512

theorem Opcode.payloadSize_wordClass (opcode : Opcode) (operation : opcode.format ≠ .prefixWord) :
    opcode.wordClass.payloadSize = opcode.format.payloadSize := by
  cases opcode with
  | jabs condition => cases condition <;> rfl
  | jrel condition => cases condition <;> rfl
  | call condition => cases condition <;> rfl
  | ld size => cases size <;> rfl
  | st size => cases size <;> rfl
  | ldm width => cases width <;> rfl
  | stm width => cases width <;> rfl
  | rex => exact absurd rfl operation
  | iex => exact absurd rfl operation
  | iexHigh => exact absurd rfl operation
  | _ => rfl

namespace Operands

/-- The payload of the instruction word. -/
def payload (operands : Operands) : Nat :=
  operands.immediateBits.toNat + operands.registerBits.toNat

theorem format_ne_prefixWord (operands : Operands) : operands.format ≠ .prefixWord := by
  cases operands <;> exact Format.noConfusion

theorem toNat_registerBits (operands : Operands) :
    operands.registerBits.toNat = operands.registerPayload := by
  rw [registerBits, UInt16.toNat_ofNat', Nat.mod_eq_of_lt]
  cases operands <;> simp only [registerPayload, registers, List.foldr, Slot.weight] <;> omega

theorem toNat_immediateBits (operands : Operands) :
    operands.immediateBits.toNat =
      (operands.immediate?.getD 0).toNat % 2 ^ operands.format.immediateBits *
        2 ^ operands.format.immediateShift := by
  cases operands <;>
    simp only [immediateBits, immediate?, Format.toNat_placeImmediate, Option.getD_some,
      Option.getD_none, UInt16.toNat_zero, Nat.zero_mod, Nat.zero_mul]

theorem payload_eq (operands : Operands) :
    operands.payload =
      (operands.immediate?.getD 0).toNat % 2 ^ operands.format.immediateBits *
          2 ^ operands.format.immediateShift +
        operands.registerPayload := by
  rw [payload, toNat_immediateBits, toNat_registerBits]

theorem payload_lt (operands : Operands) : operands.payload < operands.format.payloadSize := by
  rw [payload_eq]
  cases operands <;>
    simp only [registerPayload, registers, List.foldr, Slot.weight, immediate?,
      Option.getD_some, Option.getD_none, UInt16.toNat_zero, format, Format.immediateBits,
      Format.immediateShift, Format.payloadSize] <;>
    omega

/-- What the instruction word alone says of the operands: the low bits of the immediate, and word
views of the first eight registers. -/
def truncated (operands : Operands) : Operands :=
  let raw := operands.mapRegisters fun _ register => Register.ofParts register.lowBits 0
  raw.withImmediate (operands.format.inWord (operands.immediate?.getD 0))

theorem readImmediate_of_payload {operands : Operands} {word : UInt16}
    (composed : word.toNat % operands.format.payloadSize = operands.payload) :
    operands.format.readImmediate word =
      operands.format.inWord (operands.immediate?.getD 0) := by
  apply UInt16.toNat_inj.mp
  rw [Format.toNat_readImmediate, Format.toNat_inWord]
  rw [payload_eq] at composed
  revert composed
  cases operands <;>
    simp only [registerPayload, registers, List.foldr, Slot.weight, immediate?,
      Option.getD_some, Option.getD_none, UInt16.toNat_zero, format, Format.immediateBits,
      Format.immediateShift, Format.payloadSize] <;>
    omega

/-- A register field of the word holds the low bits of the operand at that slot. -/
theorem field_of_payload {operands : Operands} {word : UInt16} {slot : Slot} {register : Register}
    (composed : word.toNat % operands.format.payloadSize = operands.payload)
    (stands : (slot, register) ∈ operands.registers) :
    slot.field word = register.lowBits := by
  rw [payload_eq] at composed
  apply Fin.ext
  rw [Slot.field, Fin.val_ofNat]
  revert composed
  cases operands <;>
    simp only [registers, List.mem_cons, Prod.mk.injEq, List.not_mem_nil, or_false] at stands <;>
    simp only [registerPayload, registers, List.foldr, immediate?, Option.getD_some,
      Option.getD_none, UInt16.toNat_zero, format, Format.immediateBits, Format.immediateShift,
      Format.payloadSize]
  case immReg =>
    obtain ⟨rfl, rfl⟩ := stands
    simp only [Slot.weight]
    omega
  case immRegReg =>
    rcases stands with ⟨rfl, rfl⟩ | ⟨rfl, rfl⟩ <;> simp only [Slot.weight] <;> omega
  case regRegReg =>
    rcases stands with ⟨rfl, rfl⟩ | ⟨rfl, rfl⟩ | ⟨rfl, rfl⟩ <;> simp only [Slot.weight] <;> omega
  case regRegRegReg =>
    rcases stands with ⟨rfl, rfl⟩ | ⟨rfl, rfl⟩ | ⟨rfl, rfl⟩ | ⟨rfl, rfl⟩ <;>
      simp only [Slot.weight] <;> omega

/-- **Reading a payload gives what the word alone says of the operands.** -/
theorem ofWord?_of_payload {operands : Operands} {word : UInt16}
    (composed : word.toNat % operands.format.payloadSize = operands.payload) :
    Operands.ofWord? word operands.format = some operands.truncated := by
  have read := readImmediate_of_payload composed
  have named : ∀ entry ∈ operands.registers, Slot.rawRegister entry.1 word =
      Register.ofParts entry.2.lowBits 0 := by
    intro entry stands
    rw [Slot.rawRegister, field_of_payload composed stands]
  cases operands <;>
    simp only [registers, List.forall_mem_cons, List.not_mem_nil, false_imp_iff, implies_true,
      and_true] at named <;>
    simp only [format] at read ⊢ <;>
    simp only [ofWord?, truncated, mapRegisters, withImmediate, immediate?, format] <;>
    simp only [read, named, immediate?]

end Operands

namespace Instruction

/-- The instruction word of an instruction, which holds the low bits of its operands. -/
def word (instruction : Instruction) : UInt16 :=
  instruction.opcode.baseWord + instruction.operands.immediateBits +
    instruction.operands.registerBits

theorem format_of_wellFormed {instruction : Instruction} (agrees : instruction.WellFormed) :
    instruction.operands.format = instruction.opcode.format :=
  agrees

theorem operation_of_wellFormed {instruction : Instruction} (agrees : instruction.WellFormed) :
    instruction.opcode.format ≠ .prefixWord := by
  rw [← format_of_wellFormed agrees]
  exact instruction.operands.format_ne_prefixWord

theorem payload_lt {instruction : Instruction} (agrees : instruction.WellFormed) :
    instruction.operands.payload < instruction.opcode.wordClass.payloadSize := by
  rw [instruction.opcode.payloadSize_wordClass (operation_of_wellFormed agrees),
    ← format_of_wellFormed agrees]
  exact instruction.operands.payload_lt

theorem toNat_word {instruction : Instruction} (agrees : instruction.WellFormed) :
    instruction.word.toNat = instruction.opcode.baseWord.toNat + instruction.operands.payload := by
  have fits := Opcode.baseWord_add_lt (payload_lt agrees)
  rw [Operands.payload] at fits ⊢
  rw [word, UInt16.toNat_add, UInt16.toNat_add]
  omega

theorem word_mod_payloadSize {instruction : Instruction} (agrees : instruction.WellFormed) :
    instruction.word.toNat % instruction.operands.format.payloadSize =
      instruction.operands.payload := by
  have small := instruction.operands.payload_lt
  have same :
      instruction.opcode.wordClass.payloadSize = instruction.operands.format.payloadSize := by
    rw [instruction.opcode.payloadSize_wordClass (operation_of_wellFormed agrees),
      ← format_of_wellFormed agrees]
  rw [toNat_word agrees, Opcode.toNat_baseWord, same]
  revert small
  cases instruction.opcode.wordClass <;> cases instruction.operands.format <;>
    simp only [WordClass.firstWord, Format.payloadSize] <;> omega

/-- **An instruction word says what fits it.** -/
theorem ofWord_word {instruction : Instruction} (agrees : instruction.WellFormed) :
    Decoded.ofWord instruction.word =
      .instruction ⟨instruction.opcode, instruction.operands.truncated⟩ := by
  have plain : Decoded.extension? instruction.word instruction.opcode = none := by
    have operation := operation_of_wellFormed agrees
    revert operation
    cases instruction.opcode <;> intro operation <;> first | rfl | exact absurd rfl operation
  rw [Decoded.ofWord_of_payload (payload_lt agrees) (toNat_word agrees), Decoded.ofOpcode, plain,
    ← format_of_wellFormed agrees,
    Operands.ofWord?_of_payload (word_mod_payloadSize agrees)]

end Instruction

/-! ## Prefix words -/

namespace RegisterExtension

theorem toNat_payload (fields : RegisterExtension) :
    fields.payload.toNat =
      fields.d.val * 512 + fields.c.val * 64 + fields.b.val * 8 + fields.a.val := by
  rw [payload, UInt16.toNat_ofNat', Nat.mod_eq_of_lt]
  omega

end RegisterExtension

namespace Prefix

theorem toNat_word_registers (fields : RegisterExtension) :
    (Prefix.registers fields).word.toNat = Opcode.rex.baseWord.toNat + fields.payload.toNat := by
  have base : Opcode.rex.baseWord.toNat = 32768 := rfl
  have value := fields.toNat_payload
  rw [word, UInt16.toNat_add, Nat.mod_eq_of_lt]
  omega

/-- **A word that extends registers is read as the fields it was made from.** -/
theorem ofWord_registers (fields : RegisterExtension) :
    Decoded.ofWord (Prefix.registers fields).word = .extension (.registers fields) := by
  have base : Opcode.rex.baseWord.toNat = 32768 := rfl
  have value := fields.toNat_payload
  have composed := toNat_word_registers fields
  have small : fields.payload.toNat < Opcode.rex.wordClass.payloadSize := by
    show _ < 4096
    omega
  rw [Decoded.ofWord_of_payload small composed]
  show Decoded.extension (.registers (RegisterExtension.ofPayload _)) = _
  rcases fields with ⟨d, c, b, a⟩
  simp only [RegisterExtension.ofPayload, Slot.field, Slot.weight, Decoded.extension.injEq,
    Prefix.registers.injEq, RegisterExtension.mk.injEq, Fin.ext_iff, Fin.val_ofNat]
  simp only at value
  omega

theorem toNat_word_immediate (high : UInt16) :
    (Prefix.immediate high).word.toNat = 57344 + high.toNat % 8192 := by
  have base : Opcode.iex.baseWord.toNat = 57344 := rfl
  rw [word, UInt16.toNat_add, UInt16.toNat_ofNat']
  omega

/-- **A word that extends an immediate is read as the bits it was made from.** -/
theorem ofWord_immediate {high : UInt16} (fits : high.toNat < 8192) :
    Decoded.ofWord (Prefix.immediate high).word = .extension (.immediate high) := by
  have value := toNat_word_immediate high
  have same : UInt16.ofNat ((Prefix.immediate high).word.toNat % 8192) = high := by
    apply UInt16.toNat_inj.mp
    rw [UInt16.toNat_ofNat']
    omega
  by_cases low : high.toNat < 4096
  · have base : Opcode.iex.baseWord.toNat = 57344 := rfl
    have small : high.toNat < Opcode.iex.wordClass.payloadSize := low
    rw [Decoded.ofWord_of_payload small (by omega)]
    exact congrArg (fun found => Decoded.extension (.immediate found)) same
  · have base : Opcode.iexHigh.baseWord.toNat = 61440 := rfl
    have small : high.toNat - 4096 < Opcode.iexHigh.wordClass.payloadSize := by
      show _ < 4096
      omega
    rw [Decoded.ofWord_of_payload small (by omega)]
    exact congrArg (fun found => Decoded.extension (.immediate found)) same

end Prefix
end WordMachine
