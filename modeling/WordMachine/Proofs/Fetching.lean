import WordMachine.Proofs.InstructionWord

/-!
# Fetching encoded instructions

The words of an encoding stand for an instruction if they are its instruction word, its register
extension and, before these, the high bits of its immediate. Zero high bits may be left out, and
the canonical encoding does so; code that was patched keeps them (`Encoding.Denotes`).

Whatever source yields such words, fetching from it gives the instruction and reads no word more
(`fetch_of_denotes`). The proof follows the words: each prefix goes into the pending state, and the
pending state gives the truncated operands of the instruction word back what they lost
(`Pending.apply_truncated`).

In a byte string words stand at an offset exactly if their bytes come next there
(`Holds.iff_prefix`).
-/

set_option autoImplicit false

namespace WordMachine

/-! ## Folding prefixes -/

theorem Format.joinImmediate_zero (format : Format) (low : UInt16) :
    format.joinImmediate 0 low = low := by
  rw [joinImmediate, UInt16.toNat_zero, Nat.zero_mul, Nat.zero_or, UInt16.ofNat_toNat]

namespace Operands

/-- The bits of the immediate that do not fit the instruction word. -/
def highImmediate (operands : Operands) : UInt16 :=
  operands.format.overflow (operands.immediate?.getD 0)

end Operands

namespace Pending

/-- The fields that pending prefixes hold for the registers, zero if none have been read. -/
def extension (pending : Pending) : RegisterExtension :=
  pending.registers.getD ⟨0, 0, 0, 0⟩

/-- The high bits that pending prefixes hold for the immediate, zero if none have been read. -/
def high (pending : Pending) : UInt16 :=
  pending.immediate.getD 0

/-- Extending registers by what has been read, also if that is nothing. -/
theorem extendRegisters_truncated {pending : Pending} {opcode : Opcode} {operands : Operands}
    (fields : ∀ entry ∈ operands.registers, pending.extension.field entry.1 = entry.2.extension) :
    pending.extendRegisters
        ⟨opcode, operands.mapRegisters fun _ register => Register.ofParts register.lowBits 0⟩ =
      ⟨opcode, operands⟩ := by
  have restored : ∀ entry ∈ operands.registers,
      Register.ofParts entry.2.lowBits (pending.extension.field entry.1) = entry.2 := by
    intro entry stands
    rw [fields entry stands]
    exact Register.ofParts_lowBits_extension entry.2
  have field_zero : ∀ slot, RegisterExtension.field ⟨0, 0, 0, 0⟩ slot = 0 := by
    intro slot
    cases slot <;> rfl
  rcases pending with ⟨registers, immediate⟩
  cases registers with
  | none =>
      simp only [extension, Option.getD_none, field_zero] at restored
      cases operands <;>
        simp only [Operands.registers, List.forall_mem_cons, List.not_mem_nil, false_imp_iff,
          implies_true, and_true] at restored <;>
        simp only [extendRegisters, Operands.mapRegisters, restored]
  | some found =>
      simp only [extension, Option.getD_some] at restored
      cases operands <;>
        simp only [Operands.registers, List.forall_mem_cons, List.not_mem_nil, false_imp_iff,
          implies_true, and_true] at restored <;>
        simp only [extendRegisters, Instruction.mapRegisters, Operands.mapRegisters,
          Register.lowBits_ofParts, restored]

/-- Joining the high bits that have been read, also if there are none. -/
theorem extendImmediate_truncated {pending : Pending} {opcode : Opcode} {operands : Operands}
    (bits : ∀ value, operands.immediate? = some value →
      pending.high.toNat % 2 ^ (16 - operands.format.immediateBits) =
        (operands.format.overflow value).toNat) :
    pending.extendImmediate ⟨opcode, operands.truncated⟩ =
      ⟨opcode, operands.mapRegisters fun _ register => Register.ofParts register.lowBits 0⟩ := by
  have joined : ∀ value, operands.immediate? = some value →
      operands.format.joinImmediate pending.high (operands.format.inWord value) = value :=
    fun value found => Format.joinImmediate_inWord (bits value found)
  have joined_zero : ∀ value, operands.immediate? = some value →
      pending.immediate = none → operands.format.inWord value = value := by
    intro value found absent
    have whole := joined value found
    rwa [high, absent, Option.getD_none, Format.joinImmediate_zero] at whole
  rcases pending with ⟨registers, immediate⟩
  cases immediate with
  | none =>
      cases operands <;>
        simp only [Operands.immediate?, Option.some.injEq, forall_eq', Operands.format,
          true_imp_iff, reduceCtorEq, false_imp_iff, implies_true] at joined_zero <;>
        simp only [extendImmediate, Operands.truncated, Operands.mapRegisters,
          Operands.withImmediate, Operands.immediate?, Operands.format, Option.getD_some,
          joined_zero]
  | some found =>
      cases operands <;>
        simp only [Operands.immediate?, Option.some.injEq, forall_eq', Operands.format, high,
          Option.getD_some, reduceCtorEq, false_imp_iff, implies_true] at joined <;>
        simp only [extendImmediate, Operands.truncated, Operands.mapRegisters,
          Operands.withImmediate, Operands.immediate?, Operands.format, Option.getD_some, joined,
          Instruction.immediate?, Instruction.withImmediate]

/-- **Pending prefixes give truncated operands back what the word has no room for.** -/
theorem apply_truncated {pending : Pending} {instruction : Instruction}
    (fields : ∀ entry ∈ instruction.operands.registers,
      pending.extension.field entry.1 = entry.2.extension)
    (bits : ∀ value, instruction.immediate? = some value →
      pending.high.toNat % 2 ^ (16 - instruction.operands.format.immediateBits) =
        (instruction.operands.format.overflow value).toNat) :
    pending.apply ⟨instruction.opcode, instruction.operands.truncated⟩ = instruction := by
  rw [apply, extendImmediate_truncated bits, extendRegisters_truncated fields]

end Pending

/-! ## Words that encode an instruction -/

/-- Words that stand for an instruction: its instruction word, the register extension if some
operand needs it, and the immediate extension, which may be left out if it is zero. -/
structure Encoding.Denotes (encoding : Encoding) (instruction : Instruction) : Prop where
  wellFormed : instruction.WellFormed
  word : encoding.word = instruction.word
  registers : encoding.registers = instruction.operands.registerWord?
  immediate : encoding.immediate = some (Prefix.immediate instruction.operands.highImmediate).word ∨
    encoding.immediate = none ∧ instruction.operands.highImmediate = 0

theorem Operands.immediateWord?_eq (operands : Operands) :
    operands.immediateWord? =
      if operands.highImmediate = 0 then none
      else some (Prefix.immediate operands.highImmediate).word := by
  rw [immediateWord?, highImmediate]
  cases operands.immediate? with
  | some value => rfl
  | none =>
      rw [if_pos]
      apply UInt16.toNat_inj.mp
      rw [Format.toNat_overflow]
      exact Nat.zero_div _

namespace Instruction

/-- The encoding of an instruction whose operands have the right shape. -/
def canonicalEncoding (instruction : Instruction) : Encoding where
  immediate := instruction.operands.immediateWord?
  registers := instruction.operands.registerWord?
  word := instruction.word

/-- **Exactly the instructions with operands of the right shape have an encoding.** -/
theorem encoding_of_wellFormed {instruction : Instruction} (agrees : instruction.WellFormed) :
    instruction.encoding = .ok instruction.canonicalEncoding := by
  have same : instruction.operands.format = instruction.opcode.format := agrees
  have operation := instruction.operands.format_ne_prefixWord
  have defined : instruction.operands.format ≠ .reserved := by
    cases instruction.operands <;> exact Format.noConfusion
  rw [encoding, ← same, if_neg (not_or.mpr ⟨operation, defined⟩),
    if_neg (Classical.not_not.mpr rfl)]
  rfl

theorem wellFormed_of_encoding {instruction : Instruction} {encoding : Encoding}
    (encoded : instruction.encoding = .ok encoding) : instruction.WellFormed := by
  rw [Instruction.encoding] at encoded
  split at encoded
  · cases encoded
  · split at encoded
    · cases encoded
    · rename_i agrees
      exact (Classical.not_not.mp agrees).symm

theorem encoding_eq_ok_iff {instruction : Instruction} {encoding : Encoding} :
    instruction.encoding = .ok encoding ↔
      instruction.WellFormed ∧ encoding = instruction.canonicalEncoding := by
  constructor
  · intro encoded
    have agrees := wellFormed_of_encoding encoded
    rw [encoding_of_wellFormed agrees] at encoded
    exact ⟨agrees, (Except.ok.inj encoded).symm⟩
  · rintro ⟨agrees, rfl⟩
    exact encoding_of_wellFormed agrees

theorem canonicalEncoding_denotes {instruction : Instruction} (agrees : instruction.WellFormed) :
    instruction.canonicalEncoding.Denotes instruction where
  wellFormed := agrees
  word := rfl
  registers := rfl
  immediate := by
    rw [canonicalEncoding, Operands.immediateWord?_eq]
    by_cases small : instruction.operands.highImmediate = 0
    · exact .inr ⟨if_pos small, small⟩
    · exact .inl (if_neg small)

end Instruction

namespace Operands

theorem highImmediate_lt (operands : Operands) : operands.highImmediate.toNat < 8192 := by
  rw [highImmediate, Format.toNat_overflow]
  have bound := (operands.immediate?.getD 0).toNat_lt
  cases operands with
  | imm | immReg | immRegReg =>
      simp only [format, Format.immediateBits]
      omega
  | regRegReg | regRegRegReg =>
      simp only [immediate?, Option.getD_none, UInt16.toNat_zero, Nat.zero_div, Nat.zero_lt_succ]

/-- No register extension is emitted only if it would be zero. -/
theorem extension_eq_zero {operands : Operands} (absent : operands.registerWord? = none) :
    ∀ entry ∈ operands.registers, entry.2.extension = 0 := by
  intro entry stands
  rw [registerWord?] at absent
  split at absent
  · cases absent
  · rename_i plain
    simp only [List.any_eq_true, not_exists, not_and, Register.needsExtension, bne_iff_ne,
      Classical.not_not] at plain
    exact plain entry stands

theorem field_extension {operands : Operands} {entry : Slot × Register}
    (stands : entry ∈ operands.registers) :
    operands.extension.field entry.1 = entry.2.extension := by
  revert stands
  cases operands <;>
    simp only [registers, List.mem_cons, List.not_mem_nil, or_false, false_imp_iff] <;>
    intro stands
  case immReg => subst stands; rfl
  case immRegReg => rcases stands with rfl | rfl <;> rfl
  case regRegReg => rcases stands with rfl | rfl | rfl <;> rfl
  case regRegRegReg => rcases stands with rfl | rfl | rfl | rfl <;> rfl

end Operands

/-! ## Words from a source -/

section Source

variable {ε σ : Type} {next : WordSource ε σ}

/-- Read from a state on, a source yields words one after the other and then stands at another
state. -/
inductive Yields (next : WordSource ε σ) : σ → List UInt16 → σ → Prop where
  | nil (state : σ) : Yields next state [] state
  | cons {start between finish : σ} {word : UInt16} {rest : List UInt16}
      (read : next start = .ok word between) (more : Yields next between rest finish) :
      Yields next start (word :: rest) finish

/-- What a fetch does with the next word. -/
theorem fetchWith_of_read {pending : Pending} {start rest : σ} {word : UInt16}
    (read : next start = .ok word rest) :
    fetchWith next pending start =
      match Decoded.ofWord word with
      | .instruction raw => .ok (.instruction (pending.apply raw)) rest
      | .illegal bad => .ok (.illegal bad) rest
      | .extension found =>
          match pending.accept found with
          | some extended => fetchWith next extended rest
          | none => .ok (.illegal found.word) rest := by
  have decoded : decodeNext next start = .ok (Decoded.ofWord word) rest := by
    simp only [decodeNext, bind, EStateM.bind, read, pure, EStateM.pure]
  rw [fetchWith, decoded]
  cases Decoded.ofWord word with
  | instruction raw => rfl
  | illegal bad => rfl
  | extension found =>
      simp only
      split <;> rename_i accepted <;> rw [accepted]

theorem fetchWith_of_failure {pending : Pending} {start rest : σ} {failure : ε}
    (read : next start = .error failure rest) :
    fetchWith next pending start = .error failure rest := by
  have decoded : decodeNext next start = .error failure rest := by
    simp only [decodeNext, bind, EStateM.bind, read]
  rw [fetchWith, decoded]

theorem fetchWith_extension {pending extended : Pending} {start rest : σ} {word : UInt16}
    {found : Prefix} (read : next start = .ok word rest)
    (decoded : Decoded.ofWord word = .extension found)
    (accepted : pending.accept found = some extended) :
    fetchWith next pending start = fetchWith next extended rest := by
  rw [fetchWith_of_read read, decoded]
  simp only [accepted]

/-- Fetching an instruction word after all prefixes. -/
theorem fetchWith_word {pending : Pending} {instruction : Instruction} {start finish : σ}
    (agrees : instruction.WellFormed)
    (fields : ∀ entry ∈ instruction.operands.registers,
      pending.extension.field entry.1 = entry.2.extension)
    (bits : ∀ value, instruction.immediate? = some value →
      pending.high.toNat % 2 ^ (16 - instruction.operands.format.immediateBits) =
        (instruction.operands.format.overflow value).toNat)
    (yields : Yields next start [instruction.word] finish) :
    fetchWith next pending start = .ok (.instruction instruction) finish := by
  cases yields with
  | cons read more =>
      cases more
      rw [fetchWith_of_read read, Instruction.ofWord_word agrees]
      simp only [Pending.apply_truncated fields bits]

/-- Fetching the register extension, if there is one, and the instruction word. -/
theorem fetchWith_registers {high : Option UInt16} {instruction : Instruction} {start finish : σ}
    (agrees : instruction.WellFormed)
    (bits : ∀ value, instruction.immediate? = some value →
      (high.getD 0).toNat % 2 ^ (16 - instruction.operands.format.immediateBits) =
        (instruction.operands.format.overflow value).toNat)
    (yields : Yields next start
      (instruction.operands.registerWord?.toList ++ [instruction.word]) finish) :
    fetchWith next ⟨none, high⟩ start = .ok (.instruction instruction) finish := by
  cases emitted : instruction.operands.registerWord? with
  | none =>
      rw [emitted] at yields
      refine fetchWith_word agrees (fun entry stands => ?_) bits yields
      rw [Operands.extension_eq_zero emitted entry stands]
      cases entry.1 <;> rfl
  | some word =>
      have composed : word = (Prefix.registers instruction.operands.extension).word := by
        rw [Operands.registerWord?] at emitted
        split at emitted
        · exact (Option.some.inj emitted).symm
        · cases emitted
      rw [emitted] at yields
      cases yields with
      | cons read more =>
          rw [fetchWith_extension read (composed ▸ Prefix.ofWord_registers _) rfl]
          exact fetchWith_word agrees
            (fun entry stands => Operands.field_extension stands) bits more

theorem Operands.highImmediate_mod {operands : Operands} {value : UInt16}
    (found : operands.immediate? = some value) :
    operands.highImmediate.toNat % 2 ^ (16 - operands.format.immediateBits) =
      (operands.format.overflow value).toNat := by
  rw [highImmediate, found, Option.getD_some, Format.toNat_overflow]
  apply Nat.mod_eq_of_lt
  have bound := value.toNat_lt
  cases operands.format <;> simp only [Format.immediateBits] <;> omega

/-- **Fetching words that stand for an instruction gives the instruction.** -/
theorem fetch_of_denotes {encoding : Encoding} {instruction : Instruction} {start finish : σ}
    (denotes : encoding.Denotes instruction)
    (yields : Yields next start encoding.words finish) :
    fetch next start = .ok (.instruction instruction) finish := by
  rw [Encoding.words, denotes.registers, denotes.word, List.append_assoc] at yields
  rw [fetch, Pending.neutral]
  -- An extension that is there adds its bits even if they are zero.
  rcases denotes.immediate with emitted | ⟨absent, small⟩
  · rw [emitted] at yields
    cases yields with
    | cons read more =>
        rw [fetchWith_extension read
          (Prefix.ofWord_immediate instruction.operands.highImmediate_lt) rfl]
        exact fetchWith_registers denotes.wellFormed
          (fun value found => Operands.highImmediate_mod found) more
  · rw [absent] at yields
    refine fetchWith_registers denotes.wellFormed (fun value found => ?_) yields
    rw [← Operands.highImmediate_mod found, small]
    rfl

end Source

/-! ## Words in a byte string -/

theorem wordBytes_eq (word : UInt16) :
    wordBytes word = [UInt8.ofNat (word.toNat / 256), UInt8.ofNat word.toNat] := by
  simp only [wordBytes, BigEndian.encode, Nat.pow_one, Nat.pow_zero, Nat.div_one]

theorem ofNat_value_wordBytes (word : UInt16) :
    UInt16.ofNat (BigEndian.value (wordBytes word)) = word := by
  have fits : word.toNat % 256 ^ 2 = word.toNat := Nat.mod_eq_of_lt word.toNat_lt
  rw [wordBytes, BigEndian.value_encode, fits, UInt16.ofNat_toNat]

theorem wordBytes_ofNat_value (high low : UInt8) :
    wordBytes (UInt16.ofNat (BigEndian.value [high, low])) = [high, low] := by
  have bound : BigEndian.value [high, low] < 65536 := by
    simpa using BigEndian.value_lt [high, low]
  have read := BigEndian.encode_value [high, low]
  rw [wordBytes, UInt16.toNat_ofNat', Nat.mod_eq_of_lt bound]
  exact read

namespace ByteReader

/-- A word stands at an offset if its two bytes do. -/
theorem wordAt?_eq_some_iff {bytes : Array UInt8} {offset : Nat} {word : UInt16} :
    wordAt? bytes offset = some word ↔
      bytes[offset]? = some (UInt8.ofNat (word.toNat / 256)) ∧
        bytes[offset + 1]? = some (UInt8.ofNat word.toNat) := by
  have composed := ofNat_value_wordBytes word
  rw [wordBytes_eq] at composed
  rw [wordAt?]
  constructor
  · intro found
    split at found
    · rename_i high low atHigh atLow
      have parts := wordBytes_ofNat_value high low
      rw [Option.some.inj found, wordBytes_eq] at parts
      rw [atHigh, atLow]
      simp only [List.cons.injEq, and_true] at parts
      exact ⟨congrArg some parts.1.symm, congrArg some parts.2.symm⟩
    · cases found
  · rintro ⟨atHigh, atLow⟩
    rw [atHigh, atLow]
    exact congrArg some composed

theorem wordAt?_eq_some_iff_prefix {bytes : Array UInt8} {offset : Nat} {word : UInt16} :
    wordAt? bytes offset = some word ↔ wordBytes word <+: bytes.toList.drop offset := by
  rw [wordAt?_eq_some_iff, wordBytes_eq, ← Array.getElem?_toList, ← Array.getElem?_toList,
    List.prefix_iff_getElem?]
  simp only [List.getElem?_drop]
  constructor
  · rintro ⟨atHigh, atLow⟩ place inside
    match place, inside with
    | 0, _ => exact atHigh
    | 1, _ => exact atLow
  · intro stands
    exact ⟨stands 0 (by simp), stands 1 (by simp)⟩

end ByteReader

/-- The words stand in the bytes one after the other, from an offset on. -/
def Holds (bytes : Array UInt8) : Nat → List UInt16 → Prop
  | _, [] => True
  | offset, word :: rest =>
      ByteReader.wordAt? bytes offset = some word ∧ Holds bytes (offset + 2) rest

namespace Holds

variable {bytes : Array UInt8} {offset : Nat}

theorem yields {words : List UInt16} (holds : Holds bytes offset words) :
    Yields ByteReader.next ⟨bytes, offset⟩ words ⟨bytes, offset + 2 * words.length⟩ := by
  induction words generalizing offset with
  | nil => exact .nil _
  | cons word rest ih =>
      have past : offset + 2 * (word :: rest).length = offset + 2 + 2 * rest.length := by
        rw [List.length_cons]
        omega
      have read : ByteReader.next ⟨bytes, offset⟩ = .ok word ⟨bytes, offset + 2⟩ := by
        rw [ByteReader.next, holds.1]
      rw [past]
      exact .cons read (ih holds.2)

theorem append_iff {first second : List UInt16} :
    Holds bytes offset (first ++ second) ↔
      Holds bytes offset first ∧ Holds bytes (offset + 2 * first.length) second := by
  induction first generalizing offset with
  | nil => simp [Holds]
  | cons word rest ih =>
      have past : offset + 2 * (word :: rest).length = offset + 2 + 2 * rest.length := by
        rw [List.length_cons]
        omega
      rw [List.cons_append, Holds, Holds, ih, and_assoc, past]

/-- **Words stand at an offset exactly if their bytes are what comes next.** -/
theorem iff_prefix {words : List UInt16} :
    Holds bytes offset words ↔ words.flatMap wordBytes <+: bytes.toList.drop offset := by
  induction words generalizing offset with
  | nil => simp [Holds]
  | cons word rest ih =>
      have size : (wordBytes word).length = 2 := BigEndian.length_encode 2 word.toNat
      rw [Holds, ih, ByteReader.wordAt?_eq_some_iff_prefix, List.flatMap_cons, ← List.drop_drop]
      constructor
      · rintro ⟨⟨after, first⟩, ⟨more, later⟩⟩
        rw [← first, ← size, List.drop_left] at later
        exact ⟨more, by rw [← first, ← later, List.append_assoc]⟩
      · rintro ⟨more, whole⟩
        rw [List.append_assoc] at whole
        exact ⟨⟨_, whole⟩, ⟨more, by rw [← whole, ← size, List.drop_left]⟩⟩

end Holds

/-! ## Encoded instructions in a byte string -/

theorem length_flatMap_wordBytes (words : List UInt16) :
    (words.flatMap wordBytes).length = 2 * words.length := by
  induction words with
  | nil => rfl
  | cons word rest ih =>
      rw [List.flatMap_cons, List.length_append, ih, wordBytes, BigEndian.length_encode,
        List.length_cons]
      omega

theorem Encoding.words_ne_nil (encoding : Encoding) : encoding.words ≠ [] :=
  List.append_ne_nil_of_right_ne_nil _ (List.cons_ne_nil _ _)

/-- The number of bytes of an encoding. -/
theorem Encoding.length_bytes (encoding : Encoding) :
    encoding.bytes.length = 2 * encoding.words.length :=
  length_flatMap_wordBytes encoding.words

namespace Layout

theorem start_ofEncoding (offset : Nat) (encoding : Encoding) :
    (ofEncoding offset encoding).start = offset := by
  rcases encoding with ⟨_ | high, _ | fields, word⟩ <;> rfl

theorem finish_ofEncoding (offset : Nat) (encoding : Encoding) :
    (ofEncoding offset encoding).finish = offset + encoding.bytes.length := by
  rw [encoding.length_bytes]
  rcases encoding with ⟨_ | high, _ | fields, word⟩ <;> rfl

end Layout

namespace Code

theorem toList_append (code : Code) (bytes : List UInt8) :
    (code.append bytes).bytes.toList = code.bytes.toList ++ bytes := by
  simp [append]

theorem append_append (code : Code) (first second : List UInt8) :
    (code.append first).append second = code.append (first ++ second) := by
  have same : ((code.append first).append second).bytes.toList =
      (code.append (first ++ second)).bytes.toList := by
    rw [toList_append, toList_append, toList_append, List.append_assoc]
  exact congrArg Code.mk (Array.ext' same)

theorem append_nil (code : Code) : code.append [] = code := by
  simp [append]

theorem size_append (code : Code) (bytes : List UInt8) :
    (code.append bytes).size = code.size + bytes.length := by
  rw [size, size, ← Array.length_toList, toList_append, List.length_append, Array.length_toList]

/-- Words that are appended stand at the old end. -/
theorem holds_append (code : Code) (words : List UInt16) :
    Holds (code.append (words.flatMap wordBytes)).bytes code.size words := by
  have dropped : (code.append (words.flatMap wordBytes)).bytes.toList.drop code.size =
      words.flatMap wordBytes := by
    rw [toList_append, size, ← Array.length_toList, List.drop_left]
  exact Holds.iff_prefix.mpr ⟨[], (List.append_nil _).trans dropped.symm⟩

end Code

/-- **Fetching where an encoding stands gives the instruction and moves past it.** -/
theorem fetch_of_holds {bytes : Array UInt8} {offset : Nat} {encoding : Encoding}
    {instruction : Instruction} (denotes : encoding.Denotes instruction)
    (holds : Holds bytes offset encoding.words) :
    fetch ByteReader.next ⟨bytes, offset⟩ =
      .ok (.instruction instruction) ⟨bytes, offset + encoding.bytes.length⟩ := by
  rw [encoding.length_bytes]
  exact fetch_of_denotes denotes holds.yields

end WordMachine
