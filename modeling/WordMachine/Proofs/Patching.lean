import WordMachine.Proofs.Actions
import WordMachine.Proofs.Fetching

/-!
# Patching an immediate

An instruction that was emitted with an immediate extension can be given another immediate in
place. Two of its words are replaced, the extension and the instruction word, and a register
extension between them stays (`Code.rewriteImmediate_of_holds`). The words that come of it stand for
the instruction with the other immediate (`Encoding.Denotes.patched`). They are the canonical
ones unless the new immediate fits the instruction word; then an empty extension is left in front
(`Encoding.Denotes.bytes_patched`).

What a change leaves alone is said by `SameOutside`: the bytes have the same length, and are the
same outside a stretch.
-/

set_option autoImplicit false

namespace WordMachine

/-! ## Bytes outside a stretch -/

/-- Two byte strings of one length that differ at most from one offset up to another. -/
structure SameOutside (start finish : Nat) (before after : Array UInt8) : Prop where
  size : after.size = before.size
  outside : ∀ offset, offset < start ∨ finish ≤ offset → after[offset]? = before[offset]?

namespace SameOutside

variable {start finish : Nat} {before between after : Array UInt8}

theorem trans (first : SameOutside start finish before between)
    (second : SameOutside start finish between after) : SameOutside start finish before after where
  size := second.size.trans first.size
  outside offset beyond := (second.outside offset beyond).trans (first.outside offset beyond)

theorem widen {lower upper : Nat} (same : SameOutside lower upper before after)
    (below : start ≤ lower) (above : upper ≤ finish) : SameOutside start finish before after where
  size := same.size
  outside offset beyond := same.outside offset (by omega)

end SameOutside

namespace Holds

theorem congr {before after : Array UInt8} {offset : Nat} {words : List UInt16}
    (holds : Holds before offset words)
    (same : ∀ other, offset ≤ other → other < offset + 2 * words.length →
      after[other]? = before[other]?) : Holds after offset words := by
  induction words generalizing offset with
  | nil => trivial
  | cons word rest ih =>
      rw [List.length_cons] at same
      refine ⟨?_, ih holds.2 fun other low high => same other (by omega) (by omega)⟩
      rw [ByteReader.wordAt?_eq_some_iff, same offset (Nat.le_refl _) (by omega),
        same (offset + 1) (by omega) (by omega)]
      exact ByteReader.wordAt?_eq_some_iff.mp holds.1

/-- Words that stand beside a stretch are not affected by what happens in it. -/
theorem of_sameOutside {before after : Array UInt8} {offset start finish : Nat}
    {words : List UInt16} (holds : Holds before offset words)
    (same : SameOutside start finish before after)
    (apart : offset + 2 * words.length ≤ start ∨ finish ≤ offset) : Holds after offset words :=
  holds.congr fun other low high => same.outside other (by omega)

theorem le_size {bytes : Array UInt8} {offset : Nat} {words : List UInt16}
    (holds : Holds bytes offset words) (nonempty : words ≠ []) :
    offset + 2 * words.length ≤ bytes.size := by
  induction words generalizing offset with
  | nil => exact absurd rfl nonempty
  | cons word rest ih =>
      obtain ⟨inside, _⟩ :=
        Array.getElem?_eq_some_iff.mp (ByteReader.wordAt?_eq_some_iff.mp holds.1).2
      cases rest with
      | nil =>
          rw [List.length_singleton]
          omega
      | cons next more =>
          have further := ih holds.2 (List.cons_ne_nil _ _)
          rw [List.length_cons]
          omega

/-- Appending to the code leaves words in place. -/
theorem append {code : Code} {offset : Nat} {words : List UInt16}
    (holds : Holds code.bytes offset words) (nonempty : words ≠ []) (bytes : List UInt8) :
    Holds (code.append bytes).bytes offset words := by
  have within := holds.le_size nonempty
  refine holds.congr ?_
  intro other _ below
  rw [← Array.getElem?_toList, Code.toList_append, List.getElem?_append_left, Array.getElem?_toList]
  rw [Array.length_toList]
  omega

/-- Words make up the stretch of bytes in which they stand. -/
theorem toList_extract {bytes : Array UInt8} {offset finish : Nat} {words : List UInt16}
    (holds : Holds bytes offset words) (past : finish = offset + 2 * words.length) :
    (bytes.extract offset finish).toList = words.flatMap wordBytes := by
  obtain ⟨more, whole⟩ := Holds.iff_prefix.mp holds
  rw [past, Array.toList_extract, List.extract_eq_take_drop, ← whole, Nat.add_sub_cancel_left,
    ← length_flatMap_wordBytes, List.take_left]

end Holds

/-! ## Replacing words -/

namespace Code

theorem patchWord?_of_inside {code : Code} {offset : Nat} (word : UInt16)
    (inside : offset + 2 ≤ code.size) :
    ∃ patched, code.patchWord? offset word = some patched ∧
      Holds patched.bytes offset [word] ∧
      SameOutside offset (offset + 2) code.bytes patched.bytes := by
  have room : offset + 1 < code.bytes.size := inside
  refine ⟨_, dif_pos room, ⟨?_, trivial⟩, ?_, ?_⟩
  · rw [ByteReader.wordAt?_eq_some_iff]
    constructor
    · rw [Array.getElem?_set_ne _ (by omega), Array.getElem?_set_self]
    · rw [Array.getElem?_set_self]
  · rw [Array.size_set, Array.size_set]
  · intro other beyond
    rw [Array.getElem?_set_ne _ (by omega), Array.getElem?_set_ne _ (by omega)]

end Code

/-- Byte strings of one length of which the second holds two given words at two offsets, and is
like the first everywhere else. -/
structure Rewritten (extension opcode : Nat) (high low : UInt16) (before after : Array UInt8) :
    Prop where
  size : after.size = before.size
  high : ByteReader.wordAt? after extension = some high
  low : ByteReader.wordAt? after opcode = some low
  outside : ∀ offset, offset < extension ∨ extension + 2 ≤ offset →
    offset < opcode ∨ opcode + 2 ≤ offset → after[offset]? = before[offset]?

namespace Code

/-- The two writes of a patch, and what each leaves behind if it fails. -/
theorem rewriteImmediate_eq {code : Code} {layout : Layout} {extension : Nat} {word : UInt16}
    (leading : layout.immediate = some extension) (stands : code.wordAt? layout.word = some word)
    (format : Format) (value : UInt16) :
    rewriteImmediate layout format value code =
      match code.patchWord? extension (Prefix.immediate (format.overflow value)).word with
      | none => .error (.missingExtension layout.word) code
      | some longer =>
          match longer.patchWord? layout.word (format.replaceImmediate word value) with
          | none => .error (.missingExtension layout.word) longer
          | some patched => .ok () patched := by
  rw [rewriteImmediate, run_get_bind, leading, stands]
  cases first : code.patchWord? extension (Prefix.immediate (format.overflow value)).word with
  | none => simp only [bind, EStateM.bind, replaceWord, first]; rfl
  | some longer =>
      simp only [bind, EStateM.bind, replaceWord, first, if_true, pure]
      cases longer.patchWord? layout.word (format.replaceImmediate word value) <;> rfl

/-- **An immediate is replaced in place.** -/
theorem rewriteImmediate_of_apart {code : Code} {layout : Layout} {extension : Nat} {word : UInt16}
    (leading : layout.immediate = some extension) (apart : extension + 2 ≤ layout.word)
    (stands : code.wordAt? layout.word = some word) (format : Format) (value : UInt16) :
    ∃ patched, rewriteImmediate layout format value code = .ok () patched ∧
      Rewritten extension layout.word (Prefix.immediate (format.overflow value)).word
        (format.replaceImmediate word value) code.bytes patched.bytes := by
  have holds : Holds code.bytes layout.word [word] := ⟨stands, trivial⟩
  have within : layout.word + 2 ≤ code.size := holds.le_size (List.cons_ne_nil _ _)
  obtain ⟨longer, first, high, sameFirst⟩ := code.patchWord?_of_inside
    (Prefix.immediate (format.overflow value)).word (show extension + 2 ≤ code.size by omega)
  have longerSize : longer.size = code.size := sameFirst.size
  obtain ⟨patched, second, low, sameSecond⟩ := longer.patchWord?_of_inside
    (format.replaceImmediate word value) (show layout.word + 2 ≤ longer.size by omega)
  refine ⟨patched, ?_, ⟨sameSecond.size.trans sameFirst.size, ?_, low.1, ?_⟩⟩
  · rw [rewriteImmediate_eq leading stands, first]
    dsimp only
    rw [second]
  · exact (high.of_sameOutside sameSecond (.inl apart)).1
  · intro offset beyond beyond'
    exact (sameSecond.outside offset beyond').trans (sameFirst.outside offset beyond)

end Code

/-! ## Replacing an immediate -/

theorem Layout.add_le_word {encoding : Encoding} (extended : encoding.immediate.isSome)
    (offset : Nat) : offset + 2 ≤ (Layout.ofEncoding offset encoding).word := by
  simp only [Layout.ofEncoding, extended, if_true]
  split <;> omega

/-- The instruction word stands last. -/
theorem Holds.instructionWord {bytes : Array UInt8} {offset : Nat} {encoding : Encoding}
    (holds : Holds bytes offset encoding.words) :
    ByteReader.wordAt? bytes (Layout.ofEncoding offset encoding).word = some encoding.word := by
  rcases encoding with ⟨_ | high, _ | fields, word⟩
  · exact holds.1
  · exact holds.2.1
  · exact holds.2.1
  · exact holds.2.2.1

/-- The words of an encoding with the immediate replaced in its two places. -/
def Encoding.patched (encoding : Encoding) (format : Format) (value : UInt16) : Encoding :=
  { encoding with
    immediate := some (Prefix.immediate (format.overflow value)).word
    word := format.replaceImmediate encoding.word value }

theorem Encoding.length_words_patched {encoding : Encoding} (extended : encoding.immediate.isSome)
    (format : Format) (value : UInt16) :
    (encoding.patched format value).words.length = encoding.words.length := by
  obtain ⟨former, emitted⟩ := Option.isSome_iff_exists.mp extended
  rw [words, words, patched, emitted]
  simp only [List.length_append, Option.toList_some, List.length_singleton]

namespace Operands

theorem format_withImmediate (operands : Operands) (value : UInt16) :
    (operands.withImmediate value).format = operands.format := by
  cases operands <;> rfl

theorem registers_withImmediate (operands : Operands) (value : UInt16) :
    (operands.withImmediate value).registers = operands.registers := by
  cases operands <;> rfl

theorem registerWord?_withImmediate (operands : Operands) (value : UInt16) :
    (operands.withImmediate value).registerWord? = operands.registerWord? := by
  cases operands <;> rfl

theorem immediate?_withImmediate {operands : Operands} (waits : operands.immediate?.isSome)
    (value : UInt16) : (operands.withImmediate value).immediate? = some value := by
  cases operands with
  | imm | immReg | immRegReg => rfl
  | regRegReg | regRegRegReg => cases waits

end Operands

namespace Format

theorem placeImmediate_inWord (format : Format) (value : UInt16) :
    format.placeImmediate (format.inWord value) = format.placeImmediate value := by
  rw [placeImmediate, placeImmediate, toNat_inWord, Nat.mod_mod]

end Format

namespace Instruction

/-- Replacing the immediate field of an instruction word gives the word of the instruction with
the other immediate. -/
theorem replaceImmediate_word {instruction : Instruction} (agrees : instruction.WellFormed)
    (waits : instruction.immediate?.isSome) (value : UInt16) :
    instruction.opcode.format.replaceImmediate instruction.word value =
      (instruction.withImmediate value).word := by
  obtain ⟨former, found⟩ := Option.isSome_iff_exists.mp waits
  have field : instruction.operands.immediateBits =
      instruction.operands.format.placeImmediate former := by
    rw [Operands.immediateBits, show instruction.operands.immediate? = some former from found]
  have read : instruction.operands.format.readImmediate instruction.word =
      instruction.operands.format.inWord former := by
    rw [Operands.readImmediate_of_payload (word_mod_payloadSize agrees),
      show instruction.operands.immediate? = some former from found, Option.getD_some]
  have placed : (instruction.operands.withImmediate value).immediateBits =
      instruction.operands.format.placeImmediate value := by
    rw [Operands.immediateBits, Operands.immediate?_withImmediate waits,
      Operands.format_withImmediate]
  have kept : (instruction.operands.withImmediate value).registerBits =
      instruction.operands.registerBits := by
    rw [Operands.registerBits, Operands.registerPayload, Operands.registers_withImmediate,
      Operands.registerBits, Operands.registerPayload]
  rw [← format_of_wellFormed agrees,
    Format.replaceImmediate, read, Format.placeImmediate_inWord, word, field, word, withImmediate,
    placed, kept]
  grind

theorem highImmediate_withImmediate {instruction : Instruction}
    (agrees : instruction.WellFormed) (waits : instruction.immediate?.isSome) (value : UInt16) :
    (instruction.withImmediate value).operands.highImmediate =
      instruction.opcode.format.overflow value := by
  rw [Operands.highImmediate, withImmediate, Operands.immediate?_withImmediate waits,
    Option.getD_some, Operands.format_withImmediate,
    format_of_wellFormed agrees]

end Instruction

/-- **Patched words stand for the instruction with the other immediate.** -/
theorem Encoding.Denotes.patched {encoding : Encoding} {instruction : Instruction}
    (denotes : encoding.Denotes instruction) (waits : instruction.immediate?.isSome)
    (value : UInt16) :
    (encoding.patched instruction.opcode.format value).Denotes
      (instruction.withImmediate value) where
  wellFormed := (Operands.format_withImmediate _ _).trans denotes.wellFormed
  word := by
    rw [Encoding.patched, denotes.word]
    exact Instruction.replaceImmediate_word denotes.wellFormed waits value
  registers := by
    rw [Encoding.patched, denotes.registers]
    exact (Operands.registerWord?_withImmediate _ _).symm
  immediate := by
    rw [Instruction.highImmediate_withImmediate denotes.wellFormed waits]
    exact .inl rfl

/-- The word that extends an immediate by nothing. -/
def emptyExtension : UInt16 := 0xE000

theorem Format.overflow_eq_zero_iff (format : Format) (value : UInt16) :
    format.overflow value = 0 ↔ value.toNat < 2 ^ format.immediateBits := by
  rw [← UInt16.toNat_inj, toNat_overflow, UInt16.toNat_zero,
    Nat.div_eq_zero_iff_lt (Nat.two_pow_pos _)]

/-- **Patched words are the canonical ones if the immediate needs its extension.** Otherwise the
extension is empty and could have been left out. -/
theorem Encoding.Denotes.bytes_patched {encoding : Encoding} {instruction : Instruction}
    (denotes : encoding.Denotes instruction) (waits : instruction.immediate?.isSome)
    (value : UInt16) :
    (encoding.patched instruction.opcode.format value).bytes =
      if value.toNat < 2 ^ instruction.opcode.format.immediateBits then
        wordBytes emptyExtension ++ (instruction.withImmediate value).canonicalEncoding.bytes
      else
        (instruction.withImmediate value).canonicalEncoding.bytes := by
  have patched := denotes.patched waits value
  have high := Instruction.highImmediate_withImmediate denotes.wellFormed waits value
  have emitted : (encoding.patched instruction.opcode.format value).immediate =
      some (Prefix.immediate (instruction.opcode.format.overflow value)).word := rfl
  rw [Encoding.bytes, Encoding.words, emitted, patched.registers, patched.word, Encoding.bytes,
    Encoding.words, Instruction.canonicalEncoding, Operands.immediateWord?_eq, high]
  by_cases fits : value.toNat < 2 ^ instruction.opcode.format.immediateBits
  · have empty := (Format.overflow_eq_zero_iff _ _).mpr fits
    rw [if_pos fits, if_pos empty, empty]
    rfl
  · have needed := mt (Format.overflow_eq_zero_iff _ _).mp fits
    rw [if_neg fits, if_neg needed]

namespace Code

/-- **An emitted instruction with an immediate extension can be patched.** This replaces two of its
words and nothing else. -/
theorem rewriteImmediate_of_holds {code : Code} {start : Nat} {encoding : Encoding}
    (extended : encoding.immediate.isSome) (holds : Holds code.bytes start encoding.words)
    (format : Format) (value : UInt16) :
    let layout := Layout.ofEncoding start encoding
    ∃ patched, rewriteImmediate layout format value code = .ok () patched ∧
      Holds patched.bytes start (encoding.patched format value).words ∧
      Rewritten start layout.word (Prefix.immediate (format.overflow value)).word
        (format.replaceImmediate encoding.word value) code.bytes patched.bytes := by
  rcases encoding with ⟨_ | former, registers, word⟩
  · cases extended
  intro layout
  have place : layout.word = start + 2 + 2 * registers.toList.length := by
    cases registers <;> rfl
  obtain ⟨⟨_, fields⟩, opcode⟩ :
      (Holds code.bytes start [former] ∧ Holds code.bytes (start + 2) registers.toList) ∧
        Holds code.bytes layout.word [word] := by
    have split := holds
    rw [Encoding.words, Holds.append_iff, Holds.append_iff, Option.toList_some, List.length_append,
      List.length_singleton, Nat.mul_add, ← Nat.add_assoc, ← place] at split
    exact split
  have leading : layout.immediate = some start := rfl
  obtain ⟨patched, done, rewritten⟩ :=
    rewriteImmediate_of_apart leading (by omega) opcode.1 format value
  refine ⟨patched, done, ?_, rewritten⟩
  rw [Encoding.patched, Encoding.words, Holds.append_iff, Holds.append_iff, Option.toList_some,
    List.length_append, List.length_singleton, Nat.mul_add, ← Nat.add_assoc, ← place]
  refine ⟨⟨⟨rewritten.high, trivial⟩, fields.congr fun other low high => ?_⟩,
    ⟨rewritten.low, trivial⟩⟩
  exact rewritten.outside other (by omega) (by omega)

theorem patchImmediate_of_holds {code : Code} {start : Nat} {encoding : Encoding}
    (extended : encoding.immediate.isSome) (holds : Holds code.bytes start encoding.words)
    (format : Format) (value : UInt16) :
    let layout := Layout.ofEncoding start encoding
    ∃ patched, code.patchImmediate layout format value = .ok patched ∧
      Holds patched.bytes start (encoding.patched format value).words ∧
      SameOutside start layout.finish code.bytes patched.bytes := by
  obtain ⟨patched, done, stands, rewritten⟩ :=
    rewriteImmediate_of_holds extended holds format value
  have past := Layout.add_le_word extended start
  refine ⟨patched, ?_, stands, rewritten.size, fun offset beyond => ?_⟩
  · rw [patchImmediate, done]
  · rw [Layout.finish] at beyond
    exact rewritten.outside offset (by omega) (by omega)

end Code
end WordMachine
