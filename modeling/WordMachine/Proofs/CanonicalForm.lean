import WordMachine.Proofs.InstructionStream
import WordMachine.Proofs.Patching
import WordMachine.Proofs.WordReading

/-!
# The canonical form

Fetching accepts more than encoding produces: prefixes in either order, prefixes that say nothing,
prefixes that say what the format has no use for, immediates that are too long. The words that are
read for one instruction are at most two prefixes and an instruction word (`Spells.shape`).

Encoding what was fetched gives no more words than were read, and the very same words exactly if
these keep to the rules of the canonical form (`Instruction.Canonical`). One direction says that
whatever is encoded keeps to the rules (`Instruction.canonical_canonicalEncoding`), the other that
the rules leave no choice (`Pending.words_of_canonical`). The main statement is `bytes_of_fetched`.
-/

set_option autoImplicit false

namespace WordMachine

namespace RegisterExtension

theorem ext_field {fields others : RegisterExtension}
    (same : ∀ slot, fields.field slot = others.field slot) : fields = others := by
  rcases fields with ⟨d, c, b, a⟩
  rcases others with ⟨d', c', b', a'⟩
  obtain rfl : d = d' := same .d
  obtain rfl : c = c' := same .c
  obtain rfl : b = b' := same .b
  obtain rfl : a = a' := same .a
  rfl

theorem field_zero (slot : Slot) : field ⟨0, 0, 0, 0⟩ slot = 0 := by
  cases slot <;> rfl

theorem exists_field_ne_zero {fields : RegisterExtension} (needed : fields ≠ ⟨0, 0, 0, 0⟩) :
    ∃ slot, fields.field slot ≠ 0 := by
  apply Classical.byContradiction
  intro plain
  apply needed
  apply ext_field
  intro slot
  rw [field_zero]
  exact Classical.not_not.mp (not_exists.mp plain slot)

end RegisterExtension

namespace Operands

theorem field_extension_eq (operands : Operands) (slot : Slot) :
    operands.extension.field slot = operands.extensionField slot := by
  cases slot <;> rfl

/-- Registers are extended if some field of the extension is needed. -/
theorem registerWord?_eq (operands : Operands) :
    operands.registerWord? =
      if operands.extension = ⟨0, 0, 0, 0⟩ then none
      else some (Prefix.registers operands.extension).word := by
  rw [registerWord?]
  by_cases needed : (operands.registers.any fun entry => entry.2.needsExtension) = true
  · obtain ⟨entry, stands, needs⟩ := List.any_eq_true.mp needed
    have nonzero : entry.2.extension ≠ 0 := by simpa [Register.needsExtension] using needs
    rw [if_pos needed, if_neg]
    intro zero
    apply nonzero
    rw [← field_extension stands, zero, RegisterExtension.field_zero]
  · rw [if_neg needed, if_pos]
    have absent : operands.registerWord? = none := if_neg needed
    have plain := extension_eq_zero absent
    apply RegisterExtension.ext_field
    intro slot
    rw [field_extension_eq, extensionField, RegisterExtension.field_zero]
    cases found : operands.registers.lookup slot with
    | none => rfl
    | some register =>
        obtain ⟨before, after, whole, _⟩ := List.lookup_eq_some_iff.mp found
        have stands : (slot, register) ∈ operands.registers := by simp [whole]
        exact plain _ stands

end Operands

/-! ## Words of a fetched instruction -/

/-- Words that spell an instruction after some prefixes: more prefixes, each of which is accepted,
and an instruction word. -/
inductive Spells : Pending → List UInt16 → Instruction → Prop where
  | word {pending : Pending} {word : UInt16} {raw : Instruction}
      (decoded : Decoded.ofWord word = .instruction raw) :
      Spells pending [word] (pending.apply raw)
  | extension {pending extended : Pending} {word : UInt16} {found : Prefix}
      {rest : List UInt16} {instruction : Instruction}
      (decoded : Decoded.ofWord word = .extension found)
      (accepted : pending.accept found = some extended) (more : Spells extended rest instruction) :
      Spells pending (word :: rest) instruction

/-- **What is fetched was spelled by the words that were read.** -/
theorem spells_of_fetchWith {ε σ : Type} {next : WordSource ε σ} {pending : Pending}
    {start finish : σ} {instruction : Instruction}
    (fetched : fetchWith next pending start = .ok (.instruction instruction) finish) :
    ∃ words, Yields next start words finish ∧ Spells pending words instruction := by
  fun_induction fetchWith next pending start with
  | case1 => cases fetched
  | case2 pending start raw rest read =>
      cases fetched
      obtain ⟨word, step, decoded⟩ := decodeNext_eq_ok read
      exact ⟨[word], .cons step (.nil _), .word decoded⟩
  | case3 => cases fetched
  | case4 pending start found rest read extended accepted ih =>
      obtain ⟨word, step, decoded⟩ := decodeNext_eq_ok read
      obtain ⟨words, yields, spells⟩ := ih fetched
      exact ⟨word :: words, .cons step yields, .extension decoded accepted spells⟩
  | case5 => cases fetched

/-- What is spelled has the operands that its operation asks for. -/
theorem Spells.wellFormed {pending : Pending} {words : List UInt16} {instruction : Instruction}
    (spells : Spells pending words instruction) : instruction.WellFormed := by
  induction spells with
  | word decoded => exact Pending.wellFormed_apply _ (Decoded.wellFormed_of_ofWord decoded)
  | extension _ _ _ ih => exact ih

namespace Pending

/-- The word of the pending immediate prefix. -/
def immediateWord? (pending : Pending) : Option UInt16 :=
  pending.immediate.map fun high => (Prefix.immediate high).word

/-- The word of the pending register prefix. -/
def registerWord? (pending : Pending) : Option UInt16 :=
  pending.registers.map fun fields => (Prefix.registers fields).word

/-- The word of each pending prefix is read as that prefix. -/
structure Readable (pending : Pending) : Prop where
  immediate : ∀ high, pending.immediate = some high →
    Decoded.ofWord (Prefix.immediate high).word = .extension (.immediate high)

theorem readable_neutral : neutral.Readable where
  immediate _ found := nomatch found

theorem Readable.accept {pending extended : Pending} (readable : pending.Readable) {word : UInt16}
    {found : Prefix} (decoded : Decoded.ofWord word = .extension found)
    (accepted : pending.accept found = some extended) : extended.Readable := by
  have own := Decoded.word_of_ofWord_extension decoded
  rcases pending with ⟨registers, immediate⟩
  cases found with
  | registers fields =>
      cases registers <;> cases accepted
      exact ⟨readable.immediate⟩
  | immediate high =>
      cases immediate <;> cases accepted
      refine ⟨fun other same => ?_⟩
      cases same
      rw [own]
      exact decoded

end Pending

/-- **There are at most two prefixes, in either order.** -/
theorem Spells.shape {words : List UInt16} {instruction : Instruction}
    (spells : Spells .neutral words instruction) :
    ∃ pending : Pending, ∃ word raw,
      pending.Readable ∧ Decoded.ofWord word = .instruction raw ∧
        instruction = pending.apply raw ∧
        (words = pending.immediateWord?.toList ++ pending.registerWord?.toList ++ [word] ∨
          words = pending.registerWord?.toList ++ pending.immediateWord?.toList ++ [word]) := by
  have bare := Pending.readable_neutral
  cases spells with
  | word decoded => exact ⟨_, _, _, bare, decoded, rfl, .inl rfl⟩
  | @extension _ extended _ found _ _ first accepted more =>
      have readable := bare.accept first accepted
      have own := Decoded.word_of_ofWord_extension first
      subst own
      cases more with
      | word decoded =>
          refine ⟨_, _, _, readable, decoded, rfl, .inl ?_⟩
          cases found <;> cases accepted <;> rfl
      | @extension _ final _ other _ _ second accepted' more =>
          have readable := readable.accept second accepted'
          have own := Decoded.word_of_ofWord_extension second
          subst own
          cases more with
          | word decoded =>
              refine ⟨_, _, _, readable, decoded, rfl, ?_⟩
              cases found <;> cases accepted <;> cases other <;> cases accepted'
              · exact .inr rfl
              · exact .inl rfl
          | @extension _ _ _ another _ _ third refused _ =>
              -- There is no room left for a third prefix.
              have room := Pending.room_accept accepted
              have room' := Pending.room_accept accepted'
              have room'' := Pending.room_accept refused
              have two : Pending.neutral.room = 2 := rfl
              omega

/-! ## The canonical form -/

/-- The rules that the words of a canonical form keep to: the immediate extension comes first, a
prefix says something, and it says nothing that the format has no use for. -/
structure Instruction.Canonical (instruction : Instruction) (words : List UInt16) : Prop where
  ordered : words.Pairwise fun earlier later => ∀ fields high,
    ¬ (Decoded.ofWord earlier = .extension (.registers fields) ∧
      Decoded.ofWord later = .extension (.immediate high))
  immediate : ∀ word ∈ words, ∀ high, Decoded.ofWord word = .extension (.immediate high) →
    instruction.opcode.format.hasImmediate = true ∧ high ≠ 0 ∧
      high.toNat < 2 ^ (16 - instruction.opcode.format.immediateBits)
  registers : ∀ word ∈ words, ∀ fields, Decoded.ofWord word = .extension (.registers fields) →
    (∃ slot, fields.field slot ≠ 0) ∧
      ∀ slot, instruction.opcode.format.hasSlot slot = false → fields.field slot = 0


namespace Operands

theorem highImmediate_of_none {operands : Operands} (absent : operands.immediate? = none) :
    operands.highImmediate = 0 := by
  apply UInt16.toNat_inj.mp
  rw [highImmediate, absent, Option.getD_none, Format.toNat_overflow]
  exact Nat.zero_div _

theorem hasImmediate_of_highImmediate {operands : Operands} (needed : operands.highImmediate ≠ 0) :
    operands.format.hasImmediate = true := by
  rw [hasImmediate_format, Option.isSome_iff_ne_none]
  exact fun absent => needed (highImmediate_of_none absent)

theorem highImmediate_lt_room (operands : Operands) :
    operands.highImmediate.toNat < 2 ^ (16 - operands.format.immediateBits) := by
  have bound := (operands.immediate?.getD 0).toNat_lt
  rw [highImmediate, Format.toNat_overflow]
  cases operands.format <;> simp only [Format.immediateBits] <;> omega

theorem field_eq_zero_of_hasSlot {operands : Operands} {slot : Slot}
    (absent : operands.format.hasSlot slot = false) : operands.extension.field slot = 0 := by
  cases operands <;> cases slot <;> first | rfl | cases absent

theorem ofWord_immediateWord? {operands : Operands} {word : UInt16}
    (emitted : word ∈ operands.immediateWord?) :
    operands.highImmediate ≠ 0 ∧
      Decoded.ofWord word = .extension (.immediate operands.highImmediate) := by
  rw [immediateWord?_eq] at emitted
  split at emitted
  · cases emitted
  · rename_i needed
    cases emitted
    exact ⟨needed, Prefix.ofWord_immediate operands.highImmediate_lt⟩

theorem ofWord_registerWord? {operands : Operands} {word : UInt16}
    (emitted : word ∈ operands.registerWord?) :
    operands.extension ≠ ⟨0, 0, 0, 0⟩ ∧
      Decoded.ofWord word = .extension (.registers operands.extension) := by
  rw [registerWord?_eq] at emitted
  split at emitted
  · cases emitted
  · rename_i needed
    cases emitted
    exact ⟨needed, Prefix.ofWord_registers _⟩

end Operands

namespace Instruction

variable {instruction : Instruction}

theorem mem_words_canonicalEncoding {word : UInt16} :
    word ∈ instruction.canonicalEncoding.words ↔
      word ∈ instruction.operands.immediateWord? ∨ word ∈ instruction.operands.registerWord? ∨
        word = instruction.word := by
  simp only [Encoding.words, canonicalEncoding, List.mem_append, Option.mem_toList,
    List.mem_singleton, or_assoc, Option.mem_def]

/-- **What is encoded has canonical form.** -/
theorem canonical_canonicalEncoding (agrees : instruction.WellFormed) :
    instruction.Canonical instruction.canonicalEncoding.words := by
  have last := ofWord_word agrees
  have same := format_of_wellFormed agrees
  refine ⟨?_, ?_, ?_⟩
  · rw [Encoding.words, List.pairwise_append, List.pairwise_append]
    refine ⟨⟨?_, ?_, ?_⟩, List.pairwise_singleton _ _, ?_⟩
    · cases instruction.canonicalEncoding.immediate <;> simp
    · cases instruction.canonicalEncoding.registers <;> simp
    · rintro earlier stands later - fields high ⟨first, -⟩
      rw [(Operands.ofWord_immediateWord? (Option.mem_toList.mp stands)).2] at first
      cases first
    · rintro earlier - later stands fields high ⟨-, second⟩
      rw [List.mem_singleton.mp stands, canonicalEncoding, last] at second
      cases second
  · intro word stands high decoded
    rcases mem_words_canonicalEncoding.mp stands with emitted | emitted | rfl
    · obtain ⟨needed, read⟩ := Operands.ofWord_immediateWord? emitted
      rw [decoded] at read
      cases read
      rw [← same]
      exact ⟨Operands.hasImmediate_of_highImmediate needed, needed,
        instruction.operands.highImmediate_lt_room⟩
    · rw [(Operands.ofWord_registerWord? emitted).2] at decoded
      cases decoded
    · rw [last] at decoded
      cases decoded
  · intro word stands fields decoded
    rcases mem_words_canonicalEncoding.mp stands with emitted | emitted | rfl
    · rw [(Operands.ofWord_immediateWord? emitted).2] at decoded
      cases decoded
    · obtain ⟨needed, read⟩ := Operands.ofWord_registerWord? emitted
      rw [decoded] at read
      cases read
      rw [← same]
      exact ⟨RegisterExtension.exists_field_ne_zero needed,
        fun slot absent => Operands.field_eq_zero_of_hasSlot absent⟩
    · rw [last] at decoded
      cases decoded

end Instruction

/-! ## Fetching and encoding again -/

namespace Pending

variable {pending : Pending} {raw : Instruction}

/-- An immediate is extended again only if it was. -/
theorem immediateWord?_of_neutral (bare : raw.operands.truncated = raw.operands)
    (absent : pending.immediate = none) : (pending.apply raw).operands.immediateWord? = none := by
  have high : (pending.apply raw).operands.highImmediate.toNat = _ :=
    toNat_highImmediate_apply bare
  rw [Pending.high, absent, Option.getD_none, UInt16.toNat_zero, Nat.zero_mod, ite_self] at high
  rw [Operands.immediateWord?_eq, if_pos]
  exact UInt16.toNat_inj.mp high

theorem registerWord?_of_neutral (bare : raw.operands.truncated = raw.operands)
    (absent : pending.registers = none) : (pending.apply raw).operands.registerWord? = none := by
  rw [Operands.registerWord?_eq, if_pos]
  apply RegisterExtension.ext_field
  intro slot
  rw [Operands.field_extension_eq, extensionField_apply bare, extension, absent, Option.getD_none,
    RegisterExtension.field_zero]
  exact ite_self _

/-- The encoding has no prefix that was not there. -/
theorem length_words_le (pending : Pending) (bare : raw.operands.truncated = raw.operands) :
    (pending.apply raw).canonicalEncoding.words.length ≤
      pending.immediateWord?.toList.length + pending.registerWord?.toList.length + 1 := by
  have immediates : (pending.apply raw).operands.immediateWord?.toList.length ≤
      pending.immediateWord?.toList.length := by
    cases found : pending.immediate with
    | none => rw [immediateWord?_of_neutral bare found]; exact Nat.zero_le _
    | some high =>
        rw [immediateWord?, found]
        cases (pending.apply raw).operands.immediateWord? <;> simp
  have registers : (pending.apply raw).operands.registerWord?.toList.length ≤
      pending.registerWord?.toList.length := by
    cases found : pending.registers with
    | none => rw [registerWord?_of_neutral bare found]; exact Nat.zero_le _
    | some fields =>
        rw [registerWord?, found]
        cases (pending.apply raw).operands.registerWord? <;> simp
  simp only [Encoding.words, Instruction.canonicalEncoding, List.length_append,
    List.length_singleton]
  omega

/-- An immediate extension that is needed is encoded again. -/
theorem immediateWord?_of_needed (bare : raw.operands.truncated = raw.operands) {bits : UInt16}
    (found : pending.immediate = some bits) (takes : raw.operands.format.hasImmediate = true)
    (needed : bits ≠ 0) (fits : bits.toNat < 2 ^ (16 - raw.operands.format.immediateBits)) :
    (pending.apply raw).operands.immediateWord? = some (Prefix.immediate bits).word := by
  have same : (pending.apply raw).operands.highImmediate = bits := by
    apply UInt16.toNat_inj.mp
    rw [toNat_highImmediate_apply bare, if_pos takes, high, found, Option.getD_some,
      Nat.mod_eq_of_lt fits]
  rw [Operands.immediateWord?_eq, same, if_neg needed]

/-- A register extension of which every bit is needed is encoded again. -/
theorem registerWord?_of_needed (bare : raw.operands.truncated = raw.operands)
    {fields : RegisterExtension} (found : pending.registers = some fields)
    (needed : ∃ slot, fields.field slot ≠ 0)
    (unused : ∀ slot, raw.operands.format.hasSlot slot = false → fields.field slot = 0) :
    (pending.apply raw).operands.registerWord? = some (Prefix.registers fields).word := by
  have same : (pending.apply raw).operands.extension = fields := by
    apply RegisterExtension.ext_field
    intro slot
    rw [Operands.field_extension_eq, extensionField_apply bare, extension, found,
      Option.getD_some]
    cases taken : raw.operands.format.hasSlot slot with
    | true => exact if_pos rfl
    | false => exact (unused slot taken).symm
  obtain ⟨slot, nonzero⟩ := needed
  rw [Operands.registerWord?_eq, same, if_neg]
  rintro rfl
  exact nonzero (RegisterExtension.field_zero slot)

/-- In canonical form two prefixes come in one order. -/
theorem order_of_canonical {instruction : Instruction} {word : UInt16}
    (readable : pending.Readable)
    (canonical : instruction.Canonical
      (pending.registerWord?.toList ++ pending.immediateWord?.toList ++ [word])) :
    pending.registerWord?.toList ++ pending.immediateWord?.toList =
      pending.immediateWord?.toList ++ pending.registerWord?.toList := by
  rcases pending with ⟨_ | fields, _ | bits⟩
  case some.some =>
    have ordered := canonical.ordered
    simp only [registerWord?, immediateWord?, Option.map_some, Option.toList_some,
      List.cons_append, List.nil_append, List.pairwise_cons] at ordered
    have clash := ordered.1 _ List.mem_cons_self fields bits
    exact absurd ⟨Prefix.ofWord_registers fields, readable.immediate bits rfl⟩ clash
  all_goals rfl

/-- **Words in canonical form are what encoding gives.** -/
theorem words_of_canonical {word : UInt16} {words : List UInt16} (readable : pending.Readable)
    (decoded : Decoded.ofWord word = .instruction raw)
    (order : words = pending.immediateWord?.toList ++ pending.registerWord?.toList ++ [word] ∨
      words = pending.registerWord?.toList ++ pending.immediateWord?.toList ++ [word])
    (canonical : (pending.apply raw).Canonical words) :
    words = (pending.apply raw).canonicalEncoding.words := by
  have bare := Decoded.truncated_of_ofWord decoded
  have agrees : raw.operands.format = raw.opcode.format := Decoded.wellFormed_of_ofWord decoded
  have sorted :
      words = pending.immediateWord?.toList ++ pending.registerWord?.toList ++ [word] := by
    rcases order with rfl | rfl
    · rfl
    · rw [order_of_canonical readable canonical]
  have immediates : (pending.apply raw).operands.immediateWord? = pending.immediateWord? := by
    cases found : pending.immediate with
    | none => rw [immediateWord?_of_neutral bare found, immediateWord?, found, Option.map_none]
    | some bits =>
        have emitted : pending.immediateWord? = some (Prefix.immediate bits).word := by
          rw [immediateWord?, found, Option.map_some]
        have stands : (Prefix.immediate bits).word ∈ words := by simp [sorted, emitted]
        obtain ⟨takes, needed, fits⟩ :=
          canonical.immediate _ stands bits (readable.immediate bits found)
        rw [opcode_apply, ← agrees] at takes fits
        rw [emitted, immediateWord?_of_needed bare found takes needed fits]
  have registers : (pending.apply raw).operands.registerWord? = pending.registerWord? := by
    cases found : pending.registers with
    | none => rw [registerWord?_of_neutral bare found, registerWord?, found, Option.map_none]
    | some fields =>
        have emitted : pending.registerWord? = some (Prefix.registers fields).word := by
          rw [registerWord?, found, Option.map_some]
        have stands : (Prefix.registers fields).word ∈ words := by simp [sorted, emitted]
        obtain ⟨needed, unused⟩ :=
          canonical.registers _ stands fields (Prefix.ofWord_registers fields)
        rw [opcode_apply, ← agrees] at unused
        rw [emitted, registerWord?_of_needed bare found needed unused]
  rw [sorted, Encoding.words, Instruction.canonicalEncoding, immediates, registers,
    word_apply bare, Decoded.word_of_ofWord decoded]

end Pending

theorem wordBytes_injective {first second : UInt16} (same : wordBytes first = wordBytes second) :
    first = second := by
  rw [← ofNat_value_wordBytes first, same, ofNat_value_wordBytes]

theorem flatMap_wordBytes_injective {first second : List UInt16}
    (same : first.flatMap wordBytes = second.flatMap wordBytes) : first = second := by
  induction first generalizing second with
  | nil =>
      have lengths := congrArg List.length same
      rw [length_flatMap_wordBytes, length_flatMap_wordBytes, List.length_nil] at lengths
      exact (List.length_eq_zero_iff.mp (by omega)).symm
  | cons word rest ih =>
      cases second with
      | nil =>
          have lengths := congrArg List.length same
          rw [length_flatMap_wordBytes, length_flatMap_wordBytes, List.length_cons,
            List.length_nil] at lengths
          omega
      | cons other more =>
          have sizes : (wordBytes word).length = (wordBytes other).length := by
            rw [wordBytes, wordBytes, BigEndian.length_encode, BigEndian.length_encode]
          obtain ⟨front, back⟩ := List.append_inj same sizes
          rw [wordBytes_injective front, ih back]

/-- Words that a byte string yields stand in it. -/
theorem Yields.holds {reader after : ByteReader} {words : List UInt16}
    (yields : Yields ByteReader.next reader words after) :
    Holds reader.bytes reader.position words ∧
      after = ⟨reader.bytes, reader.position + 2 * words.length⟩ := by
  induction yields with
  | nil state => exact ⟨trivial, rfl⟩
  | cons read more ih =>
      rw [ByteReader.next] at read
      split at read
      · rename_i found
        cases read
        obtain ⟨holds, rfl⟩ := ih
        refine ⟨⟨found, holds⟩, ?_⟩
        rw [List.length_cons, Nat.mul_add, Nat.mul_one, Nat.add_assoc, Nat.add_comm 2]
      · cases read

/-- **Encoding gives the canonical, shortest form of whatever is fetched.** The words that were read
for an instruction need not be the ones that encoding it gives, but these are no more, they are
fetched as the same instruction, and they are the same words exactly if the rules of the canonical
form hold. -/
theorem bytes_of_fetched (bytes : Array UInt8) (position : Nat) (instruction : Instruction)
    (after : ByteReader)
    (fetched : fetch ByteReader.next ⟨bytes, position⟩ = .ok (.instruction instruction) after) :
    ∃ words encoded,
      Holds bytes position words ∧ after = ⟨bytes, position + 2 * words.length⟩ ∧
      instruction.bytes = .ok encoded ∧ encoded.length ≤ after.position - position ∧
      fetch ByteReader.next ⟨encoded.toArray, 0⟩ =
        .ok (.instruction instruction) ⟨encoded.toArray, encoded.length⟩ ∧
      (encoded = (bytes.extract position after.position).toList ↔ instruction.Canonical words) := by
  obtain ⟨words, yields, spells⟩ := spells_of_fetchWith fetched
  obtain ⟨holds, rfl⟩ := yields.holds
  simp only at holds
  obtain ⟨pending, word, raw, readable, decoded, rfl, order⟩ := spells.shape
  have bare := Decoded.truncated_of_ofWord decoded
  have agrees := pending.wellFormed_apply (Decoded.wellFormed_of_ofWord decoded)
  have count : words.length =
      pending.immediateWord?.toList.length + pending.registerWord?.toList.length + 1 := by
    rcases order with rfl | rfl
    · simp only [List.length_append, List.length_singleton]
    · simp only [List.length_append, List.length_singleton]
      omega
  have shorter := pending.length_words_le bare
  have read := holds.toList_extract rfl
  refine ⟨words, _, holds, rfl, Instruction.bytes_of_wellFormed agrees, ?_, ?_, ?_⟩
  · rw [Instruction.canonicalBytes, Encoding.length_bytes]
    simp only
    omega
  · have stands : Holds (Instruction.canonicalBytes (pending.apply raw)).toArray 0
        (pending.apply raw).canonicalEncoding.words :=
      Holds.iff_prefix.mpr ⟨[], List.append_nil _⟩
    have again := fetch_of_holds (Instruction.canonicalEncoding_denotes agrees) stands
    rwa [Nat.zero_add] at again
  · rw [read]
    constructor
    · intro same
      rw [← flatMap_wordBytes_injective same]
      exact Instruction.canonical_canonicalEncoding agrees
    · intro canonical
      rw [Pending.words_of_canonical readable decoded order canonical]
      rfl

/-- A move into the ninth register, with the two prefixes in the wrong order. -/
def reorderedMove : Array UInt8 := #[0x80, 0x01, 0xE0, 0x01, 0x00, 0x09]

theorem bytes_of_fetched_reorderedMove :
    let move : Instruction := ⟨.movI, .immReg 0x41 ⟨9, .word⟩⟩
    fetch ByteReader.next ⟨reorderedMove, 0⟩ = .ok (.instruction move) ⟨reorderedMove, 6⟩ ∧
      ∃ words encoded,
        Holds reorderedMove 0 words ∧ ByteReader.mk reorderedMove 6 =
          ⟨reorderedMove, 0 + 2 * words.length⟩ ∧
        move.bytes = .ok encoded ∧ encoded.length ≤ 6 - 0 ∧
        fetch ByteReader.next ⟨encoded.toArray, 0⟩ =
          .ok (.instruction move) ⟨encoded.toArray, encoded.length⟩ ∧
        (encoded = (reorderedMove.extract 0 6).toList ↔ move.Canonical words) := by
  intro move
  have fetched : fetch ByteReader.next ⟨reorderedMove, 0⟩ =
      .ok (.instruction move) ⟨reorderedMove, 6⟩ := by cbv
  exact ⟨fetched, bytes_of_fetched reorderedMove 0 move ⟨reorderedMove, 6⟩ fetched⟩

end WordMachine
