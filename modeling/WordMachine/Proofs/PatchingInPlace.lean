import WordMachine.Proofs.CanonicalForm

/-!
# Patching in place

Patching writes two words into a buffer, one after the other, and each write can fail. The buffer is
never left with one of them only: if there is room for the second word, and this is looked at first,
then only the first write can fail (`Code.eq_of_rewriteImmediate_error`).

When an instruction was emitted with an extension of its immediate, both words are there, whatever
has been appended to the buffer since. Nothing but these words changes, and of the instruction word
only the immediate field does (`Format.sameBeside_replaceImmediate`), so that the instruction with
the other immediate is fetched. Two byte strings that come of the same by rewriting the same words
are equal (`Rewritten.unique`); hence of two patches only the last counts. The main statement is
`Code.rewriteImmediate_in_place`.
-/

set_option autoImplicit false

namespace WordMachine

/-! ## The immediate field -/

namespace Format

/-- Two instruction words that are the same above the immediate field of a format, where they have
the operation code, and below it, where they have the registers. -/
def SameBeside (format : Format) (first second : UInt16) : Prop :=
  first.toNat / 2 ^ (format.immediateShift + format.immediateBits) =
      second.toNat / 2 ^ (format.immediateShift + format.immediateBits) ∧
    first.toNat % 2 ^ format.immediateShift = second.toNat % 2 ^ format.immediateShift

instance (format : Format) (first second : UInt16) : Decidable (format.SameBeside first second) :=
  inferInstanceAs (Decidable (_ ∧ _))

theorem toNat_replaceImmediate (format : Format) (word value : UInt16) :
    (format.replaceImmediate word value).toNat =
      word.toNat / 2 ^ (format.immediateShift + format.immediateBits) *
          2 ^ (format.immediateShift + format.immediateBits) +
        value.toNat % 2 ^ format.immediateBits * 2 ^ format.immediateShift +
        word.toNat % 2 ^ format.immediateShift := by
  have bound := word.toNat_lt
  rw [replaceImmediate, UInt16.toNat_add, UInt16.toNat_sub, toNat_placeImmediate,
    toNat_placeImmediate, toNat_readImmediate]
  cases format <;> simp only [immediateBits, immediateShift] <;> omega

/-- **Only the immediate field is replaced.** -/
theorem sameBeside_replaceImmediate (format : Format) (word value : UInt16) :
    format.SameBeside word (format.replaceImmediate word value) := by
  rw [SameBeside, toNat_replaceImmediate]
  cases format <;> simp only [immediateBits, immediateShift] <;> omega

/-- An immediate that is replaced again leaves nothing behind. -/
theorem replaceImmediate_replaceImmediate (format : Format) (word value other : UInt16) :
    format.replaceImmediate (format.replaceImmediate word value) other =
      format.replaceImmediate word other := by
  apply UInt16.toNat_inj.mp
  obtain ⟨above, below⟩ := format.sameBeside_replaceImmediate word value
  rw [toNat_replaceImmediate, toNat_replaceImmediate format word other, above, below]

end Format

/-! ## Rewritten bytes -/

namespace Rewritten

variable {extension opcode : Nat} {high low high' low' : UInt16} {before after other : Array UInt8}

/-- Rewriting the same words again leaves nothing of the first time behind. -/
theorem again (first : Rewritten extension opcode high low before after)
    (second : Rewritten extension opcode high' low' after other) :
    Rewritten extension opcode high' low' before other where
  size := second.size.trans first.size
  high := second.high
  low := second.low
  outside offset beyond beyond' :=
    (second.outside offset beyond beyond').trans (first.outside offset beyond beyond')

/-- **The words and the bytes beside them make up all of the result.** -/
theorem unique (first : Rewritten extension opcode high low before after)
    (second : Rewritten extension opcode high low before other) : after = other := by
  apply Array.ext_getElem?
  intro offset
  obtain ⟨high₁, high₂⟩ := ByteReader.wordAt?_eq_some_iff.mp first.high
  obtain ⟨high₁', high₂'⟩ := ByteReader.wordAt?_eq_some_iff.mp second.high
  obtain ⟨low₁, low₂⟩ := ByteReader.wordAt?_eq_some_iff.mp first.low
  obtain ⟨low₁', low₂'⟩ := ByteReader.wordAt?_eq_some_iff.mp second.low
  by_cases atHigh : offset = extension
  · rw [atHigh, high₁, high₁']
  by_cases afterHigh : offset = extension + 1
  · rw [afterHigh, high₂, high₂']
  by_cases atLow : offset = opcode
  · rw [atLow, low₁, low₁']
  by_cases afterLow : offset = opcode + 1
  · rw [afterLow, low₂, low₂']
  rw [first.outside offset (by omega) (by omega), second.outside offset (by omega) (by omega)]

end Rewritten

namespace Code

/-! ## Failures -/

theorem size_of_patchWord? {code patched : Code} {offset : Nat} {word : UInt16}
    (done : code.patchWord? offset word = some patched) : patched.size = code.size := by
  rw [patchWord?] at done
  split at done
  · cases done
    rw [size, size, Array.size_set, Array.size_set]
  · cases done

/-- **A failure leaves the buffer as it was.** -/
theorem eq_of_rewriteImmediate_error {code after : Code} {layout : Layout} {format : Format}
    {value : UInt16} {failure : EncodeError}
    (failed : rewriteImmediate layout format value code = .error failure after) :
    failure = .missingExtension layout.word ∧ after = code := by
  cases leading : layout.immediate with
  | none =>
      rw [rewriteImmediate, run_get_bind, leading] at failed
      cases failed
      exact ⟨rfl, rfl⟩
  | some extension =>
      cases stands : code.wordAt? layout.word with
      | none =>
          rw [rewriteImmediate, run_get_bind, leading, stands] at failed
          cases failed
          exact ⟨rfl, rfl⟩
      | some word =>
          rw [rewriteImmediate_eq leading stands] at failed
          split at failed
          · cases failed
            exact ⟨rfl, rfl⟩
          · rename_i longer first
            -- The second word has been read before, and the length is still the same.
            have holds : Holds code.bytes layout.word [word] := ⟨stands, trivial⟩
            have within : layout.word + 2 ≤ longer.size := by
              rw [size_of_patchWord? first]
              exact holds.le_size (List.cons_ne_nil _ _)
            obtain ⟨patched, second, -, -⟩ :=
              longer.patchWord?_of_inside (format.replaceImmediate word value) within
            rw [second] at failed
            cases failed

/-! ## Emitted instructions -/

theorem encode_eq_ok_iff {code emitted : Code} {instruction : Instruction} {layout : Layout} :
    code.encode instruction = .ok (layout, emitted) ↔
      instruction.WellFormed ∧
        layout = Layout.ofEncoding code.size instruction.canonicalEncoding ∧
        emitted = code.append instruction.canonicalBytes := by
  constructor
  · intro encoded
    cases outcome : instruction.encoding with
    | error failure =>
        rw [encode, outcome] at encoded
        cases encoded
    | ok encoding =>
        obtain ⟨agrees, rfl⟩ := Instruction.encoding_eq_ok_iff.mp outcome
        rw [code.encode_of_wellFormed agrees] at encoded
        cases encoded
        exact ⟨agrees, rfl, rfl⟩
  · rintro ⟨agrees, rfl, rfl⟩
    exact code.encode_of_wellFormed agrees

/-- **The immediate is extended exactly if the instruction word has no room for it.** -/
theorem isSome_immediate_of_encode {code emitted : Code} {instruction : Instruction}
    {layout : Layout} (encoded : code.encode instruction = .ok (layout, emitted)) :
    layout.immediate.isSome ↔
      ∃ value, instruction.immediate? = some value ∧
        2 ^ instruction.opcode.format.immediateBits ≤ value.toNat := by
  obtain ⟨agrees, rfl, -⟩ := encode_eq_ok_iff.mp encoded
  rw [Layout.ofEncoding, Option.isSome_map, Instruction.canonicalEncoding,
    Operands.immediateWord?_eq, ← Instruction.format_of_wellFormed agrees, Instruction.immediate?]
  cases found : instruction.operands.immediate? with
  | none =>
      rw [if_pos (Operands.highImmediate_of_none found)]
      simp
  | some value =>
      have high : instruction.operands.highImmediate =
          instruction.operands.format.overflow value := by
        rw [Operands.highImmediate, found, Option.getD_some]
      by_cases small : value.toNat < 2 ^ instruction.operands.format.immediateBits
      · rw [if_pos (high.trans ((Format.overflow_eq_zero_iff _ _).mpr small))]
        simpa using small
      · have needed : instruction.operands.highImmediate ≠ 0 := by
          rw [high]
          exact mt (Format.overflow_eq_zero_iff _ _).mp small
        rw [if_neg needed]
        simpa using small

/-! ## Patches -/

/-- **Of two patches only the second counts.** -/
theorem rewriteImmediate_again {before patched : Code} {layout : Layout} {extension : Nat}
    {word : UInt16} (leading : layout.immediate = some extension)
    (apart : extension + 2 ≤ layout.word) (stands : before.wordAt? layout.word = some word)
    {format : Format} {value : UInt16}
    (done : rewriteImmediate layout format value before = .ok () patched) (other : UInt16) :
    rewriteImmediate layout format other patched = rewriteImmediate layout format other before := by
  obtain ⟨_, first, rewritten⟩ := rewriteImmediate_of_apart leading apart stands format value
  cases done.symm.trans first
  obtain ⟨twice, second, rewrittenTwice⟩ :=
    rewriteImmediate_of_apart leading apart rewritten.low format other
  obtain ⟨once, only, rewrittenOnce⟩ :=
    rewriteImmediate_of_apart leading apart stands format other
  rw [Format.replaceImmediate_replaceImmediate] at rewrittenTwice
  have same : twice.bytes = once.bytes := (rewritten.again rewrittenTwice).unique rewrittenOnce
  rw [second, only, show twice = once from congrArg Code.mk same]

/-- **A patch rewrites an immediate in place and nothing else, or does nothing.** An instruction is
encoded with an extension of its immediate, which it is exactly if the immediate needs one, and any
bytes are appended. Then a patch succeeds; it leaves the length, all bytes beside two words and all
bits beside a field as they were; the instruction with the other immediate is fetched in place of
the first, with the same end; and another patch has the effect that it would have had without this
one. A patch that fails, of whatever layout, leaves the buffer as it was. -/
theorem rewriteImmediate_in_place :
    (∀ (code emitted : Code) (instruction : Instruction) (layout : Layout),
      code.encode instruction = .ok (layout, emitted) →
        (layout.immediate.isSome ↔ ∃ value, instruction.immediate? = some value ∧
          2 ^ instruction.opcode.format.immediateBits ≤ value.toNat) ∧
        ∀ extension, layout.immediate = some extension → ∀ (appended : List UInt8) (value : UInt16),
          let format := instruction.opcode.format
          let before := emitted.append appended
          ∃ patched former current,
            rewriteImmediate layout format value before = .ok () patched ∧
            patched.size = before.size ∧
            (∀ offset, offset < extension ∨ extension + 2 ≤ offset →
              offset < layout.word ∨ layout.word + 2 ≤ offset →
                patched.bytes[offset]? = before.bytes[offset]?) ∧
            before.wordAt? layout.word = some former ∧ patched.wordAt? layout.word = some current ∧
            format.SameBeside former current ∧
            fetch ByteReader.next ⟨before.bytes, layout.start⟩ =
              .ok (.instruction instruction) ⟨before.bytes, layout.finish⟩ ∧
            fetch ByteReader.next ⟨patched.bytes, layout.start⟩ =
              .ok (.instruction (instruction.withImmediate value)) ⟨patched.bytes, layout.finish⟩ ∧
            ∀ other, rewriteImmediate layout format other patched =
              rewriteImmediate layout format other before) ∧
    ∀ (code : Code) (layout : Layout) (format : Format) (value : UInt16) (failure : EncodeError)
      (after : Code),
      rewriteImmediate layout format value code = .error failure after →
        failure = .missingExtension layout.word ∧ after = code := by
  refine ⟨?_, fun code layout format value failure after => eq_of_rewriteImmediate_error⟩
  intro code emitted instruction layout encoded
  have needed := isSome_immediate_of_encode encoded
  refine ⟨needed, fun extension leading appended value => ?_⟩
  intro format before
  obtain ⟨former, waits, -⟩ := needed.mp (Option.isSome_of_eq_some leading)
  have takes : instruction.immediate?.isSome := Option.isSome_of_eq_some waits
  obtain ⟨agrees, placed, rfl⟩ := encode_eq_ok_iff.mp encoded
  have denotes := Instruction.canonicalEncoding_denotes agrees
  have stands : Holds before.bytes code.size instruction.canonicalEncoding.words :=
    (code.holds_append _).append (Encoding.words_ne_nil _) appended
  obtain ⟨word, emitted, rfl⟩ : ∃ word, instruction.canonicalEncoding.immediate = some word ∧
      code.size = extension := by
    rw [placed, Layout.ofEncoding] at leading
    exact Option.map_eq_some_iff.mp leading
  have extended := Option.isSome_of_eq_some emitted
  have size : (instruction.canonicalEncoding.patched format value).bytes.length =
      instruction.canonicalEncoding.bytes.length := by
    rw [Encoding.length_bytes, Encoding.length_bytes, Encoding.length_words_patched extended]
  have fetched := fetch_of_holds denotes stands
  obtain ⟨patched, done, held, rewritten⟩ := rewriteImmediate_of_holds extended stands format value
  have resolved := fetch_of_holds (denotes.patched takes value) held
  rw [size] at resolved
  rw [← Layout.finish_ofEncoding, ← placed] at fetched resolved
  rw [← placed] at done rewritten
  have starts : layout.start = code.size := by rw [placed, Layout.start_ofEncoding]
  have original : before.wordAt? layout.word = some instruction.canonicalEncoding.word := by
    rw [placed]
    exact stands.instructionWord
  have apart : code.size + 2 ≤ layout.word := by
    rw [placed]
    exact Layout.add_le_word extended code.size
  rw [starts]
  exact ⟨patched, _, _, done, rewritten.size, rewritten.outside, original, rewritten.low,
    format.sameBeside_replaceImmediate _ value, fetched, resolved,
    rewriteImmediate_again leading apart original done⟩

/-- A jump with both extensions. -/
def extendedJump : Instruction :=
  ⟨.jabs .zero, .immRegReg 0x1234 ⟨9, .dword⟩ ⟨1, .word⟩⟩

/-- The jump with a byte in front of it. -/
def extendedJumpCode : Code := ⟨#[0xAA, 0xE2, 0x46, 0x80, 0x38, 0x17, 0x09]⟩

theorem rewriteImmediate_in_place_extendedJump :
    let layout : Layout := ⟨some 1, some 3, 5⟩
    let before := extendedJumpCode.append [0xFF]
    let patched : Code := ⟨#[0xAA, 0xE0, 0x00, 0x80, 0x38, 0x17, 0x49, 0xFF]⟩
    Code.encode ⟨#[0xAA]⟩ extendedJump = .ok (layout, extendedJumpCode) ∧
      rewriteImmediate layout .immRegReg 5 before = .ok () patched ∧
      fetch ByteReader.next ⟨patched.bytes, 1⟩ =
        .ok (.instruction (extendedJump.withImmediate 5)) ⟨patched.bytes, 7⟩ ∧
      rewriteImmediate layout .immRegReg 0x1234 patched = .ok () before ∧
      rewriteImmediate ⟨some 7, none, 5⟩ .immRegReg 5 before =
        .error (.missingExtension 5) before := by
  intro layout before patched
  have encoded : Code.encode ⟨#[0xAA]⟩ extendedJump = .ok (layout, extendedJumpCode) := rfl
  have done : rewriteImmediate ⟨some 1, some 3, 5⟩ .immRegReg 5 (extendedJumpCode.append [0xFF]) =
      .ok () ⟨#[0xAA, 0xE0, 0x00, 0x80, 0x38, 0x17, 0x49, 0xFF]⟩ := rfl
  have same : rewriteImmediate ⟨some 1, some 3, 5⟩ .immRegReg 0x1234
      (extendedJumpCode.append [0xFF]) = .ok () (extendedJumpCode.append [0xFF]) := rfl
  obtain ⟨emitted, failing⟩ := rewriteImmediate_in_place
  obtain ⟨-, extended⟩ := emitted _ _ _ _ encoded
  obtain ⟨_, _, _, again, -, -, -, -, -, -, resolved, alone⟩ := extended 1 rfl [0xFF] 5
  cases done.symm.trans again
  have refused : failure? (rewriteImmediate ⟨some 7, none, 5⟩ .immRegReg 5 before) =
      some (.missingExtension 5) := rfl
  obtain ⟨after, failed⟩ := exists_of_failure? refused
  obtain ⟨-, rfl⟩ := failing _ _ _ _ _ _ failed
  exact ⟨encoded, done, resolved, (alone 0x1234).trans same, failed⟩

end Code
end WordMachine
