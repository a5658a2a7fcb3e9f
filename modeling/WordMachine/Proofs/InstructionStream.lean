import WordMachine.Proofs.Actions
import WordMachine.Proofs.Fetching

/-!
# Streams of instructions

Instructions encoded one after the other into a code buffer take up adjacent stretches of it, which
their layouts describe (`Layout.Tile`). Nothing between them tells where one ends and the next
begins, and yet fetching finds the same boundaries again: an instruction ends with its first word
that is no prefix.

The main statement is `fetchMany_encodeAll`: for any buffer to start with and any bytes appended
later, fetching as often as was encoded gives the instructions back, and each fetch stops where
the layout says.
-/

set_option autoImplicit false

namespace WordMachine

/-! ## Encoding and fetching in a row -/

/-- The code with instructions appended one after the other, and where each one's words went. -/
def Code.encodeAll (code : Code) : List Instruction → Except EncodeError (List Layout × Code)
  | [] => .ok ([], code)
  | instruction :: rest => do
      let (layout, longer) ← code.encode instruction
      let (layouts, final) ← longer.encodeAll rest
      return (layout :: layouts, final)

/-- Fetches a number of times, and tells after each fetch what it gave and where the source
stood. -/
def fetchMany {ε σ : Type} (next : WordSource ε σ) : Nat → EStateM ε σ (List (Fetched × σ))
  | 0 => return []
  | count + 1 => do
      let fetched ← fetch next
      let here ← get
      return (fetched, here) :: (← fetchMany next count)

/-- Layouts that follow each other without a gap from one offset to another. -/
inductive Layout.Tile : Nat → List Layout → Nat → Prop where
  | nil (offset : Nat) : Tile offset [] offset
  | cons {layout : Layout} {layouts : List Layout} {finish : Nat}
      (later : Tile layout.finish layouts finish) : Tile layout.start (layout :: layouts) finish

/-! ## Canonical layouts -/

namespace Instruction

/-- The bytes of the canonical encoding. -/
def canonicalBytes (instruction : Instruction) : List UInt8 :=
  instruction.canonicalEncoding.bytes

theorem bytes_of_wellFormed {instruction : Instruction} (agrees : instruction.WellFormed) :
    instruction.bytes = .ok instruction.canonicalBytes := by
  rw [bytes, encoding_of_wellFormed agrees]
  rfl

/-- Where the words of instructions go that are encoded from an offset on. -/
def layoutsFrom (offset : Nat) : List Instruction → List Layout
  | [] => []
  | instruction :: rest =>
      Layout.ofEncoding offset instruction.canonicalEncoding ::
        layoutsFrom (offset + instruction.canonicalBytes.length) rest

theorem length_layoutsFrom (offset : Nat) (instructions : List Instruction) :
    (layoutsFrom offset instructions).length = instructions.length := by
  induction instructions generalizing offset with
  | nil => rfl
  | cons instruction rest ih => rw [layoutsFrom, List.length_cons, List.length_cons, ih]

theorem finish_layout (offset : Nat) (instruction : Instruction) :
    (Layout.ofEncoding offset instruction.canonicalEncoding).finish =
      offset + instruction.canonicalBytes.length :=
  Layout.finish_ofEncoding offset instruction.canonicalEncoding

theorem tile_layoutsFrom (offset : Nat) (instructions : List Instruction) :
    Layout.Tile offset (layoutsFrom offset instructions)
      (offset + (instructions.flatMap canonicalBytes).length) := by
  induction instructions generalizing offset with
  | nil => exact .nil offset
  | cons instruction rest ih =>
      have later := ih (offset + instruction.canonicalBytes.length)
      rw [Nat.add_assoc, ← List.length_append, ← List.flatMap_cons, ← finish_layout] at later
      have tiled := Layout.Tile.cons later
      rwa [Layout.start_ofEncoding, finish_layout] at tiled

end Instruction

namespace Code

theorem encode_of_wellFormed {instruction : Instruction} (code : Code)
    (agrees : instruction.WellFormed) :
    code.encode instruction =
      .ok (Layout.ofEncoding code.size instruction.canonicalEncoding,
        code.append instruction.canonicalBytes) := by
  rw [encode, Instruction.encoding_of_wellFormed agrees]
  rfl

/-- Encoding a list of instructions appends their encodings. -/
theorem encodeAll_eq (code : Code) {instructions : List Instruction}
    (agree : ∀ instruction ∈ instructions, instruction.WellFormed) :
    code.encodeAll instructions =
      .ok (Instruction.layoutsFrom code.size instructions,
        code.append (instructions.flatMap Instruction.canonicalBytes)) := by
  induction instructions generalizing code with
  | nil => simp [encodeAll, Instruction.layoutsFrom, append]
  | cons instruction rest ih =>
      have first := agree instruction List.mem_cons_self
      have later := ih (code.append instruction.canonicalBytes)
        fun other stands => agree other (List.mem_cons_of_mem _ stands)
      rw [encodeAll, encode_of_wellFormed code first]
      simp only [bind, Except.bind, later, pure, Except.pure, size_append, append_append,
        Instruction.layoutsFrom, List.flatMap_cons]

end Code

/-! ## Fetching the stream -/

/-- A fetch gives the instruction whose encoding comes next, and moves past it. -/
theorem fetch_of_drop {bytes : Array UInt8} {offset : Nat} {instruction : Instruction}
    {after : List UInt8} (agrees : instruction.WellFormed)
    (comes : instruction.canonicalBytes ++ after = bytes.toList.drop offset) :
    fetch ByteReader.next ⟨bytes, offset⟩ =
      .ok (.instruction instruction) ⟨bytes, offset + instruction.canonicalBytes.length⟩ :=
  fetch_of_holds (Instruction.canonicalEncoding_denotes agrees)
    (Holds.iff_prefix.mpr ⟨after, comes⟩)

/-- One fetch after the other gives instructions whose encodings come next. -/
theorem fetchMany_of_prefix {bytes : Array UInt8} {offset : Nat} {instructions : List Instruction}
    (agree : ∀ instruction ∈ instructions, instruction.WellFormed)
    (stands : instructions.flatMap Instruction.canonicalBytes <+: bytes.toList.drop offset) :
    fetchMany ByteReader.next instructions.length ⟨bytes, offset⟩ =
      .ok
        (List.zipWith
          (fun instruction layout => (.instruction instruction, ⟨bytes, layout.finish⟩))
          instructions (Instruction.layoutsFrom offset instructions))
        ⟨bytes, offset + (instructions.flatMap Instruction.canonicalBytes).length⟩ := by
  induction instructions generalizing offset with
  | nil => rfl
  | cons instruction rest ih =>
      obtain ⟨after, whole⟩ := stands
      rw [List.flatMap_cons, List.append_assoc] at whole
      have first := fetch_of_drop (agree instruction List.mem_cons_self) whole
      have later := @ih (offset + instruction.canonicalBytes.length)
        (fun other stands => agree other (List.mem_cons_of_mem _ stands))
        ⟨after, by rw [← List.drop_drop, ← whole, List.drop_left]⟩
      rw [List.length_cons, fetchMany, run_bind_of_ok first, run_get_bind, run_bind_of_ok later]
      simp only [pure, EStateM.pure, Instruction.layoutsFrom, List.zipWith_cons_cons,
        Instruction.finish_layout, List.flatMap_cons, List.length_append, Nat.add_assoc]

/-- **Decoding undoes encoding.** Instructions with operands of the right shape can be encoded into
any buffer. They leave the bytes already there alone, their layouts follow each other without a gap
from the old end to the new one, and whatever is appended, fetching from the old end on gives the
instructions back in order, each fetch stopping at the end of its layout. -/
theorem fetchMany_encodeAll (code : Code) (instructions : List Instruction)
    (agree : ∀ instruction ∈ instructions, instruction.WellFormed) :
    ∃ layouts final,
      code.encodeAll instructions = .ok (layouts, final) ∧
      layouts.length = instructions.length ∧
      Layout.Tile code.size layouts final.size ∧
      code.bytes.toList <+: final.bytes.toList ∧
      ∀ more : List UInt8,
        let bytes := (final.append more).bytes
        fetchMany ByteReader.next instructions.length ⟨bytes, code.size⟩ =
          .ok
            (List.zipWith
              (fun instruction layout => (.instruction instruction, ⟨bytes, layout.finish⟩))
              instructions layouts)
            ⟨bytes, final.size⟩ := by
  refine ⟨_, _, code.encodeAll_eq agree, Instruction.length_layoutsFrom _ _, ?_, ?_, ?_⟩
  · rw [Code.size_append]
    exact Instruction.tile_layoutsFrom _ _
  · rw [Code.toList_append]
    exact List.prefix_append _ _
  · intro more
    rw [Code.size_append, Code.append_append]
    apply fetchMany_of_prefix agree
    refine ⟨more, ?_⟩
    rw [Code.toList_append, Code.size, ← Array.length_toList, List.drop_left]

/-- Instructions that need both prefixes, either or none. -/
def mixedInstructions : List Instruction :=
  [⟨.jabs .zero, .immRegReg 0xFFF8 ⟨2, .highByte⟩ ⟨15, .dword⟩⟩,
    ⟨.ret, .imm 0x200⟩, ⟨.imac, .regRegRegReg ⟨1, .word⟩ ⟨9, .lowByte⟩ ⟨0, .word⟩ ⟨8, .dword⟩⟩,
    ⟨.addR, .regRegReg ⟨1, .word⟩ ⟨2, .word⟩ ⟨3, .word⟩⟩]

theorem fetchMany_encodeAll_mixed :
    (∀ instruction ∈ mixedInstructions, instruction.WellFormed) ∧
      ∃ layouts final,
        (Code.mk #[0xE0]).encodeAll mixedInstructions = .ok (layouts, final) ∧
        layouts.length = 4 ∧
        Layout.Tile 1 layouts final.size ∧
        [0xE0] <+: final.bytes.toList ∧
        ∀ more : List UInt8,
          let bytes := (final.append more).bytes
          fetchMany ByteReader.next 4 ⟨bytes, 1⟩ =
            .ok
              (List.zipWith
                (fun instruction layout => (.instruction instruction, ⟨bytes, layout.finish⟩))
                mixedInstructions layouts)
              ⟨bytes, final.size⟩ :=
  ⟨by decide, fetchMany_encodeAll ⟨#[0xE0]⟩ mixedInstructions (by decide)⟩

end WordMachine
