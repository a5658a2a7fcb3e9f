import WordMachine.Proofs.InstructionStream
import WordMachine.Proofs.ListingLines
import WordMachine.Proofs.WrittenForm

/-!
# Assembling listings

A listing is a source text. Each of its lines is read as the instruction it shows
(`Assembler.readLine_text`), so assembling the texts of instructions emits the instructions in
order (`Assembler.readQueue_texts`), and a listing of the emitted bytes shows the texts again
(`Listing.Sweeps.texts_eq`).

The main statement, `assemble_texts`, puts both together for any number of instructions whose texts
hold all of them.
-/

set_option autoImplicit false

namespace WordMachine

open Assembly

/-! ## Assembling what was written -/

namespace Assembler

/-- Reading the text of an instruction emits the instruction. -/
theorem readLine_text (source : Source) (place : SourceLine) {start : Assembler}
    {instruction : Instruction} (known : start.scope.macros = .empty)
    (writable : instruction.Writable) :
    readLine source ⟨place, instruction.text.toList⟩ start =
      .ok () (start.append place ⟨instruction, none⟩ instruction.canonicalEncoding) := by
  have legible := Form.legible (Instruction.form_mem_all writable.wellFormed)
  have pieces := instruction.piece_operandTexts
  have gap : mnemonicColumn - instruction.form.mnemonic.length ≠ 0 :=
    Nat.sub_ne_zero_of_lt legible.narrow
  have read := Scope.statement_written known writable
  -- No part of the text ends it early, so that all of it is a statement.
  rw [readLine, Instruction.toList_text writable,
    stripComment_of_not_mem fun _ => ne_of_mem_composeLine legible.piece pieces (by decide),
    splitLabel_of_not_mem fun _ => ne_of_mem_composeLine legible.piece pieces (by decide)]
  dsimp only
  rw [readStatement, splitStatement_composeLine legible.piece gap pieces]
  simp only [if_neg legible.piece.nonempty, legible.upper, if_neg legible.named,
    String.ofList_toList]
  rw [run_get_bind, read]
  have encoded := Instruction.encoding_of_wellFormed writable.wellFormed
  exact run_bind_eq_ok.mpr ⟨_, _, rfl, by simp only [emit, encoded]; rfl⟩

theorem readNext_ok {source : Source} {line : LogicalLine} {rest : List LogicalLine}
    {start final : Assembler}
    (read : readLine source line { start with queue := rest } = .ok () final) :
    readNext source line rest start = .ok () final :=
  run_bind_eq_ok.mpr ⟨(), { start with queue := rest }, rfl, readAt_eq_ok.mpr read⟩

/-- Reading the texts of instructions emits the instructions in order. -/
theorem readQueue_texts (source : Source) (file : String) (number : Nat) {start : Assembler}
    {instructions : List Instruction} (known : start.scope.macros = .empty)
    (writable : ∀ instruction ∈ instructions, instruction.Writable)
    (queued : start.queue =
      numbered file number (instructions.map fun instruction => instruction.text.toList)) :
    ∃ final, readQueue source instructions.length start = .ok () final ∧
      final.code = start.code.append (instructions.flatMap Instruction.canonicalBytes) ∧
      final.patches = start.patches := by
  induction instructions generalizing start number with
  | nil =>
      have empty : ¬ start.queue ≠ [] := Classical.not_not.mpr queued
      refine ⟨start, ?_, (start.code.append_nil).symm, rfl⟩
      rw [List.length_nil, readQueue, run_get_bind, if_neg empty]
      rfl
  | cons instruction rest ih =>
      rw [List.forall_mem_cons] at writable
      rw [List.map_cons, numbered] at queued
      let place : SourceLine := ⟨file, number⟩
      let later := numbered file (number + 1)
        (rest.map fun instruction => instruction.text.toList)
      -- Reading the first line leaves the scope alone: the next one still finds no macros.
      have read := readLine_text source place
        (show { start with queue := later }.scope.macros = .empty from known) writable.1
      obtain ⟨final, ran, code, patches⟩ :=
        @ih (number + 1)
          (append { start with queue := later } place ⟨instruction, none⟩
            instruction.canonicalEncoding) known writable.2 rfl
      refine ⟨final, ?_, ?_, ?_⟩
      · rw [List.length_cons, readQueue, run_get_bind, queued]
        exact run_bind_eq_ok.mpr ⟨(), _, readNext_ok read, ran⟩
      · rw [code, List.flatMap_cons, ← Code.append_append]
        rfl
      · rw [patches]
        exact Array.append_empty

end Assembler

theorem mapM_bytes {instructions : List Instruction}
    (agree : ∀ instruction ∈ instructions, instruction.WellFormed) :
    instructions.mapM Instruction.bytes = .ok (instructions.map Instruction.canonicalBytes) := by
  induction instructions with
  | nil => rfl
  | cons instruction rest ih =>
      rw [List.forall_mem_cons] at agree
      rw [List.mapM_cons, Instruction.bytes_of_wellFormed agree.1, ih agree.2]
      rfl

theorem Assembly.length_numbered (file : String) (number : Nat) (lines : List (List Char)) :
    (numbered file number lines).length = lines.length := by
  induction lines generalizing number with
  | nil => rfl
  | cons line rest ih => rw [numbered, List.length_cons, List.length_cons, ih]

/-- Assembling the texts of instructions gives their encodings, one after the other. -/
theorem assemble_eq {instructions : List Instruction} {content : String} {ending : List Char}
    (writable : ∀ instruction ∈ instructions, instruction.Writable)
    (written : content.toList =
      ['\n'].intercalate (instructions.map fun instruction => instruction.text.toList) ++ ending)
    (ends : ending = [] ∨ ending = ['\n']) :
    assemble content = .ok (instructions.flatMap Instruction.canonicalBytes).toArray := by
  have whole : ∀ line ∈ instructions.map fun instruction => instruction.text.toList,
      Whole line := by
    rw [List.forall_mem_map]
    intro instruction stands
    have good := writable instruction stands
    rw [Instruction.toList_text good]
    exact .of_composeLine (Form.legible (Instruction.form_mem_all good.wellFormed)).piece
      instruction.piece_operandTexts
  have queued : (Assembler.initial.enqueue unnamedText content).queue =
      numbered unnamedText 1 (instructions.map fun instruction => instruction.text.toList) := by
    rw [← logicalLines_of_whole whole unnamedText written ends]
    exact List.append_nil _
  have count : (Assembler.initial.enqueue unnamedText content).queue.length =
      instructions.length := by
    rw [queued, length_numbered, List.length_map]
  obtain ⟨final, ran, code, patches⟩ :=
    Assembler.readQueue_texts (FileTree.empty.toSource []) unnamedText 1 rfl writable queued
  have assembled : Assembler.assembleAll (FileTree.empty.toSource []) 0
      (Assembler.initial.enqueue unnamedText content) =
        .ok (instructions.flatMap Instruction.canonicalBytes).toArray
          { final with patches := #[], code := .empty } := by
    rw [Assembler.assembleAll, run_get_bind, count]
    have settled : final.patches = #[] := patches
    refine run_bind_eq_ok.mpr ⟨(), final, ran,
      run_bind_eq_ok.mpr ⟨(), { final with patches := #[] }, ?_, ?_⟩⟩
    · rw [Assembler.resolveAll, run_get_bind, settled]
      rfl
    · have bytes : final.code.bytes =
          (instructions.flatMap Instruction.canonicalBytes).toArray := by
        rw [code]
        apply Array.ext'
        rw [Code.toList_append]
        rfl
      rw [← bytes]
      rfl
  rw [assemble, assembleFrom, assembled]

/-! ## Listing what was assembled -/

namespace Listing

theorem Sweeps.texts_eq {bytes : Array UInt8} {offset : Nat} {lines : List Line}
    {instructions : List Instruction} (sweeps : Sweeps bytes offset lines)
    (agree : ∀ instruction ∈ instructions, instruction.WellFormed)
    (encoded : instructions.flatMap Instruction.canonicalBytes = bytes.toList.drop offset) :
    lines.map Line.text = instructions.map Instruction.text := by
  induction instructions generalizing offset lines with
  | nil =>
      have past : bytes.size ≤ offset := by
        rw [← Array.length_toList]
        exact List.drop_eq_nil_iff.mp encoded.symm
      cases sweeps with
      | done => rfl
      | fetched step _ =>
          obtain ⟨_, later, within⟩ := position_of_fetchWith step
          simp only at later within
          omega
      | failed inside _ => omega
  | cons instruction rest ih =>
      rw [List.forall_mem_cons] at agree
      rw [List.flatMap_cons] at encoded
      have found := fetch_of_drop agree.1 encoded
      cases sweeps with
      | done =>
          obtain ⟨_, later, within⟩ := position_of_fetchWith found
          simp only at later within
          omega
      | fetched step sweeps =>
          rw [found] at step
          cases step
          rw [List.map_cons, List.map_cons, ih sweeps agree.2]
          · rfl
          · rw [← List.drop_drop, ← encoded, List.drop_left]
      | failed _ step =>
          rw [found] at step
          cases step

end Listing

/-- **Texts of instructions assemble to what they show.** Written one to a line, with or without a
newline at the end, they assemble to the concatenation of the encodings, and a listing of these
bytes shows just the same texts. -/
theorem assemble_texts {instructions : List Instruction}
    (writable : ∀ instruction ∈ instructions, instruction.Writable) {ending : String}
    (ends : ending = "" ∨ ending = "\n") :
    ∃ encodings,
      instructions.mapM Instruction.bytes = .ok encodings ∧
      assemble ("\n".intercalate (instructions.map Instruction.text) ++ ending) =
        .ok encodings.flatten.toArray ∧
      (Listing.lines encodings.flatten).map Listing.Line.text =
        instructions.map Instruction.text := by
  have agree : ∀ instruction ∈ instructions, instruction.WellFormed :=
    fun instruction stands => (writable instruction stands).wellFormed
  refine ⟨instructions.map Instruction.canonicalBytes, mapM_bytes agree, ?_, ?_⟩
  · rw [← List.flatMap_def]
    refine @assemble_eq instructions _ ending.toList writable ?_ ?_
    · rw [String.toList_append, String.toList_intercalate, List.map_map]
      rfl
    · rcases ends with rfl | rfl
      · exact .inl rfl
      · exact .inr rfl
  · rw [← List.flatMap_def]
    have sweeps := Listing.sweeps_linesFrom
      (Nat.zero_le (instructions.flatMap Instruction.canonicalBytes).toArray.size)
    rw [List.drop_zero] at sweeps
    exact sweeps.texts_eq agree rfl

/-- A frame's end, a stack transfer of dwords and a plain instruction with both prefixes. -/
def frameInstructions : List Instruction :=
  [⟨.leave, .imm 0⟩, ⟨.push, .imm 0x8003⟩,
    ⟨.jabs .zero, .immRegReg 0xFFF8 ⟨2, .highByte⟩ ⟨15, .dword⟩⟩]

theorem writable_frameInstructions :
    ∀ instruction ∈ frameInstructions, instruction.Writable := by
  rw [frameInstructions, List.forall_mem_cons, List.forall_mem_cons, List.forall_mem_singleton]
  refine ⟨⟨rfl, ?_, fun named => ?_⟩, ⟨rfl, nofun, fun _ mask taken => ⟨1, by decide, ?_⟩⟩,
    ⟨rfl, nofun, fun named => ?_⟩⟩
  · intro _ value taken
    exact (Option.some.inj taken).symm
  · rcases named with named | named | named <;> cases named
  · cases taken
    rfl
  · rcases named with named | named | named <;> cases named

theorem assemble_texts_frameInstructions :
    (∀ instruction ∈ frameInstructions, instruction.Writable) ∧ ("\n" = "" ∨ "\n" = "\n") ∧
    ∃ encodings,
      frameInstructions.mapM Instruction.bytes = .ok encodings ∧
      assemble ("\n".intercalate (frameInstructions.map Instruction.text) ++ "\n") =
        .ok encodings.flatten.toArray ∧
      (Listing.lines encodings.flatten).map Listing.Line.text =
        frameInstructions.map Instruction.text :=
  ⟨writable_frameInstructions, .inr rfl,
    assemble_texts writable_frameInstructions (.inr rfl)⟩

end WordMachine
