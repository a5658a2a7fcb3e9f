import WordMachine.Assembly.Run
import WordMachine.Proofs.Actions
import WordMachine.Proofs.Patching
import WordMachine.Proofs.Statements

/-!
# Reading lines

Whatever a line says, reading it only appends to the code, and the patches it leaves lie in what
was appended; labels are added and none gets another address. This is one relation between the
states before and after (`Assembler.Reads`), and it holds for every line and every source, also when
the line turns out to be wrong. A line that is wrong is wrong by itself: the encoder has nothing to
object to (`Assembly.StatementError.InText`).

Both are said at once by `Ends`, and what holds of each step holds of steps in a row.

A patch fits the code (`Assembly.Patch.Fits`) if at its layout stands an instruction that has the
placeholder for its immediate, and an immediate extension. Such an instruction is what a statement
with an unknown label gives, since the placeholder overflows every instruction word
(`Operands.extended_of_placeholder`).
-/

set_option autoImplicit false

namespace WordMachine

open Assembly

theorem ofInt_natCast (n : Nat) : UInt16.ofInt (n : Int) = UInt16.ofNat n := by
  rw [UInt16.ofInt, ← UInt16.toNat_inj, UInt16.toNat_ofNat', UInt16.toNat_ofNat']
  omega

/-- The placeholder does not fit any instruction word, so that it always gets an extension. -/
theorem Operands.extended_of_placeholder {operands : Operands}
    (waits : operands.immediate? = some placeholder) : operands.immediateWord?.isSome := by
  have high : operands.format.overflow placeholder ≠ 0 := by
    cases operands with
    | imm | immReg | immRegReg =>
        rw [format]
        decide
    | regRegReg | regRegRegReg => cases waits
  simp only [immediateWord?, waits, if_neg high, Option.isSome_some]

/-! ## Patches -/

namespace Assembly.Patch

/-- What a patch is for: an instruction whose immediate can be filled in where it was emitted. -/
structure Describes (patch : Patch) (instruction : Instruction) (encoding : Encoding) : Prop where
  denotes : encoding.Denotes instruction
  waits : instruction.immediate? = some placeholder
  extended : encoding.immediate.isSome
  format : patch.format = instruction.opcode.format
  placed : patch.layout = Layout.ofEncoding patch.layout.start encoding

/-- In the code there stands, where the patch says, what the patch is for. -/
def Fits (patch : Patch) (code : Code) : Prop :=
  ∃ instruction encoding, patch.Describes instruction encoding ∧
    Holds code.bytes patch.layout.start encoding.words

/-- One patch ends before another starts. -/
def Before (earlier later : Patch) : Prop :=
  earlier.layout.finish ≤ later.layout.start

/-- Patches that fit the code and follow each other from an offset on. -/
structure Row (lower : Nat) (code : Code) (patches : List Patch) : Prop where
  fits : ∀ patch ∈ patches, patch.Fits code
  inside : ∀ patch ∈ patches, lower ≤ patch.layout.start
  apart : patches.Pairwise Before

end Assembly.Patch

namespace Assembly.Patch

variable {patch : Patch} {code : Code}

theorem Describes.takesImmediate {instruction : Instruction} {encoding : Encoding}
    (describes : patch.Describes instruction encoding) : instruction.immediate?.isSome :=
  Option.isSome_of_eq_some describes.waits

theorem Describes.finish_eq {instruction : Instruction} {encoding : Encoding}
    (describes : patch.Describes instruction encoding) :
    patch.layout.finish = patch.layout.start + 2 * encoding.words.length := by
  rw [describes.placed, Layout.finish_ofEncoding, encoding.length_bytes, ← describes.placed]

theorem Fits.finish_le (fits : patch.Fits code) : patch.layout.finish ≤ code.size := by
  obtain ⟨instruction, encoding, describes, holds⟩ := fits
  rw [describes.finish_eq]
  exact holds.le_size encoding.words_ne_nil

/-- Appending to the code leaves what a patch needs in place. -/
theorem Fits.append (fits : patch.Fits code) (bytes : List UInt8) :
    patch.Fits (code.append bytes) := by
  obtain ⟨instruction, encoding, describes, holds⟩ := fits
  exact ⟨instruction, encoding, describes, holds.append encoding.words_ne_nil bytes⟩

end Assembly.Patch

namespace Assembly.Patch.Row

theorem nil (lower : Nat) (code : Code) : Row lower code [] where
  fits _ stands := nomatch stands
  inside _ stands := nomatch stands
  apart := .nil

theorem singleton {patch : Patch} {code : Code} (fits : patch.Fits code) :
    Row patch.layout.start code [patch] where
  fits other stands := by
    obtain rfl := List.mem_singleton.mp stands
    exact fits
  inside other stands := by
    obtain rfl := List.mem_singleton.mp stands
    exact Nat.le_refl _
  apart := List.pairwise_singleton _ _

/-- Code and patches that are appended go on with a row. -/
theorem append {lower : Nat} {code : Code} {bytes : List UInt8} {earlier later : List Patch}
    (below : lower ≤ code.size) (first : Row lower code earlier)
    (second : Row code.size (code.append bytes) later) :
    Row lower (code.append bytes) (earlier ++ later) where
  fits patch stands := by
    rcases List.mem_append.mp stands with old | new
    · exact (first.fits patch old).append bytes
    · exact second.fits patch new
  inside patch stands := by
    rcases List.mem_append.mp stands with old | new
    · exact first.inside patch old
    · exact Nat.le_trans below (second.inside patch new)
  apart := by
    refine List.pairwise_append.mpr ⟨first.apart, second.apart, ?_⟩
    intro patch old next new
    exact Nat.le_trans (first.fits patch old).finish_le (second.inside next new)

end Assembly.Patch.Row

namespace Code

theorem emitByte_eq_append (code : Code) (byte : UInt8) :
    code.emitByte byte = code.append [byte] := by
  simp [emitByte, append]

theorem emitFill_eq_append (code : Code) (byte : UInt8) (times : Nat) :
    code.emitFill byte times = code.append (List.replicate times byte) := by
  have same : (code.emitFill byte times).bytes.toList =
      (code.append (List.replicate times byte)).bytes.toList := by
    rw [toList_append]
    simp only [emitFill, Array.toList_append, Array.toList_replicate]
  exact congrArg Code.mk (Array.ext' same)

end Code

/-- Every label of the one table has the same address in the other. -/
def SymbolTable.Extends (before after : SymbolTable) : Prop :=
  ∀ {label address}, before.address? label = some address → after.address? label = some address

/-- A label that is defined has its address for good. -/
theorem SymbolTable.extends_of_define {before after : SymbolTable} {label : String}
    {address : UInt32} (defined : before.define label address = .ok after) :
    before.Extends after := by
  intro other known found
  rw [define] at defined
  split at defined
  · cases defined
  · rename_i unknown
    cases defined
    have different : other ≠ label := by
      rintro rfl
      rw [unknown] at found
      cases found
    rw [address?, List.lookup_cons, beq_false_of_ne different]
    exact found

/-! ## Reading only appends -/

namespace Assembler

/-- Between two states bytes have been appended to the code, and a row of patches in these bytes to
the patches. -/
structure Grows (before after : Assembler) : Prop where
  code : ∃ bytes, after.code = before.code.append bytes
  patches : ∃ waiting, after.patches.toList = before.patches.toList ++ waiting ∧
    Patch.Row before.code.size after.code waiting

namespace Grows

variable {before between after : Assembler}

/-- A step that only appends bytes. -/
theorem of_append {bytes : List UInt8} (code : after.code = before.code.append bytes)
    (patches : after.patches = before.patches) : Grows before after where
  code := ⟨bytes, code⟩
  patches := ⟨[], by rw [patches, List.append_nil], .nil _ _⟩

/-- A step that emits nothing. -/
theorem of_same (code : after.code = before.code) (patches : after.patches = before.patches) :
    Grows before after := by
  refine @of_append before after [] ?_ patches
  rw [code, Code.append_nil]

theorem trans (first : Grows before between) (second : Grows between after) :
    Grows before after := by
  obtain ⟨⟨firstBytes, firstCode⟩, ⟨earlier, firstPatches, firstRow⟩⟩ := first
  obtain ⟨⟨secondBytes, secondCode⟩, ⟨later, secondPatches, secondRow⟩⟩ := second
  have grown : before.code.size ≤ between.code.size := by
    rw [firstCode, Code.size_append]
    exact Nat.le_add_right _ _
  refine ⟨⟨firstBytes ++ secondBytes, ?_⟩, ⟨earlier ++ later, ?_, ?_⟩⟩
  · rw [secondCode, firstCode, Code.append_append]
  · rw [secondPatches, firstPatches, List.append_assoc]
  · rw [secondCode] at secondRow ⊢
    exact firstRow.append grown secondRow

end Grows

/-- What reading leads to: the code and the patches have grown, and so have the symbols. -/
structure Reads (before after : Assembler) : Prop extends Grows before after where
  symbols : before.scope.symbols.Extends after.scope.symbols

namespace Reads

variable {before after : Assembler}

/-- A step that emits nothing and defines nothing. -/
theorem of_same (code : after.code = before.code) (patches : after.patches = before.patches)
    (symbols : after.scope.symbols = before.scope.symbols) : Reads before after := by
  refine ⟨Grows.of_same code patches, ?_⟩
  rw [symbols]
  exact id

theorem chains : Chains Reads where
  refl _ := of_same rfl rfl rfl
  trans first second := ⟨first.toGrows.trans second.toGrows, second.symbols ∘ first.symbols⟩

/-- Patches in a row behind a boundary stay so, and those that come are behind it as well. -/
theorem row (reads : Reads before after) {boundary : Nat} (within : boundary ≤ before.code.size)
    (row : Patch.Row boundary before.code before.patches.toList) :
    boundary ≤ after.code.size ∧ Patch.Row boundary after.code after.patches.toList := by
  obtain ⟨⟨⟨bytes, code⟩, waiting, patches, more⟩, _⟩ := reads
  rw [code] at more
  rw [patches, code]
  refine ⟨?_, row.append within more⟩
  rw [Code.size_append]
  exact Nat.le_trans within (Nat.le_add_right _ _)

end Reads

/-- What nearly every directive leads to: bytes may have been appended, but no instruction has been
emitted, no label defined and no origin set. -/
structure Fills (before after : Assembler) : Prop where
  code : ∃ bytes, after.code = before.code.append bytes
  patches : after.patches = before.patches
  symbols : after.scope.symbols = before.scope.symbols
  origin : after.origin = before.origin

namespace Fills

variable {before after : Assembler}

/-- A step that emits nothing. -/
theorem of_same (code : after.code = before.code) (patches : after.patches = before.patches)
    (symbols : after.scope.symbols = before.scope.symbols)
    (origin : after.origin = before.origin) : Fills before after := by
  refine ⟨⟨[], ?_⟩, patches, symbols, origin⟩
  rw [code, Code.append_nil]

theorem chains : Chains Fills where
  refl _ := of_same rfl rfl rfl rfl
  trans first second := by
    obtain ⟨earlier, firstCode⟩ := first.code
    obtain ⟨later, secondCode⟩ := second.code
    refine ⟨⟨earlier ++ later, ?_⟩, second.patches.trans first.patches,
      second.symbols.trans first.symbols, second.origin.trans first.origin⟩
    rw [secondCode, firstCode, Code.append_append]

theorem reads (fills : Fills before after) : Reads before after := by
  obtain ⟨bytes, code⟩ := fills.code
  refine ⟨Grows.of_append code fills.patches, ?_⟩
  rw [fills.symbols]
  exact id

end Fills

/-- Emitting an instruction appends its words, and a patch if it waits for a label. -/
theorem grows_append (assembler : Assembler) (place : SourceLine) {emission : Emission}
    (sound : emission.Sound) :
    Grows assembler
      (assembler.append place emission emission.instruction.canonicalEncoding) := by
  refine ⟨⟨_, rfl⟩, ?_⟩
  cases waits : emission.forward with
  | none =>
      refine ⟨[], ?_, .nil _ _⟩
      simp only [append, waits, Option.map_none, Option.toList_none, Array.toList_appendList]
  | some label =>
      -- The placeholder stands in the immediate, and so there is an extension word to patch.
      have immediate := sound.holdsPlace (by rw [waits]; rfl)
      let patch : Patch :=
        { label, place
          layout := Layout.ofEncoding assembler.code.size emission.instruction.canonicalEncoding
          format := emission.instruction.opcode.format }
      have start : patch.layout.start = assembler.code.size := Layout.start_ofEncoding _ _
      refine ⟨[patch], ?_, ?_⟩
      · simp only [append, waits, Option.map_some, Option.toList_some, Array.toList_appendList,
          patch]
      · rw [← start]
        apply Patch.Row.singleton
        refine ⟨emission.instruction, emission.instruction.canonicalEncoding, ?_, ?_⟩
        · exact
            { denotes := Instruction.canonicalEncoding_denotes sound.wellFormed
              waits := immediate
              extended := Operands.extended_of_placeholder immediate
              format := rfl
              placed := by rw [start] }
        · rw [start]
          exact assembler.code.holds_append _

theorem readAt_eq_ok {α : Type} {place : SourceLine} {reading : Reading α}
    {start final : Assembler} {value : α} :
    readAt place reading start = .ok value final ↔ reading start = .ok value final := by
  unfold readAt
  cases reading start with
  | ok first between => rw [EStateM.Result.ok.injEq, EStateM.Result.ok.injEq]
  | error failure between =>
      constructor
      · intro ran
        cases ran
      · intro ran
        cases ran

end Assembler

/-- An assembly stopped for what a text says, or because there was too much of it. -/
def Assembly.Stop.InText : Stop → Prop
  | .failed failure => failure.error.InText
  | .lineLimit => True

namespace Assembler

/-- Going on with the outcome of a computation that does not change the state. -/
theorem ends_ofExcept_bind {related : Assembler → Assembler → Prop} (chains : Chains related)
    {start : Assembler} {α β : Type} {good : α → Prop} {outcome : Except StatementError α}
    {next : α → Reading β} (gives : Gives good outcome)
    (later : ∀ value, good value → Ends related StatementError.InText start (next value)) :
    Ends related StatementError.InText start (ofExcept outcome >>= next) := by
  cases outcome with
  | ok value => exact later value gives
  | error failure => exact .of_throw chains gives

theorem ends_readAt {start : Assembler} {α : Type} {reading : Reading α} (place : SourceLine)
    (ends : Ends Reads StatementError.InText start reading) :
    Ends Reads Stop.InText start (readAt place reading) := by
  cases step : reading start with
  | ok value final => exact .of_ok (readAt_eq_ok.mpr step) (ends.step_of_ok step)
  | error failure final =>
      have run : readAt place reading start = .error (.failed ⟨place, failure⟩) final := by
        simp only [readAt, step]
      exact .of_error run (ends.step_of_error step) (ends.fails step)

section Reading

variable (start : Assembler)

theorem ends_defineLabel (label : List Char) :
    Ends Reads StatementError.InText start (defineLabel label) := by
  apply Ends.of_get
  dsimp only
  split
  · exact .of_throw Reads.chains trivial
  · split
    · rename_i defined
      exact .of_set ⟨Grows.of_same rfl rfl, SymbolTable.extends_of_define defined⟩
    · exact .of_throw Reads.chains trivial

theorem ends_emit (place : SourceLine) {emission : Emission} (sound : emission.Sound) :
    Ends Reads StatementError.InText start (emit place emission) := by
  rw [emit, Instruction.encoding_of_wellFormed sound.wellFormed]
  exact .of_modify ⟨grows_append start place sound, id⟩

theorem ends_constant_bind {related : Assembler → Assembler → Prop} (chains : Chains related)
    {text : List Char} {least greatest : Int} {next : Int → Reading Unit}
    (later : ∀ value, Ends related StatementError.InText start (next value)) :
    Ends related StatementError.InText start (constant text least greatest >>= next) := by
  have whole : (constant text least greatest >>= next) =
      (get >>= fun assembler =>
        ofExcept (assembler.scope.constant text least greatest) >>= next) := by
    rfl
  rw [whole]
  apply Ends.of_get
  exact ends_ofExcept_bind chains (start.scope.gives_constant _ _ _) fun value _ => later value

theorem fills_splice (source : Source) (name : String) (once : Bool) :
    Ends Fills StatementError.InText start (splice source name once) := by
  apply Ends.of_get
  dsimp only
  split
  · exact .of_pure Fills.chains _
  · split
    · refine .of_bind Fills.chains (.of_set (Fills.of_same rfl rfl rfl rfl)) fun _ between => ?_
      split
      · exact .of_modify (Fills.of_same rfl rfl rfl rfl)
      · exact .of_throw Fills.chains trivial
    · split
      · exact .of_modify (Fills.of_same rfl rfl rfl rfl)
      · exact .of_throw Fills.chains trivial

theorem fills_defineMacro (name text : List Char) :
    Ends Fills StatementError.InText start (defineMacro name text) := by
  apply Ends.of_get
  split
  · exact .of_throw Fills.chains trivial
  · split
    · exact .of_throw Fills.chains trivial
    · exact .of_set (Fills.of_same rfl rfl rfl rfl)

theorem fills_dropMacro (name : List Char) :
    Ends Fills StatementError.InText start (dropMacro name) :=
  .of_modify (Fills.of_same rfl rfl rfl rfl)

theorem fills_emitZeros (count : Nat) :
    Ends Fills StatementError.InText start (emitZeros count) :=
  .of_modify ⟨⟨_, Code.emitFill_eq_append _ _ _⟩, rfl, rfl, rfl⟩

theorem fills_fillTo (target : Nat) : Ends Fills StatementError.InText start (fillTo target) := by
  apply Ends.of_get
  dsimp only
  split
  · exact .of_throw Fills.chains trivial
  · exact fills_emitZeros start _

theorem fills_alignTo (alignment : Nat) :
    Ends Fills StatementError.InText start (alignTo alignment) := by
  rw [alignTo]
  split
  · exact .of_throw Fills.chains trivial
  · exact .of_get (fills_emitZeros start _)

theorem fills_emitData (operands : List (List Char)) :
    Ends Fills StatementError.InText start (emitData operands) := by
  induction operands generalizing start with
  | nil => exact .of_pure Fills.chains _
  | cons operand rest ih =>
      apply ends_constant_bind start Fills.chains
      intro byte
      exact .of_bind Fills.chains
        (.of_modify ⟨⟨_, Code.emitByte_eq_append _ _⟩, rfl, rfl, rfl⟩) fun _ between => ih between

/-- **Only `.ORG` does more than fill.** -/
theorem fills_direct (source : Source) {name : String} (operands : List (List Char))
    (stays : Directive.ofName? name ≠ some .origin) :
    Ends Fills StatementError.InText start (direct source name operands) := by
  unfold direct
  split
  · exact fills_defineMacro start _ _
  · exact .of_throw Fills.chains trivial
  · exact .of_throw Fills.chains trivial
  · exact fills_emitData start _
  · exact fills_dropMacro start _
  · rename_i sets
    exact absurd sets stays
  · exact ends_constant_bind start Fills.chains fun target => fills_fillTo start _
  · exact ends_constant_bind start Fills.chains fun alignment => fills_alignTo start _
  · apply Ends.of_get
    exact ends_ofExcept_bind Fills.chains (start.scope.gives_expand _) fun expanded _ =>
      fills_splice start source _ _
  · exact .of_throw Fills.chains trivial
  · exact .of_throw Fills.chains trivial

theorem ends_direct (source : Source) (name : String) (operands : List (List Char)) :
    Ends Reads StatementError.InText start (direct source name operands) := by
  by_cases sets : Directive.ofName? name = some .origin
  · rcases operands with _ | ⟨address, _ | ⟨second, rest⟩⟩ <;> simp only [direct, sets]
    · exact .of_throw Reads.chains trivial
    · exact ends_constant_bind start Reads.chains fun origin =>
        .of_modify (Reads.of_same rfl rfl rfl)
    · exact .of_throw Reads.chains trivial
  · exact (fills_direct start source operands sets).mono Fills.reads

theorem ends_readStatement (source : Source) (place : SourceLine) (statement : List Char) :
    Ends Reads StatementError.InText start (readStatement source place statement) := by
  unfold readStatement
  split
  split
  · exact .of_pure Reads.chains _
  · split
    · exact ends_direct start source _ _
    · apply Ends.of_get
      exact ends_ofExcept_bind Reads.chains (start.scope.gives_statement _ _) fun emission sound =>
        ends_emit start place sound

/-- **Reading a line only appends**, also if the line turns out to be wrong. -/
theorem ends_readLine (source : Source) (line : LogicalLine) :
    Ends Reads StatementError.InText start (readLine source line) := by
  unfold readLine
  dsimp only
  split
  · exact .of_bind Reads.chains (ends_defineLabel start _) fun _ between =>
      ends_readStatement between source _ _
  · exact ends_readStatement start source _ _

theorem ends_readNext (source : Source) (line : LogicalLine) (rest : List LogicalLine) :
    Ends Reads Stop.InText start (readNext source line rest) :=
  .of_bind Reads.chains (.of_modify (Reads.of_same rfl rfl rfl)) fun _ between =>
    ends_readAt line.place (ends_readLine between source line)

/-- **Reading lines only appends**, however many there are and whether or not they are right, and
an error is one of the lines. -/
theorem ends_readQueue (source : Source) (limit : Nat) :
    Ends Reads Stop.InText start (readQueue source limit) := by
  induction limit generalizing start with
  | zero =>
      apply Ends.of_get
      split
      · exact .of_throw Reads.chains trivial
      · exact .of_pure Reads.chains _
  | succ limit ih =>
      apply Ends.of_get
      split
      · exact .of_pure Reads.chains _
      · exact .of_bind Reads.chains (ends_readNext start source _ _) fun _ between => ih between

theorem grows_readQueue (source : Source) (limit : Nat) :
    Leads Grows start (readQueue source limit) :=
  Reads.toGrows (ends_readQueue start source limit).leads

end Reading

end Assembler
end WordMachine
