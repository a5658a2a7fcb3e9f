import WordMachine.Proofs.Sessions

/-!
# Statements in assembled code

While the queue is read, each line is read in a state of its own (`Assembler.Visits`). If the line
has the mnemonic of an instruction, the instruction is emitted at the end of the code that this
state has. Nothing that comes later moves it. Later lines append, and patches rewrite the
instructions that wait for a label, where they stand.

So if the whole run succeeds, the bytes it hands out fetch at that place to the instruction that the
line states. If the instruction had to wait for a label, it has the address of the label for its
immediate (`Assembler.fetch_of_visits`). This holds in every session, even if calls before this one
have failed.
-/

set_option autoImplicit false

namespace WordMachine

open Assembly

namespace Assembly

/-- The mnemonic of a line and its operands. -/
def LogicalLine.words (line : LogicalLine) : List Char × List (List Char) :=
  splitStatement (splitLabel (stripComment line.text)).2

/-- What stands for an emission when all labels have their addresses. -/
inductive Emission.Becomes (emission : Emission) (symbols : SymbolTable) : Instruction → Prop where
  | emitted (waits : emission.forward = none) : Becomes emission symbols emission.instruction
  | filled {label : String} {address : UInt32} (waits : emission.forward = some label)
      (known : symbols.address? label = some address) (small : address.toNat ≤ 0xFFFF) :
      Becomes emission symbols (emission.instruction.withImmediate (UInt16.ofNat address.toNat))

namespace Emission

variable {emission : Emission} {symbols : SymbolTable}

/-- The instruction of an emission with the address that it waits for, if that is known. -/
def resolved (emission : Emission) (symbols : SymbolTable) : Instruction :=
  match emission.forward.bind symbols.address? with
  | some address => emission.instruction.withImmediate (UInt16.ofNat address.toNat)
  | none => emission.instruction

/-- The words of an emission with the address that it waits for filled in, if that is known. -/
def settled (emission : Emission) (symbols : SymbolTable) : Encoding :=
  match emission.forward.bind symbols.address? with
  | some address =>
      emission.instruction.canonicalEncoding.patched emission.instruction.opcode.format
        (UInt16.ofNat address.toNat)
  | none => emission.instruction.canonicalEncoding

/-- An instruction that waits for a label takes an immediate, which has an extension word. -/
theorem Sound.extended (sound : emission.Sound) (waits : emission.forward.isSome) :
    emission.instruction.immediate?.isSome ∧
      emission.instruction.canonicalEncoding.immediate.isSome := by
  have immediate := sound.holdsPlace waits
  exact ⟨Option.isSome_of_eq_some immediate, Operands.extended_of_placeholder immediate⟩

theorem Sound.denotes_settled (sound : emission.Sound) :
    (emission.settled symbols).Denotes (emission.resolved symbols) := by
  have denotes := Instruction.canonicalEncoding_denotes sound.wellFormed
  rw [settled, resolved]
  cases known : emission.forward.bind symbols.address? with
  | none => exact denotes
  | some address =>
      obtain ⟨label, waits, -⟩ := Option.bind_eq_some_iff.mp known
      exact denotes.patched (sound.extended (Option.isSome_of_eq_some waits)).1 _

theorem Sound.length_settled (sound : emission.Sound) (symbols : SymbolTable) :
    (emission.settled symbols).words.length =
      emission.instruction.canonicalEncoding.words.length := by
  rw [settled]
  cases known : emission.forward.bind symbols.address? with
  | none => rfl
  | some address =>
      obtain ⟨label, waits, -⟩ := Option.bind_eq_some_iff.mp known
      exact Encoding.length_words_patched (sound.extended (Option.isSome_of_eq_some waits)).2 _ _

theorem becomes_resolved
    (known : ∀ label ∈ emission.forward, ∃ address, symbols.address? label = some address ∧
      address.toNat ≤ 0xFFFF) : emission.Becomes symbols (emission.resolved symbols) := by
  rw [resolved]
  cases waits : emission.forward with
  | none => exact .emitted waits
  | some label =>
      obtain ⟨address, found, small⟩ := known label waits
      rw [Option.bind_some, found]
      exact .filled waits found small

end Emission

namespace Form

/-- A name that is not empty and does not start like the name of a directive. -/
def Undotted (name : String) : Prop :=
  name.toList.head?.any (· != '.') = true

theorem undotted_of_mem_mnemonics : ∀ mnemonic ∈ mnemonics, Undotted mnemonic := by
  unfold Undotted
  decide +kernel

/-- The mnemonics of instructions are told from the names of directives by how they start. -/
theorem undotted_of_ofMnemonic? {mnemonic : String} {form : Form}
    (found : ofMnemonic? mnemonic = some form) : Undotted mnemonic :=
  undotted_of_mem_mnemonics mnemonic (mem_mnemonics_of_ofMnemonic? found)

end Form
end Assembly

namespace Assembler

variable {source : Source} {start state after : Assembler} {line : LogicalLine}

/-! ## Lines that are read -/

/-- In the course of reading the queue a line is taken off and read in a state. -/
inductive Visits (source : Source) : Assembler → Assembler → LogicalLine → Prop where
  | here {start : Assembler} {line : LogicalLine} {rest : List LogicalLine}
      (waiting : start.queue = line :: rest) :
      Visits source start { start with queue := rest } line
  | later {start between state : Assembler} {first line : LogicalLine} {rest : List LogicalLine}
      (waiting : start.queue = first :: rest)
      (read : readNext source first rest start = .ok () between)
      (more : Visits source between state line) : Visits source start state line

theorem readQueue_cons {limit : Nat} {rest : List LogicalLine} {final : Assembler}
    (waiting : start.queue = line :: rest) (run : readQueue source limit start = .ok () final) :
    ∃ less between, readNext source line rest start = .ok () between ∧
      readQueue source less between = .ok () final := by
  cases limit with
  | zero =>
      have left : start.queue ≠ [] := by
        rw [waiting]
        exact List.cons_ne_nil _ _
      rw [readQueue, run_get_bind, if_pos left] at run
      cases run
  | succ less =>
      rw [readQueue, run_get_bind, waiting] at run
      obtain ⟨_, between, read, later⟩ := run_bind_eq_ok.mp run
      exact ⟨less, between, read, later⟩

/-- A visited line was read without an error if the whole queue was. -/
theorem Visits.reads {limit : Nat} {final : Assembler} (visits : Visits source start state line)
    (run : readQueue source limit start = .ok () final) :
    Reads start state ∧
      ∃ after, readLine source line state = .ok () after ∧ Reads after final := by
  induction visits generalizing limit with
  | @here start line rest waiting =>
      obtain ⟨less, after, read, later⟩ := readQueue_cons waiting run
      obtain ⟨_, _, moved, read⟩ := run_bind_eq_ok.mp read
      cases moved
      have rest_read := (ends_readQueue after source less).step_of_ok later
      exact ⟨Reads.of_same rfl rfl rfl, after, readAt_eq_ok.mp read, rest_read⟩
  | @later start between state first line rest waiting read more ih =>
      obtain ⟨less, after, again, later⟩ := readQueue_cons waiting run
      rw [read] at again
      cases again
      obtain ⟨reads, final⟩ := ih later
      exact ⟨Reads.chains.trans ((ends_readNext start source first rest).step_of_ok read) reads, final⟩

/-! ## What a line emits -/

/-- The state with other symbols. -/
def withSymbols (state : Assembler) (symbols : SymbolTable) : Assembler :=
  { state with scope := { state.scope with symbols } }

/-- Defining a label adds to the symbols and changes nothing else. -/
theorem defineLabel_ok {label : List Char} (run : defineLabel label state = .ok () after) :
    ∃ symbols, state.scope.symbols.Extends symbols ∧ after = state.withSymbols symbols := by
  rw [defineLabel, run_get_bind] at run
  cases named : isIdentifier label with
  | false =>
      rw [named] at run
      cases run
  | true =>
      rw [named] at run
      cases defined : state.scope.symbols.define (String.ofList label) state.cursor with
      | error existing =>
          simp only [defined] at run
          cases run
      | ok symbols =>
          simp only [defined] at run
          cases run
          exact ⟨symbols, SymbolTable.extends_of_define defined, rfl⟩

/-- A line is read by reading its statement, with its label among the symbols. -/
theorem readLine_ok (run : readLine source line state = .ok () after) :
    ∃ symbols, state.scope.symbols.Extends symbols ∧
      readStatement source line.place (splitLabel (stripComment line.text)).2
        (state.withSymbols symbols) = .ok () after := by
  rw [readLine] at run
  rcases parts : splitLabel (stripComment line.text) with ⟨_ | label, statement⟩
  · rw [parts] at run
    exact ⟨state.scope.symbols, id, run⟩
  · rw [parts] at run
    obtain ⟨_, between, labelled, read⟩ := run_bind_eq_ok.mp run
    obtain ⟨symbols, known, rfl⟩ := defineLabel_ok labelled
    exact ⟨symbols, known, read⟩

/-- A statement with the mnemonic of an instruction is read as one. -/
theorem readStatement_of_form {place : SourceLine} {statement mnemonic : List Char}
    {operands : List (List Char)} {form : Form}
    (words : splitStatement statement = (mnemonic, operands))
    (operation : Form.ofMnemonic? (String.ofList (Text.upper mnemonic)) = some form) :
    readStatement source place statement = (do
      emit place (← ofExcept
        ((← get).scope.statement (String.ofList (Text.upper mnemonic)) operands))) := by
  have undotted := Form.undotted_of_ofMnemonic? operation
  rw [Form.Undotted, String.toList_ofList] at undotted
  have nonempty : mnemonic ≠ [] := by
    rintro rfl
    cases undotted
  have undirected : (Text.upper mnemonic).head? ≠ some '.' := by
    intro dot
    rw [dot] at undotted
    cases undotted
  rw [readStatement, words]
  simp only [if_neg nonempty, if_neg undirected]

/-- A statement with the mnemonic of an instruction emits the instruction. -/
theorem readStatement_ok {place : SourceLine} {statement mnemonic : List Char}
    {operands : List (List Char)} {form : Form}
    (words : splitStatement statement = (mnemonic, operands))
    (operation : Form.ofMnemonic? (String.ofList (Text.upper mnemonic)) = some form)
    (run : readStatement source place statement state = .ok () after) :
    ∃ emission,
      state.scope.statement (String.ofList (Text.upper mnemonic)) operands = .ok emission ∧
        after = state.append place emission emission.instruction.canonicalEncoding := by
  rw [readStatement_of_form words operation, run_get_bind] at run
  cases given : state.scope.statement (String.ofList (Text.upper mnemonic)) operands with
  | error failure =>
      rw [given] at run
      cases run
  | ok emission =>
      have encoded := Instruction.encoding_of_wellFormed (Scope.sound_of_statement given).wellFormed
      rw [given] at run
      obtain ⟨_, _, same, emits⟩ := run_bind_eq_ok.mp run
      cases same
      simp only [emit, encoded] at emits
      cases emits
      exact ⟨emission, rfl, rfl⟩

/-! ## Where it is found -/

section Final

variable {boundary : Nat} {read : Assembler} {code : Code}
  (row : Patch.Row boundary state.code state.patches.toList)
  (untouched : Patch.Untouched read.patches.toList read.code code)
include row untouched

/-- Bytes that come without a patch stay. No patch reaches into them, since they come behind all
patches so far and all others come behind them. -/
theorem prefix_of_append {bytes : List UInt8} (appended : after.code = state.code.append bytes)
    (same : after.patches.toList = state.patches.toList) (reads : Reads after read) :
    bytes <+: code.bytes.toList.drop state.code.size := by
  obtain ⟨⟨⟨more, grown⟩, later, patches, beyond⟩, _⟩ := reads
  have stood : read.code.bytes.toList = state.code.bytes.toList ++ (bytes ++ more) := by
    rw [grown, Code.toList_append, appended, Code.toList_append, List.append_assoc]
  rw [List.prefix_iff_getElem?]
  intro place inside
  have kept : code.bytes[state.code.size + place]? = read.code.bytes[state.code.size + place]? := by
    refine untouched.outside _ fun patch stands => ?_
    rw [patches, same] at stands
    rcases List.mem_append.mp stands with old | new
    · have ends := (row.fits patch old).finish_le
      omega
    · have starts : after.code.size ≤ patch.layout.start := beyond.inside patch new
      rw [appended, Code.size_append] at starts
      omega
  have behind : state.code.size + place - state.code.bytes.toList.length = place := by
    rw [Array.length_toList, Code.size]
    omega
  rw [List.getElem?_drop, Array.getElem?_toList, kept, ← Array.getElem?_toList, stood,
    List.getElem?_append_right (by rw [Array.length_toList, Code.size]; omega), behind,
    List.getElem?_append_left inside, List.getElem?_eq_getElem inside]

variable {place : SourceLine} {emission : Emission} (sound : emission.Sound)
  (reads : Reads (state.append place emission emission.instruction.canonicalEncoding) read)
  (filled : ∀ patch ∈ read.patches.toList, patch.Filled read.scope.symbols read.code code)
include sound reads filled

omit row untouched in
/-- The label that an emission waits for has an address in the end. -/
theorem known_of_append : ∀ label ∈ emission.forward,
    ∃ address, read.scope.symbols.address? label = some address ∧ address.toNat ≤ 0xFFFF ∧
      Holds code.bytes state.code.size
        (emission.instruction.canonicalEncoding.patched emission.instruction.opcode.format
          (UInt16.ofNat address.toNat)).words := by
  intro label waits
  have waits : emission.forward = some label := waits
  let encoding := emission.instruction.canonicalEncoding
  let patch : Patch :=
    { label, place
      layout := Layout.ofEncoding state.code.size encoding
      format := emission.instruction.opcode.format }
  obtain ⟨⟨⟨bytes, grown⟩, later, patches, beyond⟩, _⟩ := reads
  have denotes : encoding.Denotes emission.instruction :=
    Instruction.canonicalEncoding_denotes sound.wellFormed
  have stood : Holds read.code.bytes state.code.size encoding.words := by
    rw [grown]
    exact Holds.append (state.code.holds_append _) encoding.words_ne_nil bytes
  have starts : patch.layout.start = state.code.size := Layout.start_ofEncoding _ _
  have listed : patch ∈ read.patches.toList := by
    rw [patches, append, waits]
    simp only [Option.map_some, Option.toList_some, Array.toList_appendList]
    exact List.mem_append_left _ (List.mem_append_right _ List.mem_cons_self)
  obtain ⟨instruction, encoded, address, describes, known, small, before, stands⟩ :=
    filled patch listed
  rw [starts] at before stands
  have same : instruction = emission.instruction := by
    have fetched := fetch_of_holds describes.denotes before
    rw [fetch_of_holds denotes stood] at fetched
    exact (Fetched.instruction.inj (EStateM.Result.ok.inj fetched).1).symm
  -- The words of an instruction can differ in the extension of its immediate only, and that is
  -- replaced.
  have patched : encoded.patched patch.format (UInt16.ofNat address.toNat) =
      encoding.patched patch.format (UInt16.ofNat address.toNat) := by
    rw [Encoding.patched, Encoding.patched, describes.denotes.word, describes.denotes.registers,
      same]
    rfl
  rw [patched] at stands
  exact ⟨address, known, small, stands⟩

/-- **Wherever an emission was appended, its words stand in the end**, with the address of the label
if it waits for one. -/
theorem holds_of_append :
    Holds code.bytes state.code.size (emission.settled read.scope.symbols).words := by
  rw [Emission.settled]
  cases waits : emission.forward with
  | none =>
      refine Holds.iff_prefix.mpr (prefix_of_append row untouched rfl ?_ reads)
      rw [append, waits]
      simp only [Option.map_none, Option.toList_none, Array.toList_appendList, List.append_nil]
  | some label =>
      obtain ⟨address, known, -, stands⟩ := known_of_append sound reads filled label waits
      rw [Option.bind_some, known]
      exact stands

end Final

/-- **Each instruction that a text states is found in the assembled bytes.** It is found where the
code ended when the line was read, with the address of the label if it had to wait for one. -/
theorem fetch_of_visits (calls : List Call) (source : Source) (allowance : Nat)
    {bytes : Array UInt8} {final : Assembler}
    (run : assembleAll source allowance (afterCalls calls) = .ok bytes final)
    (visits : Visits source (afterCalls calls) state line) {mnemonic : List Char}
    {operands : List (List Char)} {form : Form} (words : line.words = (mnemonic, operands))
    (operation : Form.ofMnemonic? (String.ofList (Text.upper mnemonic)) = some form) :
    ∃ symbols emission found next, symbols.Extends final.scope.symbols ∧
      (state.withSymbols symbols).scope.statement (String.ofList (Text.upper mnemonic)) operands =
        .ok emission ∧
      emission.Becomes final.scope.symbols found ∧
      fetch ByteReader.next ⟨bytes, state.code.size⟩ = .ok (.instruction found) next := by
  obtain ⟨read, filled, reading, resolving, rfl, rfl⟩ := assembleAll_eq_ok run
  obtain ⟨reads, after, line_read, more⟩ := visits.reads reading
  obtain ⟨symbols, _, statement_read⟩ := readLine_ok line_read
  obtain ⟨emission, given, rfl⟩ := readStatement_ok words operation statement_read
  have sound := Scope.sound_of_statement given
  obtain ⟨boundary, session⟩ := Session.sound_afterCalls calls
  rw [← Session.assembler_afterCalls] at reads
  have line_reads := (ends_readLine state source line).step_of_ok line_read
  have row := (session.reads reads).pending
  have whole := (session.reads (Reads.chains.trans reads (Reads.chains.trans line_reads more))).pending
  obtain ⟨code, rfl, untouched, allFilled⟩ :=
    @resolvePatches_ok read.patches.toList { read with patches := #[] } filled whole.fits
      whole.apart resolving
  have stands := @holds_of_append (state.withSymbols symbols) boundary read code row untouched
    line.place emission sound more allFilled
  have known := @known_of_append (state.withSymbols symbols) read code line.place emission sound
    more allFilled
  have becomes := Emission.becomes_resolved fun label waits => by
    obtain ⟨address, found, small, -⟩ := known label waits
    exact ⟨address, found, small⟩
  exact ⟨symbols, emission, _, _, more.symbols, given, becomes,
    fetch_of_holds sound.denotes_settled stands⟩

end Assembler
end WordMachine
