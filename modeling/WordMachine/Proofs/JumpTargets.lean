import WordMachine.Machine.Run
import WordMachine.Proofs.CallNesting
import WordMachine.Proofs.EmittedStatements

/-!
# Jumps to labels

An absolute jump or a call is written with a label for its immediate. If the label is known by then
its address goes into the instruction at once, otherwise the instruction waits for it. In either
case the instruction that stands in the assembled bytes has the address for its immediate
(`Assembler.JumpsTo.fetches`); an address that an immediate cannot hold is refused.

The machine reads an immediate with its sign (`Core.extendedImmediate_ofNat`). So the jump goes to
the label if the address of the label is below `0x8000`. From there on it goes to the address with
all higher bits set (`Assembler.jumps_reach_labels`), which is another one
(`Assembler.jump_misses_label`).
-/

set_option autoImplicit false

namespace WordMachine

open Assembly

/-! ## Names are no numbers -/

namespace Assembly

theorem isDigit_of_startsIdentifier {c : Char} (starts : startsIdentifier c = true) :
    c.isDigit = false := by
  rw [startsIdentifier, Bool.or_eq_true_iff, beq_iff_eq] at starts
  rcases starts with letter | rfl
  · have either : (c.isUpper || c.isLower) = true := letter
    have above : 'A'.val ≤ c.val := by
      rcases Bool.or_eq_true_iff.mp either with upper | lower
      · exact (of_decide_eq_true upper).1
      · have small := of_decide_eq_true (Bool.and_eq_true_iff.mp lower).1
        exact UInt32.le_trans (by decide) small
    have beyond : ¬ c.val ≤ '9'.val := fun below =>
      absurd (UInt32.le_trans above below) (by decide)
    have digit : c.isDigit = (decide (c.val ≥ '0'.val) && decide (c.val ≤ '9'.val)) := rfl
    rw [digit, decide_eq_false beyond, Bool.and_false]
  · rfl

theorem integer?_of_isIdentifier {name : List Char} (named : isIdentifier name = true) :
    integer? name = none := by
  cases name with
  | nil => rfl
  | cons first rest =>
      have starts : startsIdentifier first = true := (Bool.and_eq_true_iff.mp named).1
      have letter := isDigit_of_startsIdentifier starts
      have unsigned : first ≠ '-' := by
        rintro rfl
        cases starts
      have nonzero : first ≠ '0' := by
        rintro rfl
        cases starts
      have digit : isDigitOf 10 first = false := by
        have large : ¬ digitValue first < 10 := by
          rw [digitValue, if_neg (by rw [letter]; exact Bool.false_ne_true)]
          omega
        rw [isDigitOf, decide_eq_false large, Bool.and_false]
      have decimal : splitRadix (first :: rest) = (10, first :: rest) := by
        rw [splitRadix]
        intro letter more same
        exact nonzero (List.cons.inj same).1
      have magnitude : magnitude? (first :: rest) = none := by
        rw [magnitude?, decimal]
        dsimp only
        rw [if_neg]
        rintro ⟨_, digits, _⟩
        rw [List.all_cons, digit] at digits
        cases digits
      rw [integer?]
      · rw [magnitude]
        rfl
      · intro more same
        exact unsigned (List.cons.inj same).1

/-! ## What a jump is read as -/

/-- The immediate refers to a label: it is the address of the label, or waits for it. -/
inductive Immediate.Refers (symbols : SymbolTable) (label : String) : Immediate → Prop where
  | known {address : UInt32} (defined : symbols.address? label = some address)
      (small : address.toNat ≤ 0xFFFF) :
      Refers symbols label (.value (UInt16.ofNat address.toNat))
  | waiting : Refers symbols label (.forward label)

/-- The emission of an instruction with an immediate that refers to a label. -/
inductive Emission.RefersTo (symbols : SymbolTable) (label : String) (opcode : Opcode)
    (operands : UInt16 → Operands) : Emission → Prop where
  | given {immediate : Immediate} (refers : immediate.Refers symbols label) :
      RefersTo symbols label opcode operands (.ofImmediate opcode operands immediate)

namespace Scope

variable {scope : Scope}

theorem gives_immediate_of_named {text name : List Char} (expands : scope.expand text = .ok name)
    (named : isIdentifier name = true) :
    Gives (Immediate.Refers scope.symbols (String.ofList name)) (scope.immediate text) := by
  have unnumbered := integer?_of_isIdentifier named
  simp only [immediate, expands, bind, Except.bind, unnumbered, named, Bool.not_true,
    Bool.false_eq_true, if_false]
  cases found : scope.symbols.address? (String.ofList name) with
  | none => exact Immediate.Refers.waiting
  | some address =>
      dsimp only
      by_cases beyond : (address.toNat : Int) < 0 ∨ greatestImmediate < address.toNat
      · rw [checkRange, if_pos beyond]
        trivial
      · rw [checkRange, if_neg beyond]
        rw [greatestImmediate] at beyond
        have refers := Immediate.Refers.known found (by omega)
        rwa [← ofInt_natCast] at refers

theorem gives_statement_of_named {mnemonic : String} {opcode : Opcode}
    {first target second name : List Char} {flag adjust : Register}
    (operation : Form.ofMnemonic? mnemonic = some (.plain opcode))
    (format : opcode.format = .immRegReg) (tested : scope.register first = .ok flag)
    (expands : scope.expand target = .ok name) (named : isIdentifier name = true)
    (added : scope.register second = .ok adjust) :
    Gives (Emission.RefersTo scope.symbols (String.ofList name) opcode (.immRegReg · adjust flag))
      (scope.statement mnemonic [first, target, second]) := by
  have whole : scope.statement mnemonic [first, target, second] =
      scope.plainStatement mnemonic opcode [first, target, second] := by
    simp only [statement, operation]
  have first_read : Gives (· = flag) (scope.register first) := by
    rw [tested]
    rfl
  have second_read : Gives (· = adjust) (scope.register second) := by
    rw [added]
    rfl
  rw [whole]
  refine Gives.bind (gives_expectOperands _ _ _) fun _ _ => ?_
  simp only [format]
  refine Gives.bind first_read fun ra same => ?_
  refine Gives.bind (gives_immediate_of_named expands named) fun immediate refers => ?_
  refine Gives.bind second_read fun rb same' => ?_
  rw [same, same']
  exact Emission.RefersTo.given refers

end Scope

/-- The instruction that stands for such an emission has the address of the label. -/
theorem Emission.RefersTo.becomes {before after : SymbolTable} {label : String} {opcode : Opcode}
    {flag adjust : Register} {emission : Emission} {found : Instruction}
    (refers : emission.RefersTo before label opcode (.immRegReg · adjust flag))
    (known : before.Extends after) (becomes : emission.Becomes after found) :
    ∃ address, after.address? label = some address ∧ address.toNat ≤ 0xFFFF ∧
      found = ⟨opcode, .immRegReg (UInt16.ofNat address.toNat) adjust flag⟩ := by
  cases refers with
  | given refers =>
      cases refers with
      | @known address defined small =>
          cases becomes with
          | emitted waits => exact ⟨address, known defined, small, rfl⟩
          | filled waits => cases waits
      | waiting =>
          cases becomes with
          | emitted waits => cases waits
          | @filled label address waits defined small =>
              cases waits
              exact ⟨address, defined, small, rfl⟩

end Assembly

namespace Opcode

/-- Whether an operation is an absolute jump or a call. -/
def leaps : Opcode → Bool
  | jabs _ | call _ => true
  | _ => false

theorem format_of_leaps {opcode : Opcode} (leaps : opcode.leaps = true) :
    opcode.format = .immRegReg := by
  cases opcode with
  | jabs condition | call condition => rfl
  | _ => cases leaps

end Opcode

namespace Assembler

/-- In a state, a line says to jump to a label or to call it if a flag meets the condition. What is
added to the address of the label is the register that is always zero. -/
inductive JumpsTo (state : Assembler) (line : LogicalLine) (opcode : Opcode)
    (flag adjust : Register) (name : List Char) : Prop where
  | written {mnemonic first target second : List Char}
      (words : line.words = (mnemonic, [first, target, second]))
      (operation : Form.ofMnemonic? (String.ofList (Text.upper mnemonic)) = some (.plain opcode))
      (leaps : opcode.leaps = true) (tested : state.scope.register first = .ok flag)
      (expands : state.scope.expand target = .ok name) (named : isIdentifier name = true)
      (added : state.scope.register second = .ok adjust) (zero : adjust.index = 0) :
      JumpsTo state line opcode flag adjust name

variable {state final : Assembler} {line : LogicalLine} {opcode : Opcode} {flag adjust : Register}
  {name : List Char} {source : Source} {bytes : Array UInt8}

theorem JumpsTo.index_adjust (jumps : JumpsTo state line opcode flag adjust name) :
    adjust.index = 0 := by
  cases jumps with
  | written words operation leaps tested expands named added zero => exact zero

/-- **A jump has the address of its label for an immediate**, wherever the label is defined. -/
theorem JumpsTo.fetches (jumps : JumpsTo state line opcode flag adjust name) (calls : List Call)
    (allowance : Nat) (run : assembleAll source allowance (afterCalls calls) = .ok bytes final)
    (visits : Visits source (afterCalls calls) state line) :
    ∃ address next,
      final.scope.symbols.address? (String.ofList name) = some address ∧ address.toNat ≤ 0xFFFF ∧
      fetch ByteReader.next ⟨bytes, state.code.size⟩ =
        .ok (.instruction ⟨opcode, .immRegReg (UInt16.ofNat address.toNat) adjust flag⟩) next := by
  cases jumps with
  | @written mnemonic first target second words operation leaps tested expands named added zero =>
      obtain ⟨symbols, emission, found, next, known, given, becomes, fetched⟩ :=
        fetch_of_visits calls source allowance run visits words operation
      have refers : Gives
          (Emission.RefersTo symbols (String.ofList name) opcode (.immRegReg · adjust flag))
          ((state.withSymbols symbols).scope.statement (String.ofList (Text.upper mnemonic))
            [first, target, second]) :=
        Scope.gives_statement_of_named operation (Opcode.format_of_leaps leaps) tested expands named
          added
      rw [given] at refers
      obtain ⟨address, defined, small, rfl⟩ := Emission.RefersTo.becomes refers known becomes
      exact ⟨address, next, defined, small, fetched⟩

end Assembler

/-! ## Where a jump goes -/

namespace Core

variable {core : Core}

/-- Here a jump or call is taken: its condition holds, and if it is a call the return address can be
pushed. -/
inductive Taken (core : Core) : Instruction → Prop where
  | jump {condition : Condition} {value : UInt16} {adjust flag : Register}
      (holds : condition.holds (core.registers.readSigned flag) = true) :
      Taken core ⟨.jabs condition, .immRegReg value adjust flag⟩
  | call {condition : Condition} {value : UInt16} {adjust flag : Register}
      (holds : condition.holds (core.registers.readSigned flag) = true)
      (room : core.memory.flat.Covers (core.top - 4) 4) :
      Taken core ⟨.call condition, .immRegReg value adjust flag⟩

theorem Taken.run {opcode : Opcode} {value : UInt16} {adjust flag : Register}
    (taken : core.Taken ⟨opcode, .immRegReg value adjust flag⟩) (zero : adjust.index = 0) :
    ∃ after, executeHere ⟨opcode, .immRegReg value adjust flag⟩ core = .ok () after ∧
      after.pointer = extendedImmediate value := by
  obtain ⟨index, width⟩ := adjust
  obtain rfl : index = 0 := zero
  have nothing : signedImmediate value + core.registers.readSigned ⟨0, width⟩ =
      signedImmediate value := by
    rw [RegisterFile.readSigned_zero, Int.add_zero]
  cases taken with
  | @jump condition _ _ _ holds =>
      have tested : readSigned flag core = .ok (core.registers.readSigned flag) core := rfl
      refine ⟨{ core with pointer := extendedImmediate value }, ?_, rfl⟩
      simp only [executeHere_run, execute, executeImmRegReg]
      rw [run_bind_of_ok tested, if_pos holds, extendedImmediate, ← nothing]
      rfl
  | @call condition _ _ _ holds room =>
      obtain ⟨after, run, pointer, _⟩ := @call_run core condition value ⟨0, width⟩ flag holds room
      rw [nothing] at pointer
      exact ⟨after, run, pointer⟩

/-- An address as an immediate is read as this address if it is small, else with all higher bits
set. -/
theorem extendedImmediate_ofNat {address : UInt32} (small : address.toNat ≤ 0xFFFF) :
    extendedImmediate (.ofNat address.toNat) =
      if address < 0x8000 then address else address + 0xFFFF0000 := by
  have held : (UInt16.ofNat address.toNat).toNat = address.toNat := by
    rw [UInt16.toNat_ofNat']
    omega
  have bound : (0x8000 : UInt32).toNat = 0x8000 := rfl
  split
  · rename_i low
    rw [UInt32.lt_iff_toNat_lt, bound] at low
    rw [extendedImmediate_of_small (by omega), held, UInt32.ofNat_toNat]
  · rename_i high
    rw [UInt32.lt_iff_toNat_lt, bound] at high
    have signed : signedImmediate (.ofNat address.toNat) = (address.toNat : Int) - 0x10000 := by
      unfold signedImmediate
      rw [held, Int.bmod_def]
      split <;> omega
    have upper : (0xFFFF0000 : UInt32).toNat = 0xFFFF0000 := by decide
    rw [extendedImmediate, signed, UInt32.ofInt, ← UInt32.toNat_inj, UInt32.toNat_ofNat',
      UInt32.toNat_add, upper]
    omega

end Core

namespace Assembler

/-- **A jump or call to a label goes to the address of the label with its sign extended.** This holds
for every instruction that a text states if the text assembles, whether the label is defined before
or behind it, and for every machine in which the instruction is taken. The machine gets to the label
itself if the address of the label is below `0x8000`. -/
theorem jumps_reach_labels (calls : List Call) (source : Source) (allowance : Nat)
    {bytes : Array UInt8} {final state : Assembler} {line : LogicalLine} {opcode : Opcode}
    {flag adjust : Register} {name : List Char}
    (run : assembleAll source allowance (afterCalls calls) = .ok bytes final)
    (visits : Visits source (afterCalls calls) state line)
    (jumps : JumpsTo state line opcode flag adjust name) :
    ∃ address next,
      final.scope.symbols.address? (String.ofList name) = some address ∧ address.toNat ≤ 0xFFFF ∧
      let found : Instruction := ⟨opcode, .immRegReg (UInt16.ofNat address.toNat) adjust flag⟩
      fetch ByteReader.next ⟨bytes, state.code.size⟩ = .ok (.instruction found) next ∧
      ∀ machine : Machine, machine.core.Taken found →
        ∃ after, machine.perform (Core.executeHere found) = (.ok (), after) ∧
          after.core.pointer = if address < 0x8000 then address else address + 0xFFFF0000 := by
  obtain ⟨address, next, defined, small, fetched⟩ := jumps.fetches calls allowance run visits
  refine ⟨address, next, defined, small, fetched, fun machine taken => ?_⟩
  obtain ⟨after, executed, pointer⟩ := taken.run jumps.index_adjust
  rw [Core.extendedImmediate_ofNat small] at pointer
  refine ⟨{ machine with core := after }, ?_, pointer⟩
  rw [Machine.perform, executed]

/-- A call of a label that is defined behind it. -/
def callAhead : List Call :=
  [.loadSource unnamedText "CALL.Z %R0, END, %R0\nEND:"]

/-- The bytes of the call, with an empty extension. -/
def callBytes : Array UInt8 := #[0xE0, 0x00, 0x5D, 0x00]

/-- The line with the call. -/
def callLine : LogicalLine :=
  ⟨⟨unnamedText, 1⟩, "CALL.Z %R0, END, %R0".toList⟩

/-- The state in which the call is read. -/
def callState : Assembler :=
  { afterCalls callAhead with queue := [⟨⟨unnamedText, 2⟩, "END:".toList⟩] }

theorem jumps_reach_labels_callAhead :
    ∃ final,
      assembleAll (FileTree.empty.toSource []) 0 (afterCalls callAhead) = .ok callBytes final ∧
      Visits (FileTree.empty.toSource []) (afterCalls callAhead) callState callLine ∧
      JumpsTo callState callLine (.call .zero) ⟨0, .word⟩ ⟨0, .word⟩ "END".toList ∧
      ∃ address next,
        final.scope.symbols.address? (String.ofList "END".toList) = some address ∧
        address.toNat ≤ 0xFFFF ∧
        let found : Instruction :=
          ⟨.call .zero, .immRegReg (UInt16.ofNat address.toNat) ⟨0, .word⟩ ⟨0, .word⟩⟩
        fetch ByteReader.next ⟨callBytes, callState.code.size⟩ = .ok (.instruction found) next ∧
        ∀ machine : Machine, machine.core.Taken found →
          ∃ after, machine.perform (Core.executeHere found) = (.ok (), after) ∧
            after.core.pointer = if address < 0x8000 then address else address + 0xFFFF0000 := by
  have evaluated :
      passes (fun bytes _ => bytes == callBytes)
        (assembleAll (FileTree.empty.toSource []) 0 (afterCalls callAhead)) = true := by
    decide +kernel
  obtain ⟨bytes, final, run, same⟩ := exists_of_passes evaluated
  obtain rfl := eq_of_beq same
  have visits : Visits (FileTree.empty.toSource []) (afterCalls callAhead) callState callLine :=
    .here (by decide +kernel)
  have jumps : JumpsTo callState callLine (.call .zero) ⟨0, .word⟩ ⟨0, .word⟩ "END".toList := by
    refine @JumpsTo.written _ _ _ _ _ _ "CALL.Z".toList "%R0".toList "END".toList "%R0".toList
      ?_ ?_ ?_ ?_ ?_ ?_ ?_ ?_
    all_goals decide +kernel
  exact ⟨final, run, visits, jumps,
    jumps_reach_labels callAhead (FileTree.empty.toSource []) 0 run visits jumps⟩

/-- A jump to a label that an origin moves to the upper half of what an immediate can hold. -/
def distantJump : List Call :=
  [.loadSource unnamedText "JABS.Z %R0, far, %R0\n.ORG 0x8000\nfar:"]

/-- The bytes of the jump. -/
def distantBytes : Array UInt8 := #[0xF0, 0x00, 0x17, 0x00]

/-- The line with the jump. -/
def distantLine : LogicalLine :=
  ⟨⟨unnamedText, 1⟩, "JABS.Z %R0, far, %R0".toList⟩

/-- The state in which the jump is read. -/
def distantState : Assembler :=
  { afterCalls distantJump with
    queue := [⟨⟨unnamedText, 2⟩, ".ORG 0x8000".toList⟩, ⟨⟨unnamedText, 3⟩, "far:".toList⟩] }

/-- **A jump can miss its label**: the address where the machine goes on need not be the one that
the label has. -/
theorem jump_misses_label :
    ¬ ∀ (calls : List Call) (source : Source) (allowance : Nat) (bytes : Array UInt8)
        (final state : Assembler) (line : LogicalLine) (opcode : Opcode) (flag adjust : Register)
        (name : List Char),
      assembleAll source allowance (afterCalls calls) = .ok bytes final →
      Visits source (afterCalls calls) state line →
      JumpsTo state line opcode flag adjust name →
      ∃ found address next,
        final.scope.symbols.address? (String.ofList name) = some address ∧
        fetch ByteReader.next ⟨bytes, state.code.size⟩ = .ok (.instruction found) next ∧
        ∀ machine : Machine, machine.core.Taken found →
          ∃ after, machine.perform (Core.executeHere found) = (.ok (), after) ∧
            after.core.pointer = address := by
  intro claimed
  have evaluated :
      passes
        (fun bytes final =>
          bytes == distantBytes && final.scope.symbols.address? "far" == some 0x8004)
        (assembleAll (FileTree.empty.toSource []) 0 (afterCalls distantJump)) = true := by
    decide +kernel
  obtain ⟨bytes, final, run, same⟩ := exists_of_passes evaluated
  rw [Bool.and_eq_true] at same
  obtain rfl := eq_of_beq same.1
  have visits : Visits (FileTree.empty.toSource []) (afterCalls distantJump) distantState
      distantLine :=
    .here (by decide +kernel)
  have jumps : JumpsTo distantState distantLine (.jabs .zero) ⟨0, .word⟩ ⟨0, .word⟩ "far".toList := by
    refine @JumpsTo.written _ _ _ _ _ _ "JABS.Z".toList "%R0".toList "far".toList "%R0".toList
      ?_ ?_ ?_ ?_ ?_ ?_ ?_ ?_
    all_goals decide +kernel
  obtain ⟨found, address, next, defined, fetched, goes⟩ :=
    claimed distantJump _ 0 distantBytes final distantState distantLine _ _ _ _ run visits jumps
  have decoded :
      passes
        (fun found _ =>
          found == .instruction ⟨.jabs .zero, .immRegReg 0x8004 ⟨0, .word⟩ ⟨0, .word⟩⟩)
        (fetch ByteReader.next ⟨distantBytes, distantState.code.size⟩) = true := by
    decide +kernel
  rw [fetched] at decoded
  obtain rfl := Fetched.instruction.inj (eq_of_beq decoded)
  obtain rfl := Option.some.inj (defined.symm.trans (eq_of_beq same.2))
  have taken : (Machine.standard ⟨[]⟩).core.Taken
      ⟨.jabs .zero, .immRegReg 0x8004 ⟨0, .word⟩ ⟨0, .word⟩⟩ :=
    .jump (by decide)
  obtain ⟨after, performed, there⟩ := goes (.standard ⟨[]⟩) taken
  obtain ⟨core, executed, pointer⟩ := taken.run rfl
  rw [Machine.perform, executed] at performed
  cases performed
  exact absurd (pointer.symm.trans there) (by decide)

end Assembler
end WordMachine
