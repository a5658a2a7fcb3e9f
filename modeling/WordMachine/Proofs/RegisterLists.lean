import WordMachine.Proofs.MacroChains
import WordMachine.Proofs.OperandOrder
import WordMachine.Proofs.TransfersInTurn

/-!
# Register lists from the text to the machine

A register list is written in any order, with repetitions and through macros. What it means is a
set: it is accepted if there is at least one operand and each stands for a register of the mnemonic's
view that is not the zero register, and then the mask of the instruction has just the bits of these
registers. The bit of the zero register, which no list can set, is the flag of the mnemonic
(`Assembly.Scope.listStatement_eq_ok_iff`, `RegisterList.lists_maskOf`).

So lists of the same registers give the same bytes, and the machine that comes to these bytes
transfers the registers of the list, each once, in the order of their indices and not in that of the
text (`Assembly.ListLine.means_registers`).
-/

set_option autoImplicit false

namespace WordMachine

open Assembly

/-! ## Masks -/

namespace RegisterList

/-- A mask with the bits of these registers, and a flag in the bit of the zero register. -/
def maskOf (indices : List (Fin 16)) (flag : Bool) : UInt16 :=
  indices.foldl (fun mask index => mask ||| bit index) 0 ||| if flag then 1 else 0

variable {indices : List (Fin 16)} {flagged : Bool}

theorem testBit_maskOf (indices : List (Fin 16)) (flagged : Bool) (place : Nat) :
    (maskOf indices flagged).toNat.testBit place =
      ((indices.any fun index => index.val == place) || (decide (place = 0) && flagged)) := by
  rw [maskOf, UInt16.toNat_or, Nat.testBit_or, testBit_foldl, UInt16.toNat_zero, Nat.zero_testBit,
    Bool.false_or, testBit_low]

/-- **A mask lists the registers it was made of.** -/
theorem lists_maskOf {index : Fin 16} (proper : index ≠ 0) :
    lists (maskOf indices flagged) index = true ↔ index ∈ indices := by
  have above : decide (index.val = 0) = false := decide_eq_false fun zero => proper (Fin.ext zero)
  rw [lists, testBit_maskOf, above, Bool.false_and, Bool.or_false, List.any_eq_true]
  constructor
  · rintro ⟨other, member, same⟩
    rwa [← Fin.ext (beq_iff_eq.mp same)]
  · exact fun member => ⟨index, member, beq_self_eq_true _⟩

theorem flag_maskOf (proper : 0 ∉ indices) : flag (maskOf indices flagged) = flagged := by
  have clear : (indices.any fun index => index.val == 0) = false := by
    rw [List.any_eq_false]
    intro index member same
    obtain rfl : index = 0 := Fin.ext (beq_iff_eq.mp same)
    exact proper member
  rw [flag, lists, testBit_maskOf, Fin.val_zero, clear, Bool.false_or]
  rfl

/-- Masks that list the same registers and have the same flag are the same. -/
theorem eq_of_lists {one other : UInt16} (flags : flag one = flag other)
    (registers : ∀ index, index ≠ 0 → (lists one index = true ↔ lists other index = true)) :
    one = other := by
  have same : ∀ index : Fin 16, one.toNat.testBit index.val = other.toNat.testBit index.val := by
    intro index
    by_cases zero : index = 0
    · subst zero
      exact flags
    · exact Bool.eq_iff_iff.mpr (registers index zero)
  apply UInt16.toNat_inj.mp
  apply Nat.eq_of_testBit_eq
  intro place
  rcases Nat.lt_or_ge place 16 with inside | beyond
  · exact same ⟨place, inside⟩
  · have clear (mask : UInt16) : mask.toNat.testBit place = false :=
      eq_false_of_ne_true fun set => Nat.not_lt.mpr beyond (lt_of_testBit set)
    rw [clear, clear]

end RegisterList

/-! ## Related lists -/

section Related

variable {α β : Type} {related : α → β → Prop} {texts : List α} {values : List β}

theorem exists_forall₂_iff :
    (∃ values, List.Forall₂ related texts values) ↔ ∀ text ∈ texts, ∃ value, related text value := by
  induction texts with
  | nil => exact iff_of_true ⟨[], .nil⟩ fun _ absent => absurd absent List.not_mem_nil
  | cons text rest ih =>
      rw [List.forall_mem_cons, ← ih]
      constructor
      · rintro ⟨values, whole⟩
        cases whole with
        | cons first later => exact ⟨⟨_, first⟩, ⟨_, later⟩⟩
      · rintro ⟨⟨value, first⟩, ⟨values, later⟩⟩
        exact ⟨value :: values, .cons first later⟩

/-- What is related to the members of a list is the members of the other, if it is unique. -/
theorem mem_iff_of_forall₂ (unique : Relator.RightUnique related)
    (whole : List.Forall₂ related texts values) {value : β} :
    value ∈ values ↔ ∃ text ∈ texts, related text value := by
  induction whole with
  | nil => simp
  | @cons text first rest others here later ih =>
      rw [List.mem_cons, ih, List.exists_mem_cons_iff]
      refine or_congr_left ⟨?_, fun again => unique again here⟩
      rintro rfl
      exact here

end Related

/-! ## Operands that name registers -/

namespace Assembly

/-- An operand stands for a text that names a register. -/
def MacroTable.Names (table : MacroTable) (text : List Char) (register : Register) : Prop :=
  ∃ expanded, table.expand? text = some expanded ∧ Register.parse? expanded = some register

theorem MacroTable.Names.unique {table : MacroTable} {text : List Char} {one other : Register}
    (first : table.Names text one) (second : table.Names text other) : one = other := by
  obtain ⟨expanded, expands, named⟩ := first
  obtain ⟨again, same, renamed⟩ := second
  obtain rfl := Option.some.inj (expands.symm.trans same)
  exact Option.some.inj (named.symm.trans renamed)

/-- Operands stand for these registers of a view, one by one, and none is the zero register. -/
def MacroTable.NamesEach (table : MacroTable) (width : Width) (texts : List (List Char))
    (indices : List (Fin 16)) : Prop :=
  List.Forall₂ (fun text index => index ≠ 0 ∧ table.Names text ⟨index, width⟩) texts indices

theorem bind_eq_ok_iff {ε α β : Type} {first : Except ε α} {next : α → Except ε β} {value : β} :
    (first >>= next) = .ok value ↔ ∃ between, first = .ok between ∧ next between = .ok value := by
  cases first with
  | error failure =>
      constructor
      · intro same
        cases same
      · rintro ⟨between, same, -⟩
        cases same
  | ok between =>
      constructor
      · exact fun same => ⟨between, rfl, same⟩
      · rintro ⟨other, same, done⟩
        cases same
        exact done

namespace Scope

variable {scope : Scope} {mnemonic : String} {width : Width} {text : List Char} {index : Fin 16}
  {texts : List (List Char)} {indices : List (Fin 16)}

theorem register_eq_ok_iff {register : Register} :
    scope.register text = .ok register ↔ scope.macros.Names text register := by
  rw [Scope.register, bind_eq_ok_iff, MacroTable.Names]
  refine exists_congr fun expanded => and_congr expand_eq_ok_iff ?_
  cases Register.parse? expanded with
  | none =>
      constructor
      · intro same
        cases same
      · intro same
        cases same
  | some found =>
      constructor
      · intro same
        rw [Except.ok.inj same]
      · intro same
        rw [Option.some.inj same]
        rfl

theorem listed_eq_ok_iff :
    scope.listed mnemonic width text = .ok index ↔
      index ≠ 0 ∧ scope.macros.Names text ⟨index, width⟩ := by
  rw [listed, bind_eq_ok_iff]
  constructor
  · rintro ⟨register, read, checked⟩
    split at checked
    · cases checked
    · rename_i proper
      split at checked
      · cases checked
      · rename_i fits
        cases checked
        obtain rfl := Classical.not_not.mp fits
        exact ⟨proper, register_eq_ok_iff.mp read⟩
  · rintro ⟨proper, names⟩
    refine ⟨⟨index, width⟩, register_eq_ok_iff.mpr names, ?_⟩
    rw [if_neg proper, if_neg (Classical.not_not.mpr rfl)]
    rfl

theorem listedAll_eq_ok_iff :
    scope.listedAll mnemonic width texts = .ok indices ↔
      scope.macros.NamesEach width texts indices := by
  rw [MacroTable.NamesEach]
  induction texts generalizing indices with
  | nil =>
      rw [listedAll, List.forall₂_nil_left_iff]
      constructor
      · intro same
        exact (Except.ok.inj same).symm
      · rintro rfl
        rfl
  | cons text rest ih =>
      rw [listedAll, bind_eq_ok_iff, List.forall₂_cons_left_iff]
      constructor
      · rintro ⟨first, read, later⟩
        obtain ⟨others, found, whole⟩ := bind_eq_ok_iff.mp later
        exact ⟨first, others, listed_eq_ok_iff.mp read, ih.mp found, (Except.ok.inj whole).symm⟩
      · rintro ⟨first, others, read, found, rfl⟩
        refine ⟨first, listed_eq_ok_iff.mpr read, bind_eq_ok_iff.mpr ⟨others, ih.mpr found, rfl⟩⟩

theorem registerMask_eq_ok_iff {mask : UInt16} :
    scope.registerMask mnemonic width texts = .ok mask ↔
      texts ≠ [] ∧ ∃ indices, scope.macros.NamesEach width texts indices ∧
        mask = indices.foldl (fun mask index => mask ||| RegisterList.bit index) 0 := by
  rw [registerMask]
  by_cases empty : texts = []
  · rw [if_pos empty]
    constructor
    · intro same
      cases same
    · exact fun both => absurd empty both.1
  · rw [if_neg empty, bind_eq_ok_iff]
    constructor
    · rintro ⟨indices, read, same⟩
      exact ⟨empty, indices, listedAll_eq_ok_iff.mp read, (Except.ok.inj same).symm⟩
    · rintro ⟨-, indices, found, rfl⟩
      exact ⟨indices, listedAll_eq_ok_iff.mpr found, rfl⟩

end Scope

/-! ## Statements with a register list -/

/-- A statement with a register list, apart from its operands. -/
inductive ListStatement where
  /-- `POP` or `PUSH`, of dwords or words. -/
  | stack (loads dwords : Bool)
  /-- `LDM` or `STM` through one view, with or without the write-back of the base. -/
  | multiple (loads : Bool) (width : Width) (writesBack : Bool)
  deriving DecidableEq, Repr

namespace ListStatement

/-- The mnemonic in capitals. -/
def name : ListStatement → String
  | stack loads dwords => (if loads then "POP" else "PUSH") ++ (if dwords then ".D" else ".W")
  | multiple loads width writesBack =>
      (if loads then "LDM." else "STM.") ++ String.singleton width.letter ++
        (if writesBack then "S" else "")

def loads : ListStatement → Bool
  | stack loads _ => loads
  | multiple loads _ _ => loads

/-- The view that the registers of the list have to be written with. -/
def width : ListStatement → Width
  | stack _ dwords => if dwords then .dword else .word
  | multiple _ width _ => width

/-- What the bit of the zero register says. -/
def flag : ListStatement → Bool
  | stack _ dwords => dwords
  | multiple _ _ writesBack => writesBack

def opcode : ListStatement → Opcode
  | stack loads _ => if loads then .pop else .push
  | multiple loads width _ => if loads then .ldm width else .stm width

/-- What the mnemonic asks for. -/
def form (kind : ListStatement) : Form :=
  match kind with
  | stack _ _ => .stack kind.opcode kind.width
  | multiple _ _ writesBack => .transfer kind.opcode kind.width writesBack

/-- The operands. Only a multiple transfer has its base among them. -/
def operands (list : List (List Char)) (base : List Char) : ListStatement → List (List Char)
  | stack _ _ => list
  | multiple _ _ _ => list ++ [base]

/-- The register that the base is. -/
def HasBase (table : MacroTable) (text : List Char) (register : Register) : ListStatement → Prop
  | stack _ _ => register = Register.stackPointer
  | multiple _ _ _ => table.Names text register

def instruction (mask : UInt16) (base : Register) (kind : ListStatement) : Instruction :=
  match kind with
  | stack _ _ => ⟨kind.opcode, .imm mask⟩
  | multiple _ _ _ => ⟨kind.opcode, .immReg mask base⟩

/-- Whether the base follows what is transferred. A stack pointer always does. -/
def follows : ListStatement → Bool
  | stack _ _ => true
  | multiple _ _ writesBack => writesBack

/-- What the machine is to do. -/
def transfer (base : Register) (kind : ListStatement) : ListTransfer :=
  ⟨kind.loads, kind.width, base, kind.follows⟩

theorem HasBase.unique {kind : ListStatement} {table : MacroTable} {text : List Char}
    {one other : Register} (first : kind.HasBase table text one)
    (second : kind.HasBase table text other) : one = other := by
  cases kind with
  | stack => exact Eq.trans first (Eq.symm second)
  | multiple => exact MacroTable.Names.unique first second

theorem ofMnemonic?_name (kind : ListStatement) :
    Form.ofMnemonic? kind.name = some kind.form := by
  rcases kind with ⟨loads, dwords⟩ | ⟨loads, width, writesBack⟩
  · cases loads <;> cases dwords <;> decide +kernel
  · cases loads <;> cases width <;> cases writesBack <;> decide +kernel

theorem wellFormed_instruction (kind : ListStatement) (mask : UInt16) (base : Register) :
    (kind.instruction mask base).WellFormed := by
  rcases kind with ⟨loads, dwords⟩ | ⟨loads, width, writesBack⟩
  · cases loads <;> rfl
  · cases loads <;> rfl

/-- **The instruction does what its statement says**, if its mask has the flag of the mnemonic. -/
theorem performs_instruction (kind : ListStatement) {table : MacroTable} {text : List Char}
    {mask : UInt16} {base : Register} (flagged : RegisterList.flag mask = kind.flag)
    (based : kind.HasBase table text base) (address : UInt32) (core : Core) :
    (kind.transfer base).Performs ((kind.transfer base).order mask)
      (Core.execute (kind.instruction mask base) address) core := by
  rcases kind with ⟨loads, dwords⟩ | ⟨loads, width, writesBack⟩
  · obtain rfl : base = Register.stackPointer := based
    obtain rfl : RegisterList.flag mask = dwords := flagged
    cases loads with
    | true => exact Core.performs_popList mask core
    | false => exact Core.performs_pushList mask core
  · obtain rfl : RegisterList.flag mask = writesBack := flagged
    cases loads with
    | true => exact Core.performs_loadMultiple width mask base core
    | false => exact Core.performs_storeMultiple width mask base core

end ListStatement

namespace Scope

variable {scope : Scope} {kind : ListStatement} {list : List (List Char)} {base : List Char}
  {emission : Emission}

/-- **What is accepted, and the instruction that it becomes.** -/
theorem listStatement_eq_ok_iff :
    scope.statement kind.name (kind.operands list base) = .ok emission ↔
      list ≠ [] ∧ ∃ indices register, scope.macros.NamesEach kind.width list indices ∧
        kind.HasBase scope.macros base register ∧
        emission = ⟨kind.instruction (RegisterList.maskOf indices kind.flag) register, none⟩ := by
  have operation := kind.ofMnemonic?_name
  rcases kind with ⟨loads, dwords⟩ | ⟨loads, width, writesBack⟩
  · have flag (mask : UInt16) :
        (mask ||| if (ListStatement.stack loads dwords).width = .dword then 1 else 0) =
          mask ||| if dwords then 1 else 0 := by
      cases dwords <;> rfl
    simp only [statement, operation, ListStatement.form, stackStatement, bind_eq_ok_iff,
      registerMask_eq_ok_iff, flag]
    constructor
    · rintro ⟨_, ⟨nonempty, indices, named, rfl⟩, same⟩
      exact ⟨nonempty, indices, _, named, rfl, (Except.ok.inj same).symm⟩
    · rintro ⟨nonempty, indices, register, named, rfl, rfl⟩
      exact ⟨_, ⟨nonempty, indices, named, rfl⟩, rfl⟩
  · have length : (list ++ [base]).length = list.length + 1 := by
      rw [List.length_append, List.length_singleton]
    simp only [statement, operation, ListStatement.form, transferStatement, ListStatement.operands,
      length, List.dropLast_concat, List.getLastD_concat]
    by_cases empty : list = []
    · subst empty
      constructor
      · intro same
        cases same
      · exact fun both => absurd rfl both.1
    · have enough : ¬ list.length + 1 < 2 := by
        have := List.length_pos_iff.mpr empty
        omega
      rw [if_neg enough]
      simp only [bind_eq_ok_iff, registerMask_eq_ok_iff, register_eq_ok_iff]
      constructor
      · rintro ⟨_, ⟨nonempty, indices, named, rfl⟩, register, based, same⟩
        exact ⟨nonempty, indices, register, named, based, (Except.ok.inj same).symm⟩
      · rintro ⟨nonempty, indices, register, named, based, rfl⟩
        exact ⟨_, ⟨nonempty, indices, named, rfl⟩, register, based, rfl⟩

end Scope

/-! ## Lines of text -/

/-- A statement with a register list, and the state in which it is read. -/
structure ListLine where
  kind : ListStatement
  list : List (List Char)
  base : List Char
  mnemonic : List Char
  statement : List Char
  words : splitStatement statement = (mnemonic, kind.operands list base)
  named : String.ofList (Text.upper mnemonic) = kind.name
  source : Source
  place : SourceLine
  state : Assembler

namespace ListLine

/-- An operand stands for the register of this index, seen as the mnemonic asks for. -/
def Names (line : ListLine) (text : List Char) (index : Fin 16) : Prop :=
  line.state.scope.macros.Names text ⟨index, line.kind.width⟩

/-- Some operand of the list does. -/
def Lists (line : ListLine) (index : Fin 16) : Prop :=
  ∃ text ∈ line.list, line.Names text index

def HasBase (line : ListLine) (register : Register) : Prop :=
  line.kind.HasBase line.state.scope.macros line.base register

def outcome (line : ListLine) : EStateM.Result StatementError Assembler Unit :=
  Assembler.readStatement line.source line.place line.statement line.state

/-- The operands stand for these registers, one by one. -/
def Holds (line : ListLine) (indices : List (Fin 16)) : Prop :=
  line.state.scope.macros.NamesEach line.kind.width line.list indices

variable {line : ListLine} {indices : List (Fin 16)} {register : Register} {after : Assembler}

theorem outcome_eq_ok_iff :
    line.outcome = .ok () after ↔
      line.list ≠ [] ∧ ∃ indices register, line.Holds indices ∧ line.HasBase register ∧
        let instruction :=
          line.kind.instruction (RegisterList.maskOf indices line.kind.flag) register
        after = line.state.append line.place ⟨instruction, none⟩ instruction.canonicalEncoding := by
  have operation : Form.ofMnemonic? (String.ofList (Text.upper line.mnemonic)) =
      some line.kind.form := by
    rw [line.named, line.kind.ofMnemonic?_name]
  constructor
  · intro read
    obtain ⟨emission, given, rfl⟩ := Assembler.readStatement_ok line.words operation read
    rw [line.named] at given
    obtain ⟨nonempty, indices, register, holds, based, rfl⟩ :=
      Scope.listStatement_eq_ok_iff.mp given
    exact ⟨nonempty, indices, register, holds, based, rfl⟩
  · rintro ⟨nonempty, indices, register, holds, based, rfl⟩
    have given := Scope.listStatement_eq_ok_iff.mpr ⟨nonempty, indices, register, holds, based, rfl⟩
    have encoded := Instruction.encoding_of_wellFormed
      (line.kind.wellFormed_instruction (RegisterList.maskOf indices line.kind.flag) register)
    rw [outcome, Assembler.readStatement_of_form line.words operation, run_get_bind, line.named,
      given]
    simp only [Assembler.ofExcept, pure_bind, Assembler.emit, encoded]
    rfl

/-- The registers of a list are those that its operands stand for. -/
theorem Holds.mem_iff (holds : line.Holds indices) {index : Fin 16} :
    index ∈ indices ↔ line.Lists index := by
  have members : index ∈ indices ↔ ∃ text ∈ line.list, index ≠ 0 ∧ line.Names text index := by
    refine mem_iff_of_forall₂ (fun text one other first second => ?_) holds
    exact congrArg Register.index (first.2.unique second.2)
  rw [members]
  constructor
  · rintro ⟨text, listed, -, names⟩
    exact ⟨text, listed, names⟩
  · rintro ⟨text, listed, names⟩
    obtain ⟨other, proper, same⟩ := exists_forall₂_iff.mp ⟨indices, holds⟩ text listed
    obtain rfl := congrArg Register.index (names.unique same)
    exact ⟨text, listed, proper, names⟩

theorem Holds.proper (holds : line.Holds indices) : 0 ∉ indices := by
  intro member
  obtain ⟨text, listed, names⟩ := holds.mem_iff.mp member
  obtain ⟨other, proper, same⟩ := exists_forall₂_iff.mp ⟨indices, holds⟩ text listed
  exact proper (congrArg Register.index (same.unique names))

/-- The mask is made of the set that the list means, and of nothing else about the list. -/
theorem Holds.lists_maskOf (holds : line.Holds indices) {index : Fin 16} (proper : index ≠ 0) :
    RegisterList.lists (RegisterList.maskOf indices line.kind.flag) index = true ↔
      line.Lists index :=
  (RegisterList.lists_maskOf proper).trans holds.mem_iff

theorem Holds.mem_order (holds : line.Holds indices) {transfer : ListTransfer} {index : Fin 16} :
    index ∈ transfer.order (RegisterList.maskOf indices line.kind.flag) ↔ line.Lists index := by
  rw [ListTransfer.mem_order, RegisterList.mem_indices]
  constructor
  · rintro ⟨proper, listed⟩
    exact (holds.lists_maskOf proper).mp listed
  · intro listed
    have proper : index ≠ 0 := by
      rintro rfl
      exact holds.proper (holds.mem_iff.mpr listed)
    exact ⟨proper, (holds.lists_maskOf proper).mpr listed⟩

/-- Lists of the same registers have the same mask, in whatever order and however often. -/
theorem Holds.maskOf_eq {other : ListLine} {others : List (Fin 16)} (holds : line.Holds indices)
    (again : other.Holds others) (kinds : other.kind = line.kind)
    (same : ∀ index, other.Lists index ↔ line.Lists index) :
    RegisterList.maskOf others other.kind.flag = RegisterList.maskOf indices line.kind.flag := by
  refine RegisterList.eq_of_lists ?_ fun index proper => ?_
  · rw [RegisterList.flag_maskOf holds.proper, RegisterList.flag_maskOf again.proper, kinds]
  · rw [holds.lists_maskOf proper, again.lists_maskOf proper, same]

/-- **A register list means a set of registers, from the text to the machine.** A line is accepted
if its list is not empty, each operand stands for a register of the mnemonic's view other than the
zero register, and the base stands for a register. Then fetching its bytes gives the instruction of
the mnemonic with a mask of just the listed registers and the flag. Any other line of this kind that
lists the same registers, with the same base, has the same bytes. And a machine that comes to the
bytes transfers just the listed registers in turn, going up if it loads and down if it stores, unless
an access to memory faults. -/
theorem means_registers (line : ListLine) :
    ((∃ after, line.outcome = .ok () after) ↔
      line.list ≠ [] ∧ (∀ text ∈ line.list, ∃ index, index ≠ 0 ∧ line.Names text index) ∧
        ∃ register, line.HasBase register) ∧
    ∀ after, line.outcome = .ok () after → ∃ register mask bytes,
      line.HasBase register ∧
      after.code = line.state.code.append bytes ∧
      fetch ByteReader.next ⟨bytes.toArray, 0⟩ =
        .ok (.instruction (line.kind.instruction mask register)) ⟨bytes.toArray, bytes.length⟩ ∧
      (∀ index, index ≠ 0 → (RegisterList.lists mask index = true ↔ line.Lists index)) ∧
      RegisterList.flag mask = line.kind.flag ∧
      (∀ other : ListLine, other.kind = line.kind → other.HasBase register →
        (∀ index, other.Lists index ↔ line.Lists index) →
          ∀ final, other.outcome = .ok () final → final.code = other.state.code.append bytes) ∧
      ∀ machine : Machine,
        machine.core.memory.readBytes machine.core.pointer bytes.length = .ok bytes →
          let past :=
            { machine.core with pointer := machine.core.pointer + .ofNat bytes.length }
          let transfer := line.kind.transfer register
          ∃ order : List (Fin 16),
            (order.Pairwise fun first second =>
              if line.kind.loads then first < second else second < first) ∧
            (∀ index, index ∈ order ↔ line.Lists index) ∧
            (∀ core, transfer.Becomes order past core →
              machine.step = (.ok (), { machine with core })) ∧
            ((∀ core, ¬ transfer.Becomes order past core) →
              ∃ error core, machine.step = (.error (.memory error), { machine with core })) := by
  refine ⟨⟨?_, ?_⟩, fun after read => ?_⟩
  · rintro ⟨after, read⟩
    obtain ⟨nonempty, indices, register, holds, based, -⟩ := outcome_eq_ok_iff.mp read
    exact ⟨nonempty, exists_forall₂_iff.mp ⟨indices, holds⟩, register, based⟩
  · rintro ⟨nonempty, named, register, based⟩
    obtain ⟨indices, holds⟩ := exists_forall₂_iff.mpr named
    exact ⟨_, outcome_eq_ok_iff.mpr ⟨nonempty, indices, register, holds, based, rfl⟩⟩
  obtain ⟨-, indices, register, holds, based, rfl⟩ := outcome_eq_ok_iff.mp read
  have flagged : RegisterList.flag (RegisterList.maskOf indices line.kind.flag) = line.kind.flag :=
    RegisterList.flag_maskOf holds.proper
  have agrees := line.kind.wellFormed_instruction
    (RegisterList.maskOf indices line.kind.flag) register
  let instruction := line.kind.instruction (RegisterList.maskOf indices line.kind.flag) register
  refine ⟨register, RegisterList.maskOf indices line.kind.flag, instruction.canonicalBytes, based,
    rfl, ?_, fun index proper => holds.lists_maskOf proper, flagged, ?_, ?_⟩
  · have comes : instruction.canonicalBytes ++ [] =
        instruction.canonicalBytes.toArray.toList.drop 0 := List.append_nil _
    have fetched := fetch_of_drop agrees comes
    rwa [Nat.zero_add] at fetched
  · intro other kinds rebased same final reread
    obtain ⟨-, others, another, again, found, rfl⟩ := outcome_eq_ok_iff.mp reread
    obtain rfl := rebased.unique found
    have equal : other.kind.instruction (RegisterList.maskOf others other.kind.flag) register =
        instruction := by
      rw [holds.maskOf_eq again kinds same, kinds]
    have bytes := congrArg Instruction.canonicalBytes equal
    exact congrArg other.state.code.append bytes
  · intro machine placed past transfer
    have performs := line.kind.performs_instruction flagged based machine.core.pointer past
    have step : machine.step = Machine.perform (Core.execute instruction machine.core.pointer)
        { machine with core := past } := Machine.step_of_readBytes agrees placed
    refine ⟨transfer.order (RegisterList.maskOf indices line.kind.flag), ?_,
      fun index => holds.mem_order, fun core becomes => ?_, fun never => ?_⟩
    · exact transfer.pairwise_order (RegisterList.maskOf indices line.kind.flag)
    · rw [step, Machine.perform, performs.1 core becomes]
    · obtain ⟨error, core, failed⟩ := performs.2 never
      refine ⟨error, core, ?_⟩
      rw [step, Machine.perform, failed]

/-- A store of two registers, one of them written twice and the other through a macro. -/
def scattered : ListLine where
  kind := .multiple false .dword true
  list := ["%r2d".toList, "TOP".toList, "%R2D".toList]
  base := "%SP".toList
  mnemonic := "stm.ds".toList
  statement := "stm.ds %r2d, TOP, %R2D, %SP".toList
  words := by decide +kernel
  named := by decide +kernel
  source := Library.empty.toSource
  place := ⟨"a", 1⟩
  state := { Assembler.initial with scope := ⟨⟨[("TOP".toList, " %r1d ".toList)]⟩, .empty⟩ }

def scatteredBytes : List UInt8 := [0x80, 0x07, 0x6E, 0x38]

/-- A machine that stores the two registers. -/
def storing : Machine :=
  { Machine.standard ⟨[.ofContents 0 64 scatteredBytes.toArray]⟩ with
    core :=
      { registers := ((RegisterFile.cleared.set 1 5).set 2 7).set 8 32
        pointer := 0
        memory := ⟨[.ofContents 0 64 scatteredBytes.toArray]⟩ } }

theorem scattered_means_registers :
    ∃ after bytes order core,
      scattered.outcome = .ok () after ∧
      after.code = scattered.state.code.append bytes ∧
      bytes = scatteredBytes ∧
      storing.core.memory.readBytes storing.core.pointer bytes.length = .ok bytes ∧
      order = [2, 1] ∧
      (scattered.kind.transfer Register.stackPointer).Becomes order
        { storing.core with pointer := storing.core.pointer + .ofNat bytes.length } core ∧
      storing.step = (.ok (), { storing with core }) := by
  have names {text : List Char} {register : Register} :
      (scattered.state.scope.macros.expand? text).bind Register.parse? = some register ↔
        scattered.state.scope.macros.Names text register :=
    Option.bind_eq_some_iff
  have based : scattered.HasBase Register.stackPointer := names.mp (by decide +kernel)
  have named : ∀ text ∈ scattered.list, ∃ index : Fin 16, index ≠ 0 ∧ scattered.Names text index := by
    simp only [Names, ← names]
    decide +kernel
  have lists : ∀ index, scattered.Lists index ↔ index ∈ [(2 : Fin 16), 1] := by
    simp only [Lists, Names, ← names]
    decide +kernel
  obtain ⟨accepted, meaning⟩ := means_registers scattered
  obtain ⟨after, read⟩ := accepted.mpr ⟨by decide, named, _, based⟩
  obtain ⟨register, mask, bytes, rebased, code, -, -, -, -, steps⟩ := meaning after read
  obtain rfl := based.unique rebased
  -- The bytes are known from a run.
  have evaluated : ∃ _ final, scattered.outcome = .ok () final ∧
      decide (final.code.bytes.toList = scatteredBytes) = true :=
    exists_of_passes (by decide +kernel)
  obtain ⟨_, final, again, holds⟩ := evaluated
  obtain rfl : after = final := (EStateM.Result.ok.inj (read.symm.trans again)).2
  obtain rfl : bytes = scatteredBytes := by
    rw [code, Code.toList_append] at holds
    exact of_decide_eq_true holds
  have placed : storing.core.memory.readBytes storing.core.pointer scatteredBytes.length =
      .ok scatteredBytes := by
    decide +kernel
  obtain ⟨order, descending, members, moves, faults⟩ := steps storing placed
  obtain rfl : order = [2, 1] := by
    have same : ∀ index, index ∈ order ↔ index ∈ [(2 : Fin 16), 1] := fun index =>
      (members index).trans (lists index)
    have sorted : order.Pairwise fun first second => second < first := descending
    have once : order.Nodup := sorted.imp Fin.ne_of_gt
    have perm : order.Perm [2, 1] := (List.perm_ext_iff_of_nodup once (by decide)).mpr same
    exact perm.eq_of_pairwise (fun _ _ _ _ above below => absurd above (Fin.lt_asymm below)) sorted
      (by decide)
  have succeeds : storing.step.1.toOption.isSome = true := by decide +kernel
  by_cases transferred : ∃ core, (scattered.kind.transfer Register.stackPointer).Becomes [2, 1]
      { storing.core with pointer := storing.core.pointer + .ofNat scatteredBytes.length } core
  · obtain ⟨core, becomes⟩ := transferred
    exact ⟨after, _, _, core, read, code, rfl, placed, rfl, becomes, moves core becomes⟩
  · obtain ⟨error, core, failed⟩ := faults (not_exists.mp transferred)
    rw [failed] at succeeds
    cases succeeds

end ListLine

end Assembly

end WordMachine
