import WordMachine.Instruction.Text
import WordMachine.Proofs.LineLexing
import WordMachine.Proofs.Reading

/-!
# Written instructions

An instruction is written in one of the forms that statements are read in (`Instruction.form`), as
the mnemonic of the form and its operands (`Instruction.operandTexts`). Every part is read as what
it was written for: an immediate as its value, a name as its register, a list of names as the mask
without its flag, which the mnemonic holds. So the statement is read as the instruction
(`Assembly.Scope.statement_written`).

Three things a text does not hold: operands of the wrong shape, the immediate of a frame's end, and
an empty register list, which is refused. `Instruction.Writable` leaves them out.
-/

set_option autoImplicit false

namespace WordMachine

open WordMachine.Text
open WordMachine.Assembly

/-! ## Numbers -/

namespace Assembly

theorem digitValue_digitChar {digit : Nat} (small : digit < 16) :
    digitValue digit.digitChar = digit := by
  revert digit
  decide

theorem isDigitOf_digitChar {digit : Nat} (small : digit < 16) :
    isDigitOf 16 digit.digitChar = true := by
  revert digit
  decide

theorem digitsValue_append (radix : Nat) (digits : List Char) (last : Char) :
    digitsValue radix (digits ++ [last]) = digitsValue radix digits * radix + digitValue last := by
  rw [digitsValue, List.foldl_append]
  rfl

theorem digitsValue_toDigits (n : Nat) : digitsValue 16 (Nat.toDigits 16 n) = n := by
  induction n using Nat.strongRecOn with
  | ind n ih =>
      rw [Nat.toDigits_eq_if (by decide)]
      split
      · rename_i small
        rw [digitsValue, List.foldl_cons, List.foldl_nil, digitValue_digitChar small, Nat.zero_mul,
          Nat.zero_add]
      · rename_i large
        rw [digitsValue_append, ih (n / 16) (by omega),
          digitValue_digitChar (Nat.mod_lt _ (by decide))]
        omega

theorem forall_mem_toDigits {holds : Char → Prop}
    (each : ∀ digit, digit < 16 → holds digit.digitChar) (n : Nat) :
    ∀ c ∈ Nat.toDigits 16 n, holds c := by
  induction n using Nat.strongRecOn with
  | ind n ih =>
      rw [Nat.toDigits_eq_if (by decide)]
      split
      · rename_i small
        intro c stands
        obtain rfl := List.mem_singleton.mp stands
        exact each n small
      · rename_i large
        intro c stands
        rcases List.mem_append.mp stands with high | low
        · exact ih (n / 16) (by omega) c high
        · obtain rfl := List.mem_singleton.mp low
          exact each _ (Nat.mod_lt _ (by decide))

theorem toList_immediateText (value : UInt16) :
    (Instruction.immediateText value).toList = '0' :: 'x' :: Nat.toDigits 16 value.toNat := by
  rw [Instruction.immediateText, hex, String.toList_append, show "0x".toList = ['0', 'x'] from rfl,
    String.toList_ofList]
  rfl

theorem integer?_immediateText (value : UInt16) :
    integer? (Instruction.immediateText value).toList = some (value.toNat : Int) := by
  have bound := value.toNat_lt
  have radix : splitRadix ('0' :: 'x' :: Nat.toDigits 16 value.toNat) =
      (16, Nat.toDigits 16 value.toNat) := rfl
  have digits : (Nat.toDigits 16 value.toNat).all (isDigitOf 16) = true :=
    List.all_eq_true.mpr (forall_mem_toDigits (fun _ small => isDigitOf_digitChar small) _)
  have unsigned : integer? ('0' :: 'x' :: Nat.toDigits 16 value.toNat) =
      (magnitude? ('0' :: 'x' :: Nat.toDigits 16 value.toNat)).map fun n => (n : Int) := rfl
  rw [toList_immediateText, unsigned, magnitude?, radix]
  simp only [digitsValue_toDigits]
  rw [if_pos ⟨Nat.toDigits_ne_nil, digits, by omega⟩]
  rfl

end Assembly

/-! ## Registers -/

theorem Register.parse?_name (register : Register) :
    Register.parse? register.name.toList = some register := by
  rcases register with ⟨index, width⟩
  revert index
  cases width <;> decide +kernel

/-! ## Register lists -/

namespace RegisterList

theorem toNat_bit (index : Fin 16) : (bit index).toNat = 2 ^ index.val := by
  revert index
  decide

theorem testBit_foldl (listed : List (Fin 16)) (start : UInt16) (place : Nat) :
    (listed.foldl (fun mask index => mask ||| bit index) start).toNat.testBit place =
      (start.toNat.testBit place || listed.any fun index => index.val == place) := by
  induction listed generalizing start with
  | nil => simp
  | cons index rest ih =>
      rw [List.foldl_cons, ih, UInt16.toNat_or, Nat.testBit_or, toNat_bit, Nat.testBit_two_pow,
        List.any_cons, Bool.or_assoc]
      congr 2

theorem lt_of_testBit {mask : UInt16} {place : Nat} (set : mask.toNat.testBit place = true) :
    place < 16 := by
  rcases Nat.lt_or_ge place 16 with inside | beyond
  · exact inside
  · have small : mask.toNat < 2 ^ place :=
      Nat.lt_of_lt_of_le mask.toNat_lt (Nat.pow_le_pow_right (by decide) beyond)
    rw [Nat.testBit_lt_two_pow small] at set
    cases set

theorem any_indices (mask : UInt16) (place : Nat) :
    ((indices mask).any fun index => index.val == place) =
      (decide (place ≠ 0) && mask.toNat.testBit place) := by
  rw [Bool.eq_iff_iff, List.any_eq_true]
  simp only [indices, List.mem_filter, List.mem_finRange, true_and, Bool.and_eq_true, bne_iff_ne,
    beq_iff_eq, decide_eq_true_eq, lists]
  constructor
  · rintro ⟨index, ⟨proper, set⟩, rfl⟩
    exact ⟨fun zero => proper (Fin.ext zero), set⟩
  · rintro ⟨proper, set⟩
    exact ⟨⟨place, lt_of_testBit set⟩, ⟨fun zero => proper (congrArg Fin.val zero), set⟩, rfl⟩

theorem testBit_low (flagged : Bool) (place : Nat) :
    (if flagged then (1 : UInt16) else 0).toNat.testBit place = (decide (place = 0) && flagged) := by
  cases place with
  | zero => cases flagged <;> rfl
  | succ place =>
      have beyond : Nat.testBit 1 (place + 1) = false :=
        Nat.testBit_lt_two_pow (Nat.one_lt_two_pow (Nat.succ_ne_zero _))
      cases flagged <;> simp [beyond]

/-- **A mask is what it lists and its flag.** -/
theorem foldl_indices_or_flag (mask : UInt16) :
    (indices mask).foldl (fun mask index => mask ||| bit index) 0 |||
      (if flag mask then 1 else 0) = mask := by
  apply UInt16.toNat_inj.mp
  apply Nat.eq_of_testBit_eq
  intro place
  rw [UInt16.toNat_or, Nat.testBit_or, testBit_foldl, any_indices, testBit_low, UInt16.toNat_zero,
    Nat.zero_testBit, Bool.false_or]
  by_cases lowest : place = 0
  · simp [lowest, flag, lists]
  · simp [lowest]

end RegisterList

/-! ## Operands as they are read -/

namespace Assembly

theorem piece_name (register : Register) : Piece register.name.toList := by
  -- With a quantifier over characters in place of `List.all` every character there is may be tried.
  have both : register.name.toList ≠ [] ∧ register.name.toList.all isSolid = true := by
    rcases register with ⟨index, width⟩
    revert index
    cases width <;> decide +kernel
  exact ⟨both.1, List.all_eq_true.mp both.2⟩

theorem piece_immediateText (value : UInt16) : Piece (Instruction.immediateText value).toList := by
  rw [toList_immediateText]
  refine ⟨List.cons_ne_nil _ _, ?_⟩
  rw [List.forall_mem_cons, List.forall_mem_cons]
  exact ⟨rfl, rfl, forall_mem_toDigits (by decide) _⟩

end Assembly

namespace Assembly.Scope

variable {scope : Scope}

theorem expand_of_piece (known : scope.macros = .empty) {text : List Char} (piece : Piece text) :
    scope.expand text = .ok text := by
  rw [expand, known, MacroTable.expand?, piece.framed.trim_eq]
  rfl

theorem register_name (known : scope.macros = .empty) (register : Register) :
    scope.register register.name.toList = .ok register := by
  simp only [Scope.register, expand_of_piece known (piece_name register), bind, Except.bind,
    Register.parse?_name]
  rfl

theorem immediate_text (known : scope.macros = .empty) (value : UInt16) :
    scope.immediate (Instruction.immediateText value).toList = .ok (.value value) := by
  have bound := value.toNat_lt
  have within : ¬ ((value.toNat : Int) < leastImmediate ∨ greatestImmediate < value.toNat) := by
    simp only [leastImmediate, greatestImmediate]
    omega
  simp only [Scope.immediate, expand_of_piece known (piece_immediateText value), bind, Except.bind,
    integer?_immediateText, checkRange, if_neg within, ofInt_natCast, UInt16.ofNat_toNat]
  rfl

theorem listedAll_names (known : scope.macros = .empty) (mnemonic : String) (width : Width)
    {listed : List (Fin 16)} (proper : ∀ index ∈ listed, index ≠ 0) :
    scope.listedAll mnemonic width
      (listed.map fun index => (Register.name ⟨index, width⟩).toList) = .ok listed := by
  induction listed with
  | nil => rfl
  | cons index rest ih =>
      rw [List.forall_mem_cons] at proper
      have first : scope.listed mnemonic width (Register.name ⟨index, width⟩).toList =
          .ok index := by
        simp only [Scope.listed, register_name known, bind, Except.bind]
        rw [if_neg proper.1, if_neg (Classical.not_not.mpr rfl)]
        rfl
      rw [List.map_cons, listedAll, first]
      simp only [bind, Except.bind, ih proper.2]
      rfl

theorem registerMask_names (known : scope.macros = .empty) (mnemonic : String) (width : Width)
    {mask : UInt16} (nonempty : RegisterList.indices mask ≠ []) :
    scope.registerMask mnemonic width
        ((RegisterList.indices mask).map fun index => (Register.name ⟨index, width⟩).toList) =
      .ok ((RegisterList.indices mask).foldl
        (fun mask index => mask ||| RegisterList.bit index) 0) := by
  have proper : ∀ index ∈ RegisterList.indices mask, index ≠ 0 :=
    fun index stands => (RegisterList.mem_indices.mp stands).1
  rw [registerMask, if_neg (mt List.map_eq_nil_iff.mp nonempty), listedAll_names known _ _ proper]
  rfl

end Assembly.Scope

/-! ## Mnemonics -/

namespace Assembly.Form

/-- The mnemonic of a form. -/
def mnemonic : Form → String
  | stack opcode width => opcode.mnemonic ++ "." ++ String.singleton width.letter
  | transfer opcode _ writeBack => opcode.mnemonic ++ if writeBack then "S" else ""
  | plain opcode => opcode.mnemonic

/-- The forms that can be written. -/
def all : List Form :=
  stackForms.map Prod.snd ++ transferForms.map Prod.snd ++ (Opcode.all.filter isPlain).map plain

/-- What makes a mnemonic stand out at the front of a line: it is read as the form it is for, it is
no directive, it fits its column, and no character of it ends it early. -/
structure Legible (form : Form) : Prop where
  found : ofMnemonic? form.mnemonic = some form
  upper : upper form.mnemonic.toList = form.mnemonic.toList
  named : form.mnemonic.toList.head? ≠ some '.'
  narrow : form.mnemonic.length < mnemonicColumn
  piece : Piece form.mnemonic.toList

theorem legible {form : Form} (stands : form ∈ all) : form.Legible := by
  have all_legible : ∀ form ∈ all,
      ofMnemonic? form.mnemonic = some form ∧
        Text.upper form.mnemonic.toList = form.mnemonic.toList ∧
        form.mnemonic.toList.head? ≠ some '.' ∧
        form.mnemonic.length < mnemonicColumn ∧
        form.mnemonic.toList ≠ [] ∧ form.mnemonic.toList.all isSolid = true := by
    decide +kernel
  obtain ⟨found, upper, named, narrow, nonempty, solid⟩ := all_legible form stands
  exact ⟨found, upper, named, narrow, nonempty, List.all_eq_true.mp solid⟩

end Assembly.Form

namespace Opcode

theorem mem_all (opcode : Opcode) : opcode ∈ all := by
  have found := ofNumber?_number opcode
  rw [ofNumber?] at found
  rw [all, List.mem_append, List.mem_append]
  split at found
  · obtain rfl := Option.some.inj found
    exact .inl (.inr List.mem_cons_self)
  · split at found
    · exact .inl (.inl (Array.mem_toList_iff.mpr (Array.mem_of_getElem? found)))
    · exact .inr (Array.mem_toList_iff.mpr (Array.mem_of_getElem? found))

end Opcode

/-! ## Written forms -/

/-- The operands of a plain instruction in the order in which they are written. -/
def Operands.texts : Operands → List String
  | imm value => [Instruction.immediateText value]
  | immReg value ra => [ra.name, Instruction.immediateText value]
  | immRegReg value rb ra => [ra.name, Instruction.immediateText value, rb.name]
  | regRegReg rc rb ra => [ra.name, rc.name, rb.name]
  | regRegRegReg rd rc rb ra => [ra.name, rb.name, rd.name, rc.name]

namespace Instruction

/-- The form that an instruction is written in. -/
def form (instruction : Instruction) : Form :=
  let mask := instruction.immediate?.getD 0
  match instruction.opcode with
  | .push => .stack .push (stackWidth mask)
  | .pop => .stack .pop (stackWidth mask)
  | .ldm width => .transfer (.ldm width) width (RegisterList.flag mask)
  | .stm width => .transfer (.stm width) width (RegisterList.flag mask)
  | opcode => .plain opcode

/-- The names of the listed registers. -/
def listTexts (mask : UInt16) (width : Width) : List String :=
  (RegisterList.indices mask).map fun index => Register.name ⟨index, width⟩

/-- The operands in the order in which they are written. -/
def operandTexts (instruction : Instruction) : List String :=
  match instruction.form, instruction.operands with
  | .stack _ width, .imm mask => listTexts mask width
  | .transfer _ width _, .immReg mask base => listTexts mask width ++ [base.name]
  | .plain opcode, operands => if opcode = .leave then [] else operands.texts
  | _, _ => []

/-- An instruction whose text holds all of it: the operands have the right shape, a frame's end has
no immediate, and a register list names some register. -/
structure Writable (instruction : Instruction) : Prop where
  wellFormed : instruction.WellFormed
  frame : instruction.opcode = .leave → ∀ value, instruction.immediate? = some value → value = 0
  listed : instruction.opcode = .push ∨ instruction.opcode = .pop ∨
      instruction.opcode.isTransferMultiple = true →
    ∀ mask, instruction.immediate? = some mask →
      ∃ index, index ≠ 0 ∧ RegisterList.lists mask index = true

/-- A well-formed instruction is a stack transfer, a multiple transfer or written plainly. -/
theorem cases_of_wellFormed {instruction : Instruction} (agrees : instruction.WellFormed) :
    (∃ opcode mask, (opcode = .push ∨ opcode = .pop) ∧ instruction = ⟨opcode, .imm mask⟩) ∨
      (∃ width opcode mask base, (opcode = .ldm width ∨ opcode = .stm width) ∧
        instruction = ⟨opcode, .immReg mask base⟩) ∨
      Form.isPlain instruction.opcode = true := by
  rcases instruction with ⟨opcode, operands⟩
  cases opcode with
  | push =>
      cases operands with
      | imm mask => exact .inl ⟨_, mask, .inl rfl, rfl⟩
      | _ => exact Format.noConfusion agrees
  | pop =>
      cases operands with
      | imm mask => exact .inl ⟨_, mask, .inr rfl, rfl⟩
      | _ => exact Format.noConfusion agrees
  | ldm width =>
      cases operands with
      | immReg mask base => exact .inr (.inl ⟨width, _, mask, base, .inl rfl, rfl⟩)
      | _ => exact Format.noConfusion agrees
  | stm width =>
      cases operands with
      | immReg mask base => exact .inr (.inl ⟨width, _, mask, base, .inr rfl, rfl⟩)
      | _ => exact Format.noConfusion agrees
  | rex | iex | iexHigh | reserved => cases operands <;> exact Format.noConfusion agrees
  | _ => exact .inr (.inr rfl)

section Shapes

variable {opcode : Opcode} {operands : Operands} {mask : UInt16} {base : Register} {width : Width}

theorem shape_of_stack (named : opcode = .push ∨ opcode = .pop) :
    form ⟨opcode, .imm mask⟩ = .stack opcode (stackWidth mask) ∧
      operandTexts ⟨opcode, .imm mask⟩ = listTexts mask (stackWidth mask) ∧
      text ⟨opcode, .imm mask⟩ = stackText opcode mask := by
  rcases named with rfl | rfl <;> exact ⟨rfl, rfl, rfl⟩

theorem shape_of_transfer (named : opcode = .ldm width ∨ opcode = .stm width) :
    form ⟨opcode, .immReg mask base⟩ = .transfer opcode width (RegisterList.flag mask) ∧
      operandTexts ⟨opcode, .immReg mask base⟩ = listTexts mask width ++ [base.name] ∧
      text ⟨opcode, .immReg mask base⟩ = transferText opcode width mask base := by
  rcases named with rfl | rfl <;> exact ⟨rfl, rfl, rfl⟩

theorem form_of_plain (plain : Form.isPlain opcode = true) :
    form ⟨opcode, operands⟩ = .plain opcode := by
  cases opcode <;> first | rfl | cases plain

theorem operandTexts_of_plain (plain : Form.isPlain opcode = true) :
    operandTexts ⟨opcode, operands⟩ = if opcode = .leave then [] else operands.texts := by
  rw [operandTexts, form_of_plain plain]

theorem text_of_plain (plain : Form.isPlain opcode = true) (operation : opcode ≠ .leave) :
    text ⟨opcode, operands⟩ = line opcode.mnemonic (", ".intercalate operands.texts) := by
  cases operands <;>
    simp only [Operands.texts, String.intercalate_cons_cons, String.intercalate_singleton,
      ← String.append_assoc] <;>
    cases opcode <;>
    first | exact Bool.noConfusion plain | exact absurd rfl operation | rfl

end Shapes

theorem listTexts_ne_nil {mask : UInt16} (width : Width)
    (nonempty : ∃ index, index ≠ 0 ∧ RegisterList.lists mask index = true) :
    listTexts mask width ≠ [] := by
  obtain ⟨index, proper, set⟩ := nonempty
  have stands : index ∈ RegisterList.indices mask := RegisterList.mem_indices.mpr ⟨proper, set⟩
  exact List.ne_nil_of_mem (List.mem_map_of_mem stands)

theorem Writable.lists_of_stack {opcode : Opcode} {mask : UInt16}
    (writable : Writable ⟨opcode, .imm mask⟩) (named : opcode = .push ∨ opcode = .pop)
    (width : Width) : listTexts mask width ≠ [] :=
  listTexts_ne_nil width (writable.listed (named.imp_right .inl) mask rfl)

theorem Writable.lists_of_transfer {opcode : Opcode} {mask : UInt16} {base : Register}
    {width : Width} (writable : Writable ⟨opcode, .immReg mask base⟩)
    (named : opcode = .ldm width ∨ opcode = .stm width) : listTexts mask width ≠ [] := by
  have transfers : opcode.isTransferMultiple = true := by
    rcases named with rfl | rfl <;> rfl
  exact listTexts_ne_nil width (writable.listed (.inr (.inr transfers)) mask rfl)

/-- The text of an instruction is the mnemonic of its form and its operands. -/
theorem text_eq {instruction : Instruction} (writable : instruction.Writable) :
    instruction.text =
      if instruction.operandTexts = [] then
        instruction.form.mnemonic
      else
        line instruction.form.mnemonic (", ".intercalate instruction.operandTexts) := by
  rcases cases_of_wellFormed writable.wellFormed with
    ⟨opcode, mask, named, rfl⟩ | ⟨width, opcode, mask, base, named, rfl⟩ | plain
  · obtain ⟨form, texts, text⟩ := @shape_of_stack opcode mask named
    rw [form, texts, text, if_neg (writable.lists_of_stack named _)]
    rfl
  · obtain ⟨form, texts, text⟩ := @shape_of_transfer opcode mask base width named
    have nonempty := writable.lists_of_transfer named
    have both : listTexts mask width ++ [base.name] ≠ [] :=
      List.append_ne_nil_of_right_ne_nil _ (List.cons_ne_nil _ _)
    rw [form, texts, text, if_neg both,
      String.intercalate_append_of_ne_nil nonempty (List.cons_ne_nil _ _),
      String.intercalate_singleton]
    rfl
  · rcases instruction with ⟨opcode, operands⟩
    rw [operandTexts_of_plain plain, form_of_plain plain]
    by_cases frame : opcode = .leave
    · subst frame
      have agrees := writable.wellFormed
      cases operands with
      | imm value => rfl
      | _ => exact Format.noConfusion agrees
    · have nonempty : operands.texts ≠ [] := by
        cases operands <;> exact List.cons_ne_nil _ _
      rw [if_neg frame, if_neg nonempty, text_of_plain plain frame]
      rfl

end Instruction

/-! ## Reading written forms -/

namespace Instruction

/-- The form of a well-formed instruction has a mnemonic. -/
theorem form_mem_all {instruction : Instruction} (agrees : instruction.WellFormed) :
    instruction.form ∈ Form.all := by
  rw [Form.all, List.mem_append, List.mem_append]
  rcases cases_of_wellFormed agrees with
    ⟨opcode, mask, named, rfl⟩ | ⟨width, opcode, mask, base, named, rfl⟩ | plain
  · rw [(@shape_of_stack opcode mask named).1, stackWidth]
    refine .inl (.inl ?_)
    rcases named with rfl | rfl <;> split <;> decide
  · rw [(@shape_of_transfer opcode mask base width named).1]
    refine .inl (.inr ?_)
    rcases named with rfl | rfl <;> cases width <;> cases RegisterList.flag mask <;> decide
  · rcases instruction with ⟨opcode, operands⟩
    rw [form_of_plain plain]
    exact .inr (List.mem_map_of_mem (List.mem_filter.mpr ⟨opcode.mem_all, plain⟩))

end Instruction

namespace Assembly.Scope

variable {scope : Scope}

theorem stackStatement_written (known : scope.macros = .empty) (mnemonic : String)
    (opcode : Opcode) {mask : UInt16} (nonempty : RegisterList.indices mask ≠ []) :
    scope.stackStatement mnemonic opcode (Instruction.stackWidth mask)
        ((Instruction.listTexts mask (Instruction.stackWidth mask)).map String.toList) =
      .ok ⟨⟨opcode, .imm mask⟩, none⟩ := by
  have flagged : (if Instruction.stackWidth mask = .dword then (1 : UInt16) else 0) =
      if RegisterList.flag mask then 1 else 0 := by
    rw [Instruction.stackWidth]
    cases RegisterList.flag mask <;> rfl
  rw [stackStatement, Instruction.listTexts, List.map_map]
  have read := registerMask_names known mnemonic (Instruction.stackWidth mask) nonempty
  simp only [Function.comp_def, read, bind, Except.bind, flagged,
    RegisterList.foldl_indices_or_flag]
  rfl

theorem transferStatement_written (known : scope.macros = .empty) (mnemonic : String)
    (opcode : Opcode) (width : Width) {mask : UInt16} (base : Register)
    (nonempty : RegisterList.indices mask ≠ []) :
    scope.transferStatement mnemonic opcode width (RegisterList.flag mask)
        ((Instruction.listTexts mask width ++ [base.name]).map String.toList) =
      .ok ⟨⟨opcode, .immReg mask base⟩, none⟩ := by
  have read := registerMask_names known mnemonic width nonempty
  have enough :
      ¬ ((Instruction.listTexts mask width ++ [base.name]).map String.toList).length < 2 := by
    have positive := List.length_pos_iff.mpr nonempty
    simp only [Instruction.listTexts, List.length_map, List.length_append, List.length_singleton]
    omega
  rw [transferStatement, if_neg enough, List.map_append, List.map_singleton, List.dropLast_concat,
    Instruction.listTexts, List.map_map]
  simp only [Function.comp_def, read, bind, Except.bind, List.getLastD_concat,
    register_name known, RegisterList.foldl_indices_or_flag]
  rfl

theorem plainStatement_written (known : scope.macros = .empty) (mnemonic : String)
    {opcode : Opcode} {operands : Operands} (agrees : Instruction.WellFormed ⟨opcode, operands⟩)
    (operation : opcode ≠ .leave) :
    scope.plainStatement mnemonic opcode (operands.texts.map String.toList) =
      .ok ⟨⟨opcode, operands⟩, none⟩ := by
  have format : opcode.format = operands.format := Eq.symm agrees
  unfold plainStatement
  rw [writtenOperands, if_neg operation, format]
  cases operands <;>
    simp only [Operands.texts, List.map, Operands.format, expectOperands, Format.registerCount,
      Format.hasImmediate, Format.immediateBits, register_name known, immediate_text known, bind,
      Except.bind] <;>
    rfl

theorem statement_of_plain {mnemonic : String} {opcode : Opcode} {operands : List (List Char)}
    (found : Form.ofMnemonic? mnemonic = some (.plain opcode)) (nonempty : operands ≠ []) :
    scope.statement mnemonic operands = scope.plainStatement mnemonic opcode operands := by
  unfold statement
  rw [found]
  cases operands with
  | nil => exact absurd rfl nonempty
  | cons first rest => cases opcode <;> rfl

/-- **What an instruction is written as is read as the instruction**, as long as there are no
macros. -/
theorem statement_written (known : scope.macros = .empty) {instruction : Instruction}
    (writable : instruction.Writable) :
    scope.statement instruction.form.mnemonic (instruction.operandTexts.map String.toList) =
      .ok ⟨instruction, none⟩ := by
  have found := (Form.legible (Instruction.form_mem_all writable.wellFormed)).found
  rcases Instruction.cases_of_wellFormed writable.wellFormed with
    ⟨opcode, mask, named, rfl⟩ | ⟨width, opcode, mask, base, named, rfl⟩ | plain
  · obtain ⟨form, texts, _⟩ := @Instruction.shape_of_stack opcode mask named
    have nonempty := writable.lists_of_stack named (Instruction.stackWidth mask)
    rw [form] at found
    rw [form, texts]
    unfold statement
    rw [found]
    exact stackStatement_written known _ opcode (mt List.map_eq_nil_iff.mpr nonempty)
  · obtain ⟨form, texts, _⟩ := @Instruction.shape_of_transfer opcode mask base width named
    have nonempty := writable.lists_of_transfer named
    rw [form] at found
    rw [form, texts]
    unfold statement
    rw [found]
    exact transferStatement_written known _ opcode width base (mt List.map_eq_nil_iff.mpr nonempty)
  · rcases instruction with ⟨opcode, operands⟩
    rw [Instruction.operandTexts_of_plain plain, Instruction.form_of_plain plain]
    by_cases frame : opcode = .leave
    · subst frame
      have agrees := writable.wellFormed
      cases operands with
      | imm value =>
          obtain rfl := writable.frame rfl value rfl
          rfl
      | _ => exact Format.noConfusion agrees
    · rw [if_neg frame]
      rw [Instruction.form_of_plain plain] at found
      have nonempty : operands.texts.map String.toList ≠ [] := by
        cases operands <;> exact List.cons_ne_nil _ _
      rw [statement_of_plain found nonempty]
      exact plainStatement_written known _ writable.wellFormed frame

end Assembly.Scope

/-! ## The characters of a text -/

namespace Instruction

theorem piece_texts (operands : Operands) : ∀ text ∈ operands.texts, Piece text.toList := by
  cases operands <;>
    simp only [Operands.texts, List.forall_mem_cons, piece_name, piece_immediateText, true_and] <;>
    exact fun _ stands => nomatch stands

theorem piece_listTexts (mask : UInt16) (width : Width) :
    ∀ text ∈ listTexts mask width, Piece text.toList := by
  intro text stands
  obtain ⟨index, _, rfl⟩ := List.mem_map.mp stands
  exact piece_name _

theorem piece_operandTexts (instruction : Instruction) :
    ∀ text ∈ instruction.operandTexts.map String.toList, Piece text := by
  rw [List.forall_mem_map]
  unfold operandTexts
  split
  · exact piece_listTexts _ _
  · rw [List.forall_mem_append, List.forall_mem_singleton]
    exact ⟨piece_listTexts _ _, piece_name _⟩
  · split
    · exact fun _ stands => nomatch stands
    · exact piece_texts _
  · exact fun _ stands => nomatch stands

/-- **The text of an instruction is a line that can be taken apart.** -/
theorem toList_text {instruction : Instruction} (writable : instruction.Writable) :
    instruction.text.toList =
      composeLine instruction.form.mnemonic.toList
        (mnemonicColumn - instruction.form.mnemonic.length)
        (instruction.operandTexts.map String.toList) := by
  rw [text_eq writable, composeLine]
  by_cases none : instruction.operandTexts = []
  · rw [if_pos none, none, List.map_nil, if_pos rfl]
  · rw [if_neg none, if_neg (mt List.map_eq_nil_iff.mp none), line, padRight, String.toList_append,
      String.toList_append, String.toList_ofList, String.toList_intercalate]
    rfl

end Instruction

end WordMachine
