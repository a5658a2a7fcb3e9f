import WordMachine.Assembly.Statement

/-!
# What statements give

A statement that can be read gives an instruction that can be encoded, and one that waits for a
label has the placeholder for an immediate (`Assembly.Emission.Sound`). A statement that cannot be
read has a fault of its own: the error is never one that the encoder reports
(`Assembly.StatementError.InText`).

Both are said at once by `Assembly.Gives`, a property of what a computation gives together with the
admissible errors. There is one lemma for each step in reading a statement, and the main statement
is `Assembly.Scope.gives_statement`.
-/

set_option autoImplicit false

namespace WordMachine.Assembly

/-- The error lies in the text, not in something that the encoder was given. -/
def StatementError.InText : StatementError → Prop
  | .encode _ => False
  | _ => True

/-- What a computation gives has a property, and if it fails the error lies in the text. -/
def Gives {α : Type} (good : α → Prop) : Except StatementError α → Prop
  | .ok value => good value
  | .error error => error.InText

/-- Any value will do. -/
def Anything {α : Type} (_ : α) : Prop := True

theorem Gives.bind {α β : Type} {good : α → Prop} {better : β → Prop}
    {outcome : Except StatementError α} {next : α → Except StatementError β}
    (first : Gives good outcome) (later : ∀ value, good value → Gives better (next value)) :
    Gives better (outcome >>= next) := by
  cases outcome with
  | ok value => exact later value first
  | error error => exact first

/-- Two computations in a row succeed if both do. -/
theorem bind_eq_ok {α β : Type} {first : Except StatementError α}
    {next : α → Except StatementError β} {value : β} (whole : (first >>= next) = .ok value) :
    ∃ between, first = .ok between ∧ next between = .ok value := by
  cases first with
  | error failure => cases whole
  | ok between => exact ⟨between, rfl, whole⟩

/-! ## Operands -/

theorem gives_checkRange (value least greatest : Int) :
    Gives Anything (checkRange value least greatest) := by
  rw [checkRange]
  split <;> trivial

theorem gives_expectOperands (mnemonic : String) (operands : List (List Char)) (expected : Nat) :
    Gives Anything (expectOperands mnemonic operands expected) := by
  rw [expectOperands]
  split <;> trivial

namespace Scope

variable (scope : Scope)

theorem gives_expand (text : List Char) : Gives Anything (scope.expand text) := by
  rw [expand]
  split <;> trivial

theorem gives_register (text : List Char) : Gives Anything (scope.register text) := by
  refine Gives.bind (scope.gives_expand text) fun expanded _ => ?_
  split <;> trivial

theorem gives_constant (text : List Char) (least greatest : Int) :
    Gives Anything (scope.constant text least greatest) := by
  refine Gives.bind (scope.gives_expand text) fun expanded _ => ?_
  split
  · exact gives_checkRange _ _ _
  · split
    · trivial
    · split
      · exact gives_checkRange _ _ _
      · trivial

theorem gives_immediate (text : List Char) : Gives Anything (scope.immediate text) := by
  refine Gives.bind (scope.gives_expand text) fun expanded _ => ?_
  split
  · exact Gives.bind (gives_checkRange _ _ _) fun _ _ => trivial
  · split
    · trivial
    · split
      · exact Gives.bind (gives_checkRange _ _ _) fun _ _ => trivial
      · trivial

theorem gives_listed (mnemonic : String) (width : Width) (text : List Char) :
    Gives Anything (scope.listed mnemonic width text) := by
  refine Gives.bind (scope.gives_register text) fun register _ => ?_
  split
  · trivial
  · split <;> trivial

theorem gives_listedAll (mnemonic : String) (width : Width) (operands : List (List Char)) :
    Gives Anything (scope.listedAll mnemonic width operands) := by
  induction operands with
  | nil => trivial
  | cons text rest ih =>
      refine Gives.bind (scope.gives_listed mnemonic width text) fun index _ => ?_
      exact Gives.bind ih fun indices _ => trivial

theorem gives_registerMask (mnemonic : String) (width : Width) (operands : List (List Char)) :
    Gives Anything (scope.registerMask mnemonic width operands) := by
  rw [registerMask]
  split
  · trivial
  · exact Gives.bind (scope.gives_listedAll mnemonic width operands) fun indices _ => trivial

end Scope

/-! ## Emissions -/

/-- An instruction that waits for a label has the placeholder for an immediate. -/
def Emission.HoldsPlace (emission : Emission) : Prop :=
  emission.forward.isSome → emission.instruction.immediate? = some placeholder

/-- What can be emitted: the operands have the shape that the operation asks for, and there is room
for the address of a label. -/
structure Emission.Sound (emission : Emission) : Prop where
  wellFormed : emission.instruction.WellFormed
  holdsPlace : emission.HoldsPlace

theorem Emission.sound_ofOperands {opcode : Opcode} {operands : Operands}
    (agrees : operands.format = opcode.format) : (Emission.ofOperands opcode operands).Sound where
  wellFormed := agrees
  holdsPlace waits := nomatch waits

theorem Emission.sound_ofImmediate {opcode : Opcode} {operands : UInt16 → Operands}
    (agrees : ∀ value, (operands value).format = opcode.format)
    (takes : ∀ value, (operands value).immediate? = some value) {immediate : Immediate} :
    (Emission.ofImmediate opcode operands immediate).Sound := by
  cases immediate with
  | value value => exact ⟨agrees value, fun waits => nomatch waits⟩
  | forward label => exact ⟨agrees placeholder, fun _ => takes placeholder⟩

/-! ## Statements -/

namespace Form

/-- The operation of a form has the operands that the form is read with. -/
def Agrees : Form → Prop
  | stack opcode _ => opcode.format = .imm
  | transfer opcode _ _ => opcode.format = .immReg
  | plain _ => True

instance (form : Form) : Decidable form.Agrees :=
  match form with
  | stack opcode _ => inferInstanceAs (Decidable (opcode.format = .imm))
  | transfer opcode _ _ => inferInstanceAs (Decidable (opcode.format = .immReg))
  | plain _ => inferInstanceAs (Decidable True)

theorem agrees_of_listed : ∀ entry ∈ stackForms ++ transferForms, entry.2.Agrees := by
  decide

theorem agrees_of_ofMnemonic? {mnemonic : String} {form : Form}
    (found : ofMnemonic? mnemonic = some form) : form.Agrees := by
  rw [ofMnemonic?] at found
  split at found
  · rename_i listed
    cases found
    obtain ⟨before, after, whole, _⟩ := List.lookup_eq_some_iff.mp listed
    refine agrees_of_listed (mnemonic, form) ?_
    rw [whole]
    exact List.mem_append_right _ List.mem_cons_self
  · obtain ⟨opcode, _, rfl⟩ := Option.map_eq_some_iff.mp found
    trivial

/-- All mnemonics, in capitals. -/
def mnemonics : List String :=
  (stackForms ++ transferForms).map Prod.fst ++
    Opcode.all.flatMap fun opcode => opcode.mnemonic :: opcode.alias?.toList

theorem mem_mnemonics_of_ofMnemonic? {mnemonic : String} {form : Form}
    (found : ofMnemonic? mnemonic = some form) : mnemonic ∈ mnemonics := by
  rw [mnemonics, List.mem_append]
  rw [ofMnemonic?] at found
  split at found
  · rename_i other listed
    obtain ⟨before, after, whole, _⟩ := List.lookup_eq_some_iff.mp listed
    refine .inl (List.mem_map.mpr ⟨(mnemonic, other), ?_, rfl⟩)
    rw [whole]
    exact List.mem_append_right _ List.mem_cons_self
  · obtain ⟨opcode, named, _⟩ := Option.map_eq_some_iff.mp found
    have first := (Option.filter_eq_some_iff.mp named).1
    rw [Opcode.ofMnemonic?] at first
    have spelled := List.find?_some first
    refine .inr (List.mem_flatMap.mpr ⟨opcode, List.mem_of_find?_eq_some first, ?_⟩)
    rcases Bool.or_eq_true_iff.mp spelled with same | second
    · rw [← eq_of_beq same]
      exact List.mem_cons_self
    · rw [eq_of_beq second]
      exact List.mem_cons_of_mem _ List.mem_cons_self

end Form

namespace Scope

variable (scope : Scope)

theorem gives_stackStatement {opcode : Opcode} {width : Width}
    (agrees : (Form.stack opcode width).Agrees) (mnemonic : String)
    (operands : List (List Char)) :
    Gives Emission.Sound (scope.stackStatement mnemonic opcode width operands) :=
  Gives.bind (scope.gives_registerMask _ _ _) fun _ _ =>
    Emission.sound_ofOperands agrees.symm

theorem gives_transferStatement {opcode : Opcode} {width : Width} {writeBack : Bool}
    (agrees : (Form.transfer opcode width writeBack).Agrees) (mnemonic : String)
    (operands : List (List Char)) :
    Gives Emission.Sound (scope.transferStatement mnemonic opcode width writeBack operands) := by
  rw [transferStatement]
  split
  · trivial
  · refine Gives.bind (scope.gives_registerMask _ _ _) fun mask _ => ?_
    exact Gives.bind (scope.gives_register _) fun base _ =>
      Emission.sound_ofOperands agrees.symm

theorem gives_plainStatement (mnemonic : String) (opcode : Opcode)
    (operands : List (List Char)) :
    Gives Emission.Sound (scope.plainStatement mnemonic opcode operands) := by
  refine Gives.bind (gives_expectOperands _ _ _) fun _ _ => ?_
  split
  · rename_i format
    exact Emission.sound_ofOperands format.symm
  · rename_i format
    refine Gives.bind (scope.gives_immediate _) fun immediate _ => ?_
    apply Emission.sound_ofImmediate
    · exact fun _ => format.symm
    · exact fun _ => rfl
  · rename_i format
    refine Gives.bind (scope.gives_register _) fun ra _ => ?_
    refine Gives.bind (scope.gives_immediate _) fun immediate _ => ?_
    apply Emission.sound_ofImmediate
    · exact fun _ => format.symm
    · exact fun _ => rfl
  · rename_i format
    refine Gives.bind (scope.gives_register _) fun ra _ => ?_
    refine Gives.bind (scope.gives_immediate _) fun immediate _ => ?_
    refine Gives.bind (scope.gives_register _) fun rb _ => ?_
    apply Emission.sound_ofImmediate
    · exact fun _ => format.symm
    · exact fun _ => rfl
  · rename_i format
    refine Gives.bind (scope.gives_register _) fun ra _ => ?_
    refine Gives.bind (scope.gives_register _) fun rc _ => ?_
    exact Gives.bind (scope.gives_register _) fun rb _ =>
      Emission.sound_ofOperands format.symm
  · rename_i format
    refine Gives.bind (scope.gives_register _) fun ra _ => ?_
    refine Gives.bind (scope.gives_register _) fun rb _ => ?_
    refine Gives.bind (scope.gives_register _) fun rd _ => ?_
    exact Gives.bind (scope.gives_register _) fun rc _ =>
      Emission.sound_ofOperands format.symm
  · trivial

/-- **A statement gives what can be emitted, or has a fault of its own.** -/
theorem gives_statement (mnemonic : String) (operands : List (List Char)) :
    Gives Emission.Sound (scope.statement mnemonic operands) := by
  unfold statement
  split
  · exact Emission.sound_ofOperands rfl
  · rename_i found
    exact scope.gives_stackStatement (Form.agrees_of_ofMnemonic? found) _ _
  · rename_i found
    exact scope.gives_transferStatement (Form.agrees_of_ofMnemonic? found) _ _
  · exact scope.gives_plainStatement _ _ _
  · trivial

variable {scope} in
theorem sound_of_statement {mnemonic : String} {operands : List (List Char)} {emission : Emission}
    (given : scope.statement mnemonic operands = .ok emission) : emission.Sound := by
  have gives := scope.gives_statement mnemonic operands
  rw [given] at gives
  exact gives

end Scope

end WordMachine.Assembly
