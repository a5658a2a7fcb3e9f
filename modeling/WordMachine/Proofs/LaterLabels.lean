import WordMachine.Proofs.EmittedStatements

/-!
# Statements read again

A statement is read with the labels that are known by then. Read again when more labels are known, it
states the same, only that it no longer waits for a label that has an address now
(`Assembly.Scope.statement_knowing`). What is emitted first and patched later is therefore what the
text says with every label replaced by its address.
-/

set_option autoImplicit false

namespace WordMachine

namespace Assembly

namespace Scope

variable {scope : Scope} {symbols : SymbolTable}

/-- The scope with other labels. -/
def knowing (scope : Scope) (symbols : SymbolTable) : Scope :=
  { scope with symbols }

theorem listedAll_knowing (mnemonic : String) (width : Width) (operands : List (List Char)) :
    (scope.knowing symbols).listedAll mnemonic width operands =
      scope.listedAll mnemonic width operands := by
  induction operands with
  | nil => rfl
  | cons text rest ih =>
      rw [listedAll, listedAll, ih]
      rfl

theorem registerMask_knowing (mnemonic : String) (width : Width) (operands : List (List Char)) :
    (scope.knowing symbols).registerMask mnemonic width operands =
      scope.registerMask mnemonic width operands := by
  rw [registerMask, registerMask, listedAll_knowing]

end Scope

/-- The immediate with the address of the label that it waits for. -/
inductive Immediate.Settles (symbols : SymbolTable) : Immediate → UInt16 → Prop where
  | value (value : UInt16) : Settles symbols (.value value) value
  | forward {label : String} {address : UInt32} (known : symbols.address? label = some address) :
      Settles symbols (.forward label) (UInt16.ofNat address.toNat)

namespace Scope
variable {scope : Scope} {symbols : SymbolTable}

theorem immediate_knowing (grown : scope.symbols.Extends symbols) {text : List Char}
    {immediate : Immediate} (given : scope.immediate text = .ok immediate)
    (known : ∀ label, immediate = .forward label →
      ∃ address, symbols.address? label = some address ∧ address.toNat ≤ 0xFFFF) :
    ∃ value, (scope.knowing symbols).immediate text = .ok (.value value) ∧
      immediate.Settles symbols value := by
  obtain ⟨expanded, expands, given⟩ := bind_eq_ok given
  have again : (scope.knowing symbols).expand text = .ok expanded := expands
  simp only [Scope.immediate, again]
  dsimp only [bind, Except.bind]
  cases literal : integer? expanded with
  | some number =>
      simp only [literal] at given ⊢
      obtain ⟨checked, inRange, given⟩ := bind_eq_ok given
      cases given
      rw [inRange]
      exact ⟨_, rfl, .value _⟩
  | none =>
      simp only [literal] at given ⊢
      cases named : isIdentifier expanded with
      | false =>
          rw [named] at given
          cases given
      | true =>
          simp only [named, Bool.not_true, Bool.false_eq_true, if_false] at given ⊢
          cases found : scope.symbols.address? (String.ofList expanded) with
          | some address =>
              simp only [found] at given
              obtain ⟨checked, inRange, given⟩ := bind_eq_ok given
              cases given
              have kept : (scope.knowing symbols).symbols.address? (String.ofList expanded) =
                some address := grown found
              simp only [kept, inRange]
              exact ⟨_, rfl, .value _⟩
          | none =>
              simp only [found] at given
              cases given
              obtain ⟨address, defined, small⟩ := known _ rfl
              have later : (scope.knowing symbols).symbols.address? (String.ofList expanded) =
                some address := defined
              have inRange : checkRange address.toNat 0 greatestImmediate = .ok address.toNat := by
                rw [checkRange, if_neg]
                rw [greatestImmediate]
                omega
              simp only [later, inRange]
              refine ⟨_, rfl, ?_⟩
              rw [ofInt_natCast]
              exact .forward defined

end Scope

namespace Emission

variable {symbols : SymbolTable}

/-- An emission with all addresses filled in. -/
def complete (emission : Emission) (symbols : SymbolTable) : Emission :=
  ⟨emission.resolved symbols, none⟩

theorem complete_ofImmediate {opcode : Opcode} {operands : UInt16 → Operands}
    {immediate : Immediate} {value : UInt16}
    (replaces : ∀ former, (operands former).withImmediate value = operands value)
    (settles : immediate.Settles symbols value) :
    (ofImmediate opcode operands immediate).complete symbols = ⟨⟨opcode, operands value⟩, none⟩ := by
  cases settles with
  | value => rfl
  | forward known =>
      rw [complete, resolved]
      simp only [ofImmediate, Option.bind_some, known, Instruction.withImmediate, replaces]

end Emission

namespace Scope
variable {scope : Scope} {symbols : SymbolTable} {emission : Emission}

theorem plainStatement_knowing (grown : scope.symbols.Extends symbols) {mnemonic : String}
    {opcode : Opcode} {operands : List (List Char)}
    (given : scope.plainStatement mnemonic opcode operands = .ok emission)
    (known : ∀ label ∈ emission.forward,
      ∃ address, symbols.address? label = some address ∧ address.toNat ≤ 0xFFFF) :
    (scope.knowing symbols).plainStatement mnemonic opcode operands =
      .ok (emission.complete symbols) := by
  have registers : ∀ text, (scope.knowing symbols).register text = scope.register text :=
    fun _ => rfl
  -- An operation with an immediate has the same registers and an immediate that is known.
  have completes : ∀ {text : List Char} {immediate : Immediate} {shape : UInt16 → Operands},
      scope.immediate text = .ok immediate → emission = .ofImmediate opcode shape immediate →
      (∀ former value, (shape former).withImmediate value = shape value) →
        ∃ value, (scope.knowing symbols).immediate text = .ok (.value value) ∧
          emission.complete symbols = .ofImmediate opcode shape (.value value) := by
    rintro text immediate shape read rfl replaces
    obtain ⟨value, again, settles⟩ := immediate_knowing grown read fun label waits => by
      subst waits
      exact known label rfl
    exact ⟨value, again, Emission.complete_ofImmediate (fun former => replaces former value) settles⟩
  unfold plainStatement at given ⊢
  obtain ⟨_, counted, given⟩ := bind_eq_ok given
  rw [counted]
  dsimp only [bind, Except.bind]
  split at given
  · cases given
    rfl
  · obtain ⟨immediate, read, given⟩ := bind_eq_ok given
    cases given
    obtain ⟨value, again, complete⟩ := completes read rfl fun _ _ => rfl
    rw [again, complete]
    rfl
  · obtain ⟨ra, first, given⟩ := bind_eq_ok given
    obtain ⟨immediate, read, given⟩ := bind_eq_ok given
    cases given
    obtain ⟨value, again, complete⟩ := completes read rfl fun _ _ => rfl
    simp only [registers, first, again, complete]
    rfl
  · obtain ⟨ra, first, given⟩ := bind_eq_ok given
    obtain ⟨immediate, read, given⟩ := bind_eq_ok given
    obtain ⟨rb, second, given⟩ := bind_eq_ok given
    cases given
    obtain ⟨value, again, complete⟩ := completes read rfl fun _ _ => rfl
    simp only [registers, first, second, again, complete]
    rfl
  · obtain ⟨ra, first, given⟩ := bind_eq_ok given
    obtain ⟨rc, second, given⟩ := bind_eq_ok given
    obtain ⟨rb, third, given⟩ := bind_eq_ok given
    cases given
    simp only [registers, first, second, third]
    rfl
  · obtain ⟨ra, first, given⟩ := bind_eq_ok given
    obtain ⟨rb, second, given⟩ := bind_eq_ok given
    obtain ⟨rd, third, given⟩ := bind_eq_ok given
    obtain ⟨rc, fourth, given⟩ := bind_eq_ok given
    cases given
    simp only [registers, first, second, third, fourth]
    rfl
  · cases given

theorem stackStatement_knowing {mnemonic : String} {opcode : Opcode} {width : Width}
    {operands : List (List Char)}
    (given : scope.stackStatement mnemonic opcode width operands = .ok emission) :
    (scope.knowing symbols).stackStatement mnemonic opcode width operands =
      .ok (emission.complete symbols) := by
  rw [stackStatement, registerMask_knowing]
  obtain ⟨mask, listed, given⟩ := bind_eq_ok given
  cases given
  rw [listed]
  rfl

theorem transferStatement_knowing {mnemonic : String} {opcode : Opcode} {width : Width}
    {writeBack : Bool} {operands : List (List Char)}
    (given : scope.transferStatement mnemonic opcode width writeBack operands = .ok emission) :
    (scope.knowing symbols).transferStatement mnemonic opcode width writeBack operands =
      .ok (emission.complete symbols) := by
  rw [transferStatement] at given ⊢
  split at given
  · cases given
  · rename_i enough
    obtain ⟨mask, listed, given⟩ := bind_eq_ok given
    obtain ⟨base, addressed, given⟩ := bind_eq_ok given
    cases given
    have again : (scope.knowing symbols).register (operands.getLastD []) = .ok base := addressed
    rw [if_neg enough, registerMask_knowing, listed]
    dsimp only [bind, Except.bind, pure, Except.pure]
    rw [again]
    rfl

/-- **A statement keeps what it states when more labels are known**, and no longer waits for any. -/
theorem statement_knowing (grown : scope.symbols.Extends symbols) {mnemonic : String}
    {operands : List (List Char)} (given : scope.statement mnemonic operands = .ok emission)
    (known : ∀ label ∈ emission.forward,
      ∃ address, symbols.address? label = some address ∧ address.toNat ≤ 0xFFFF) :
    (scope.knowing symbols).statement mnemonic operands = .ok (emission.complete symbols) := by
  unfold statement at given ⊢
  split at given
  · cases given
    rfl
  · exact stackStatement_knowing given
  · exact transferStatement_knowing given
  · exact plainStatement_knowing grown given known
  · cases given

end Scope
end Assembly
end WordMachine
