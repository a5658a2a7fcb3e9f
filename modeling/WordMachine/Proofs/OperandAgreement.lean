import WordMachine.Proofs.Actions
import WordMachine.Proofs.CanonicalForm
import WordMachine.Proofs.CompositionalProperties
import WordMachine.Proofs.Scheduling

/-!
# Operations and the operands they take

Which operands an operation takes is decided in four places: in the table of formats, where words
are read, where instructions are encoded, and where they are executed, which asks for the shape of
the operands first and then looks for the operation among those of this shape.

All four agree. An operation that is executed with operands of another shape is refused before
anything has changed (`Core.execute_of_mismatch`), and no operation is refused that has the operands
it asks for (`Core.proper_execute`), though it can fail in other ways. Words are read as
instructions of the latter kind only, so the refusal never shows in a step or a run.
-/

set_option autoImplicit false

namespace WordMachine

/-- Any fault but a complaint about the shape of operands. -/
def Fault.Proper : Fault → Prop
  | .formatMismatch _ _ => False
  | _ => True

namespace Core

/-! ## Actions that accept their operands -/

/-- However an action ends, it does not complain about the shape of operands. -/
def Proper {α : Type} (action : Execution α) : Prop :=
  ∀ core, Ends (fun _ _ => True) Fault.Proper core action

theorem chains_true : Chains fun _ _ : Core => True where
  refl _ := trivial
  trans _ _ := trivial

section Actions

variable {α β : Type}

theorem proper_of_total {action : Execution α}
    (total : ∀ core, ∃ value after, action core = .ok value after) : Proper action := by
  intro core
  obtain ⟨value, after, done⟩ := total core
  exact .of_ok done trivial

theorem Proper.bind {action : Execution α} {next : α → Execution β} (first : Proper action)
    (later : ∀ value, Proper (next value)) : Proper (action >>= next) :=
  fun core => .of_bind chains_true (first core) later

end Actions

theorem proper_load (address : UInt32) (bytes : Nat) : Proper (load address bytes) := by
  refine fun core => ⟨trivial, fun failed => ?_⟩
  simp only [load] at failed
  split at failed <;> cases failed
  exact trivial

theorem proper_store (address : UInt32) (bytes value : Nat) :
    Proper (store address bytes value) := by
  refine fun core => ⟨trivial, fun failed => ?_⟩
  simp only [store] at failed
  split at failed <;> cases failed
  exact trivial

theorem compositional_proper : Compositional Proper where
  quiet still := proper_of_total fun core =>
    have ⟨value, after, done, _⟩ := still core core.memory
    ⟨value, after, done⟩
  load := proper_load
  store := proper_store
  divisionByZero _ := fun _ => .of_error rfl trivial trivial
  bind := Proper.bind

/-! ## The operations of each shape -/

section Shapes

variable {opcode : Opcode} (value : UInt16) (rd rc rb ra : Register) (address : UInt32)

theorem executeImm_of_mismatch (differs : opcode.format ≠ .imm) :
    executeImm opcode value address = mismatch opcode address := by
  cases opcode <;> first | rfl | exact absurd rfl differs

theorem executeImmReg_of_mismatch (differs : opcode.format ≠ .immReg) :
    executeImmReg opcode value ra address = mismatch opcode address := by
  cases opcode <;> first | rfl | exact absurd rfl differs

theorem executeImmRegReg_of_mismatch (differs : opcode.format ≠ .immRegReg) :
    executeImmRegReg opcode value rb ra address = mismatch opcode address := by
  cases opcode <;> first | rfl | exact absurd rfl differs

theorem executeRegRegReg_of_mismatch (differs : opcode.format ≠ .regRegReg) :
    executeRegRegReg opcode rc rb ra address = mismatch opcode address := by
  cases opcode <;> first | rfl | exact absurd rfl differs

theorem executeRegRegRegReg_of_mismatch (differs : opcode.format ≠ .regRegRegReg) :
    executeRegRegRegReg opcode rd rc rb ra address = mismatch opcode address := by
  cases opcode <;> first | rfl | exact absurd rfl differs

end Shapes

variable {instruction : Instruction}

/-- **Operands of the right shape are accepted.** -/
theorem proper_execute (agrees : instruction.WellFormed) (address : UInt32) :
    Proper (execute instruction address) :=
  compositional_proper.execute agrees address

/-- **Operands of any other shape are refused.** -/
theorem execute_of_mismatch (differs : ¬ instruction.WellFormed) (address : UInt32) :
    execute instruction address = mismatch instruction.opcode address := by
  obtain ⟨opcode, operands⟩ := instruction
  have format : opcode.format ≠ operands.format := fun same => differs same.symm
  cases operands with
  | imm value => exact executeImm_of_mismatch value address format
  | immReg value ra => exact executeImmReg_of_mismatch value ra address format
  | immRegReg value rb ra => exact executeImmRegReg_of_mismatch value rb ra address format
  | regRegReg rc rb ra => exact executeRegRegReg_of_mismatch rc rb ra address format
  | regRegRegReg rd rc rb ra =>
      exact executeRegRegRegReg_of_mismatch rd rc rb ra address format

/-! ## Steps -/

/-- What is at the pointer has been fetched from the words of memory. -/
theorem fetch_of_core {core : Core} {found : Fetched} {next : UInt32}
    (fetched : core.fetch = .ok (found, next)) :
    WordMachine.fetch (nextWord core.memory) core.pointer = .ok found next := by
  rw [fetch] at fetched
  split at fetched
  · rename_i outcome
    cases fetched
    exact outcome
  · cases fetched

/-- What is fetched from memory has operands of the right shape. -/
theorem wellFormed_of_fetch {core : Core} {next : UInt32}
    (fetched : core.fetch = .ok (.instruction instruction, next)) : instruction.WellFormed := by
  obtain ⟨_, _, spells⟩ := spells_of_fetchWith (fetch_of_core fetched)
  exact spells.wellFormed

theorem proper_step : Proper step := by
  intro core
  cases fetched : core.fetch with
  | error error =>
      have stepped : step core = .error (.memory error) core := by rw [step, fetched]
      exact .of_error stepped trivial trivial
  | ok outcome =>
      obtain ⟨found, next⟩ := outcome
      cases found with
      | instruction instruction =>
          have accepted := proper_execute (wellFormed_of_fetch fetched) core.pointer
            { core with pointer := next }
          refine ⟨trivial, fun failed => ?_⟩
          rw [step_of_fetch fetched] at failed
          exact accepted.fails failed
      | illegal word =>
          have stepped : step core =
              .error (.illegalOpcode word core.pointer) { core with pointer := next } := by
            rw [step, fetched]
            rfl
          exact .of_error stepped trivial trivial

end Core

/-! ## Encoding -/

/-- An instruction is encoded unless its operands have the wrong shape. -/
theorem Code.encode_eq_error_iff (code : Code) (instruction : Instruction) :
    (∃ error, code.encode instruction = .error error) ↔ ¬ instruction.WellFormed := by
  rw [encode]
  constructor
  · rintro ⟨error, refused⟩ agrees
    rw [Instruction.encoding_of_wellFormed agrees] at refused
    cases refused
  · intro differs
    cases outcome : instruction.encoding with
    | ok encoding => exact absurd (Instruction.wellFormed_of_encoding outcome) differs
    | error error => exact ⟨error, rfl⟩

/-! ## Machines -/

namespace Machine

variable {machine : Machine} {fault : Fault}

theorem proper_of_perform {α : Type} {action : Execution α} (proper : Core.Proper action)
    (failed : (machine.perform action).1 = .error fault) : fault.Proper := by
  rw [perform] at failed
  cases outcome : action machine.core with
  | ok value after =>
      rw [outcome] at failed
      cases failed
  | error found after =>
      rw [outcome] at failed
      cases failed
      exact (proper machine.core).fails outcome

theorem proper_of_run {grant : Grant} (failed : (machine.run grant).executed = .error fault) :
    fault.Proper := by
  obtain ⟨_, reached, _, ends, _⟩ :=
    machine.steps_of_drain (machine.granted grant).bank.balance []
  rw [← run_eq_drain, EndsWith] at ends
  rw [Run.executed] at failed
  cases ended : (machine.run grant).fault with
  | none =>
      rw [ended] at failed
      cases failed
  | some last =>
      rw [ended] at failed ends
      cases failed
      exact proper_of_perform Core.proper_step (congrArg Prod.fst ends)

/-- **Decoding, encoding and executing agree on the operands of each operation.** An operation is
refused for its operands exactly if they do not have its format, which is when it cannot be encoded;
then nothing changes. No step of a machine and no run is ever refused so. -/
theorem mismatch_iff (machine : Machine) (instruction : Instruction) :
    let performed := machine.perform (Core.executeHere instruction)
    ((∃ opcode address, performed.1 = .error (.formatMismatch opcode address)) ↔
      instruction.operands.format ≠ instruction.opcode.format) ∧
    (∀ code : Code, (∃ error, code.encode instruction = .error error) ↔
      instruction.operands.format ≠ instruction.opcode.format) ∧
    (instruction.operands.format ≠ instruction.opcode.format →
      performed = (.error (.formatMismatch instruction.opcode machine.core.pointer), machine)) ∧
    (∀ opcode address, machine.step.1 ≠ .error (.formatMismatch opcode address)) ∧
    ∀ grant opcode address,
      (machine.run grant).executed ≠ .error (.formatMismatch opcode address) := by
  intro performed
  have refused : ¬ instruction.WellFormed →
      performed = (.error (.formatMismatch instruction.opcode machine.core.pointer), machine) := by
    intro differs
    have ran : Core.executeHere instruction machine.core =
        .error (.formatMismatch instruction.opcode machine.core.pointer) machine.core :=
      congrFun (Core.execute_of_mismatch differs machine.core.pointer) machine.core
    show machine.perform (Core.executeHere instruction) = _
    rw [perform, ran]
  refine ⟨⟨?_, fun differs => ⟨_, _, congrArg Prod.fst (refused differs)⟩⟩,
    fun code => code.encode_eq_error_iff instruction, refused, fun _ _ failed => ?_,
    fun _ _ _ failed => ?_⟩
  · rintro ⟨opcode, address, failed⟩ agrees
    have accepted : Core.Proper (Core.executeHere instruction) :=
      (Core.proper_of_total fun _ => ⟨_, _, rfl⟩).bind (Core.proper_execute agrees)
    exact proper_of_perform accepted failed
  · exact proper_of_perform Core.proper_step failed
  · exact proper_of_run failed

end Machine
end WordMachine
