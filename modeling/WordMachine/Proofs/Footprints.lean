import WordMachine.Machine.Run
import WordMachine.Proofs.Transfers

/-!
# What an instruction may change

The footprint of an instruction on a core says which bytes it stores and in which order, which views
of registers it may change and whether it goes elsewhere than to the instruction after it
(`Core.footprint`). It also says which registers are left behind when memory faults: those from
before, except for the loads of register lists and for the end of a frame.

Every instruction keeps to its footprint, whether it succeeds or faults
(`Core.contains_execute`). Nearly all of them read registers and then write some, so there is one
rule for actions that only change registers and pointer, one for those that store first, and one for
memory faults of those that load.
-/

set_option autoImplicit false

namespace WordMachine

open RegisterFile (AgreesOutside)

/-- What an instruction may change of a core, and which registers it may leave behind when memory
faults at an address. -/
structure Footprint (core : Core) where
  stored : List StoredByte := []
  views : List Register := []
  redirects : Bool := false
  left : UInt32 → RegisterFile → Prop := fun _ registers => registers = core.registers

namespace Core

/-! ## The table of footprints -/

/-- Memory faulted at an address while a list of registers was loaded in ascending order. The
registers below the one whose row has the fault have been loaded, and no others. -/
def Interrupted (size : Nat) (view : Fin 16 → Register) (listed : List (Fin 16)) (start : UInt32)
    (core : Core) (missing : UInt32) (registers : RegisterFile) : Prop :=
  ∃ stopped ∈ listed,
    (∃ gap < size, core.memory.flat.FirstGap (slot size listed start stopped) gap ∧
      missing = slot size listed start stopped + .ofNat gap) ∧
    Loaded size view listed (listed.filter (· < stopped)) start core registers

theorem Interrupted.unmapped {size : Nat} {view : Fin 16 → Register} {listed : List (Fin 16)}
    {start missing : UInt32} {core : Core} {registers : RegisterFile}
    (interrupted : Interrupted size view listed start core missing registers) :
    core.memory.flat missing = none := by
  obtain ⟨_, _, ⟨_, _, first, rfl⟩, _⟩ := interrupted
  exact first.missing

section Table

variable (core : Core)

/-- The footprints of stack transfers and frames. -/
def footprintImm (opcode : Opcode) (value : UInt16) : Footprint core :=
  let top := core.registers.get stackIndex
  match opcode with
  | .push =>
      { stored :=
          rowsDown (stackSize value) core.registers.get (RegisterList.indices value).reverse top
        views := [.stackPointer] }
  | .pop =>
      { views := .stackPointer :: (RegisterList.indices value).map (stackView value)
        left :=
          Interrupted (stackSize value) (stackView value) (RegisterList.indices value) top core }
  | .ret => { views := [.stackPointer], redirects := true }
  | .enter =>
      { stored := core.belowTop (core.registers.get baseIndex)
        views := [.stackPointer, .basePointer] }
  | .leave =>
      { views := [.stackPointer, .basePointer]
        left := fun _ registers =>
          registers = core.registers.set stackIndex (core.registers.get baseIndex) }
  | _ => {}

/-- The footprints of operations on one register, relative jumps and multiple transfers. -/
def footprintImmReg (opcode : Opcode) (value : UInt16) (ra : Register) : Footprint core :=
  let start := core.registers.readUnsigned ra
  let base := if RegisterList.flag value then [ra] else []
  match opcode with
  | .movLo | .movHi => { views := [⟨ra.index, .dword⟩] }
  | .jrel condition => { redirects := condition.holds (core.registers.readSigned ra) }
  | .ldm width =>
      { views := (RegisterList.indices value).map (⟨·, width⟩) ++ base
        left := Interrupted (viewBytes width) (⟨·, width⟩) (RegisterList.indices value) start core }
  | .stm width =>
      { stored :=
          rowsDown (viewBytes width) (fun index => core.registers.readUnsigned ⟨index, width⟩)
            (RegisterList.indices value).reverse start
        views := base }
  | _ => { views := [ra] }

/-- The footprints of absolute jumps, calls, single transfers and conditional moves of an
immediate. -/
def footprintImmRegReg (opcode : Opcode) (value : UInt16) (rb ra : Register) : Footprint core :=
  match opcode with
  | .jabs condition => { redirects := condition.holds (core.registers.readSigned ra) }
  | .call condition =>
      if condition.holds (core.registers.readSigned ra) then
        { stored := core.belowTop core.pointer, views := [.stackPointer], redirects := true }
      else
        {}
  | .st size =>
      { stored :=
          StoredByte.row (UInt32.ofInt (signedImmediate value + core.registers.readSigned rb))
            (BigEndian.encode size.bytes (UInt32.ofInt (core.registers.readSigned ra)).toNat) }
  | _ => { views := [ra] }

/-- The footprints of operations on four registers. Products and quotients take two of them. -/
def footprintRegRegRegReg (opcode : Opcode) (rb ra : Register) : Footprint core :=
  match opcode with
  | .imul | .mul | .idiv | .div => { views := [ra, rb] }
  | _ => { views := [ra] }

/-- The footprint of an instruction on a core whose pointer is past it. -/
def footprint (instruction : Instruction) : Footprint core :=
  match instruction.operands with
  | .imm value => core.footprintImm instruction.opcode value
  | .immReg value ra => core.footprintImmReg instruction.opcode value ra
  | .immRegReg value rb ra => core.footprintImmRegReg instruction.opcode value rb ra
  | .regRegReg _ _ ra => { views := [ra] }
  | .regRegRegReg _ _ rb ra => core.footprintRegRegRegReg instruction.opcode rb ra

end Table
end Core

/-! ## Actions that keep to a footprint -/

namespace Footprint

open WordMachine.Core

variable {core : Core} (footprint : Footprint core)

/-- A core that an instruction with this footprint may succeed in. -/
structure Done (after : Core) : Prop where
  mapped : core.memory.flat.gap? footprint.stored = none
  memory : core.memory.Receives footprint.stored after.memory
  registers : AgreesOutside footprint.views core.registers after.registers
  pointer : footprint.redirects = false → after.pointer = core.pointer

/-- The ways in which an instruction with this footprint may fail. -/
inductive Failed : Fault → Core → Prop where
  | division (address : UInt32) : Failed (.divisionByZero address) core
  | memory {missing : UInt32} {registers : RegisterFile} {memory : AddressSpace}
      (unmapped : core.memory.flat missing = none)
      (first : footprint.stored ≠ [] → core.memory.flat.gap? footprint.stored = some missing)
      (receives : core.memory.Receives footprint.stored memory)
      (left : footprint.left missing registers) :
      Failed (.memory (.unmapped missing)) { core with registers, memory }

/-- However the action ends, it keeps to the footprint. -/
def Contains (action : Execution Unit) : Prop :=
  match action core with
  | .ok () after => footprint.Done after
  | .error fault after => footprint.Failed fault after

variable {footprint}

theorem Contains.of_ok {action : Execution Unit} {after : Core} (run : action core = .ok () after)
    (done : footprint.Done after) : footprint.Contains action := by
  rwa [Contains, run]

theorem Contains.of_error {action : Execution Unit} {fault : Fault} {after : Core}
    (run : action core = .error fault after) (failed : footprint.Failed fault after) :
    footprint.Contains action := by
  rwa [Contains, run]

/-- An action that changes registers and pointer only. -/
theorem Contains.of_run {action : Execution Unit} {registers : RegisterFile} {pointer : UInt32}
    (run : action core = .ok () { core with registers, pointer }) (quiet : footprint.stored = [])
    (agrees : AgreesOutside footprint.views core.registers registers)
    (kept : footprint.redirects = false → pointer = core.pointer) :
    footprint.Contains action := by
  refine .of_ok run ⟨?_, ?_, agrees, kept⟩
  · rw [quiet]
    rfl
  · rw [quiet]
    exact .nil core.memory

/-- An action that meets a fault and stores nothing. -/
theorem Contains.of_fault {action : Execution Unit} {registers : RegisterFile} {missing : UInt32}
    (run : action core = .error (.memory (.unmapped missing)) { core with registers })
    (unmapped : core.memory.flat missing = none) (quiet : footprint.stored = []) (left : footprint.left missing registers) :
    footprint.Contains action := by
  refine .of_error run (.memory unmapped (fun stores => absurd quiet stores) ?_ left)
  rw [quiet]
  exact .nil core.memory

/-- An action that stores its bytes and changes nothing else. -/
theorem Contains.of_storing {action : Execution Unit} (stores : Stores core footprint.stored () action)
    (plain : ∀ missing, footprint.left missing core.registers) : footprint.Contains action := by
  cases gap : core.memory.flat.gap? footprint.stored with
  | none =>
      obtain ⟨memory, receives, run⟩ := stores.of_ok gap
      exact .of_ok run ⟨gap, receives, .refl _ _, fun _ => rfl⟩
  | some missing =>
      obtain ⟨memory, receives, run⟩ := stores.of_gap gap
      exact .of_error run (.memory (FlatMemory.unmapped_of_gap? gap) (fun _ => gap) receives (plain missing))

/-- An action that stores its bytes and changes registers and pointer only after that. -/
theorem Contains.of_stores {α : Type} {storing : Execution α} {next : α → Execution Unit} {value : α}
    {registers : RegisterFile} {pointer : UInt32}
    (stores : Stores core footprint.stored value storing)
    (plain : ∀ missing, footprint.left missing core.registers)
    (run : ∀ memory : AddressSpace,
      next value { core with memory } = .ok () ⟨registers, pointer, memory⟩)
    (agrees : AgreesOutside footprint.views core.registers registers)
    (kept : footprint.redirects = false → pointer = core.pointer) :
    footprint.Contains (storing >>= next) := by
  cases gap : core.memory.flat.gap? footprint.stored with
  | none =>
      obtain ⟨memory, receives, stored⟩ := stores.of_ok gap
      exact .of_ok ((run_bind_of_ok stored).trans (run memory)) ⟨gap, receives, agrees, kept⟩
  | some missing =>
      obtain ⟨memory, receives, stopped⟩ := stores.of_gap gap
      exact .of_error (run_bind_of_error stopped) (.memory (FlatMemory.unmapped_of_gap? gap) (fun _ => gap) receives (plain missing))

theorem Contains.of_read {α : Type} {read : Execution α} {next : α → Execution Unit} {value : α}
    (reads : read core = .ok value core) (contains : footprint.Contains (next value)) :
    footprint.Contains (read >>= next) := by
  rwa [Contains, run_bind_of_ok reads]

/-- An action that loads a number first. -/
theorem Contains.of_loadSigned {address : UInt32} {bytes : Nat} {next : Int → Execution Unit}
    (quiet : footprint.stored = []) (plain : ∀ missing, footprint.left missing core.registers)
    (contains : ∀ value, footprint.Contains (next value)) :
    footprint.Contains (loadSigned address bytes >>= next) := by
  rcases load_cases core address bytes with ⟨value, _, run⟩ | ⟨gap, _, first, run⟩
  · have loaded : loadSigned address bytes core = .ok _ core := run_bind_of_ok run
    exact .of_read loaded (contains _)
  · have failed : loadSigned address bytes core = .error _ core := run_bind_of_error run
    exact .of_fault (run_bind_of_error failed) first.missing quiet (plain _)

/-- An action that pushes a dword first. -/
theorem Contains.of_push {next : Unit → Execution Unit} {value : UInt32} (registers : RegisterFile)
    (pointer : UInt32) (stored : footprint.stored = core.belowTop value)
    (plain : ∀ missing, footprint.left missing core.registers)
    (run : ∀ memory : AddressSpace,
      next ()
          ⟨core.registers.set stackIndex (core.registers.get stackIndex - 4), core.pointer, memory⟩ =
        .ok () ⟨registers, pointer, memory⟩)
    (agrees : AgreesOutside footprint.views core.registers registers)
    (kept : footprint.redirects = false → pointer = core.pointer) :
    footprint.Contains (pushDword value >>= next) := by
  obtain ⟨memory, receives, pushed⟩ := pushDword_run value core
  rw [← stored] at receives pushed
  cases gap : core.memory.flat.gap? footprint.stored with
  | none =>
      rw [gap] at pushed
      exact .of_ok ((run_bind_of_ok pushed).trans (run memory)) ⟨gap, receives, agrees, kept⟩
  | some missing =>
      rw [gap] at pushed
      exact .of_error (run_bind_of_error pushed) (.memory (FlatMemory.unmapped_of_gap? gap) (fun _ => gap) receives (plain missing))

end Footprint

/-! ## The instructions keep to their footprints -/

namespace Core

open Footprint (Contains)

section Lists

variable {core : Core} (mask : UInt16) (width : Width) (base : Register)

/-- Of a list in ascending order, the part before a member is the part below it. -/
theorem filter_lt_of_pairwise {done later : List (Fin 16)} {stopped : Fin 16}
    (sorted : (done ++ stopped :: later).Pairwise (· < ·)) :
    (done ++ stopped :: later).filter (· < stopped) = done := by
  obtain ⟨-, rest, apart⟩ := List.pairwise_append.mp sorted
  have below : done.filter (· < stopped) = done :=
    List.filter_eq_self.mpr fun index member =>
      decide_eq_true (apart index member stopped List.mem_cons_self)
  have above : (stopped :: later).filter (· < stopped) = [] := by
    refine List.filter_eq_nil_iff.mpr fun index member => ?_
    rw [decide_eq_true_iff, Fin.not_lt]
    rcases List.mem_cons.mp member with rfl | after
    · exact Fin.le_refl index
    · exact Fin.le_of_lt (List.rel_of_pairwise_cons rest after)
  rw [List.filter_append, below, above, List.append_nil]

/-- A register list is loaded altogether, or it is interrupted. -/
theorem loadUp_cases (size : Nat) (view : Fin 16 → Register) (own : ∀ index, (view index).index = index)
    (start : UInt32) (core : Core) :
    (∃ registers address,
      AgreesOutside ((RegisterList.indices mask).map view) core.registers registers ∧
        loadUp size (fun index => write (view index)) (RegisterList.indices mask) start core =
          .ok address { core with registers }) ∨
    ∃ missing registers,
      Interrupted size view (RegisterList.indices mask) start core missing registers ∧
        loadUp size (fun index => write (view index)) (RegisterList.indices mask) start core =
          .error (.memory (.unmapped missing)) { core with registers } := by
  have sorted := pairwise_indices mask
  rcases loadUp_run own (nodup_indices mask) start core with
    ⟨registers, loaded, run⟩ | ⟨done, stopped, later, whole, gap, inside, first, registers, loaded, run⟩
  · exact .inl ⟨registers, _, loaded.agreesOutside, run⟩
  · refine .inr ⟨_, registers, ⟨stopped, ?_, ⟨gap, inside, first, rfl⟩, ?_⟩, run⟩
    · rw [whole]
      exact List.mem_append_right done List.mem_cons_self
    · have reached := filter_lt_of_pairwise (whole ▸ sorted)
      rw [← whole] at reached
      rwa [reached]

theorem contains_pushList : (core.footprintImm .push mask).Contains (pushList mask) := by
  have stores : Stores core (core.footprintImm .push mask).stored _
      (storeDown (stackSize mask) getRegister _ _) :=
    stores_storeDown (nodup_reverse_indices mask) (core.registers.get stackIndex) fun _ _ => rfl
  refine .of_read rfl (.of_stores stores (fun _ => rfl) (moveStack_run mask _ _ _) ?_ fun _ => rfl)
  split
  · exact .refl _ _
  · exact .set List.mem_cons_self _ _

theorem contains_popList : (core.footprintImm .pop mask).Contains (popList mask) := by
  refine .of_read rfl ?_
  rcases loadUp_cases mask (stackSize mask) (stackView mask) (fun _ => rfl)
    (core.registers.get stackIndex) core with
    ⟨registers, address, agrees, run⟩ | ⟨missing, registers, left, run⟩
  · refine .of_run ((run_bind_of_ok run).trans (moveStack_run mask _ _ _ _)) rfl ?_ fun _ => rfl
    have loaded := agrees.mono fun view => List.mem_cons_of_mem Register.stackPointer
    split
    · exact loaded
    · exact loaded.trans (.set List.mem_cons_self _ _)
  · exact .of_fault (run_bind_of_error run) left.unmapped rfl left

/-- The base is written back only if the flag asks for it. -/
theorem agreesOutside_writeBack {views : List Register}
    (listed : RegisterList.flag mask = true → base ∈ views) (registers : RegisterFile)
    (address : UInt32) :
    AgreesOutside views registers
      (if RegisterList.flag mask && !RegisterList.lists mask base.index then
        registers.write base address
      else registers) := by
  split
  · rename_i both
    exact .write (listed (Bool.and_eq_true_iff.mp both).1) _ _
  · exact .refl _ _

theorem contains_loadMultiple :
    (core.footprintImmReg (.ldm width) mask base).Contains (loadMultiple width mask base) := by
  refine .of_read rfl ?_
  rcases loadUp_cases mask (viewBytes width) (⟨·, width⟩) (fun _ => rfl)
    (core.registers.readUnsigned base) core with
    ⟨registers, address, agrees, run⟩ | ⟨missing, registers, left, run⟩
  · refine .of_run ((run_bind_of_ok run).trans (writeBack_run mask base _ _ _ _)) rfl ?_ fun _ => rfl
    refine (agrees.mono fun view => List.mem_append_left _).trans ?_
    refine agreesOutside_writeBack mask base (fun flag => ?_) _ _
    rw [if_pos flag]
    exact List.mem_append_right _ List.mem_cons_self
  · exact .of_fault (run_bind_of_error run) left.unmapped rfl left

theorem contains_storeMultiple :
    (core.footprintImmReg (.stm width) mask base).Contains (storeMultiple width mask base) := by
  have stores : Stores core (core.footprintImmReg (.stm width) mask base).stored _
      (storeDown (viewBytes width) (fun index => readUnsigned ⟨index, width⟩) _ _) :=
    stores_storeDown (nodup_reverse_indices mask) (core.registers.readUnsigned base) fun _ _ => rfl
  refine .of_read rfl
    (.of_stores stores (fun _ => rfl) (writeBack_run mask base _ _ _) ?_ fun _ => rfl)
  refine agreesOutside_writeBack mask base (fun flag => ?_) _ _
  rw [footprintImmReg, if_pos flag]
  exact List.mem_cons_self

end Lists

/-! ### Instructions of each shape -/

section Shapes

variable {core : Core} {opcode : Opcode} (value : UInt16) (rd rc rb ra : Register)
  (address : UInt32)

theorem contains_executeImm (agrees : opcode.format = .imm) :
    (core.footprintImm opcode value).Contains (executeImm opcode value address) := by
  cases opcode with
  | push => exact contains_pushList value
  | pop => exact contains_popList value
  | ret =>
      rw [executeImm]
      rcases popDword_cases core with ⟨popped, _, run⟩ | ⟨gap, _, first, run⟩
      · refine .of_run ((run_bind_of_ok run).trans rfl) rfl ?_ fun kept => nomatch kept
        exact .trans (.set List.mem_cons_self _ _) (.set List.mem_cons_self _ _)
      · exact .of_fault (run_bind_of_error run) first.missing rfl rfl
  | enter =>
      let frame := core.registers.set stackIndex (core.registers.get stackIndex - 4)
      rw [executeImm]
      refine .of_read rfl (.of_push
        ((frame.set baseIndex (frame.get stackIndex)).set stackIndex
          (frame.get stackIndex - extendedImmediate value))
        core.pointer rfl (fun _ => rfl) (fun _ => rfl) ?_ fun _ => rfl)
      refine .trans (.set List.mem_cons_self _ _) (.trans (.set ?_ _ _) (.set List.mem_cons_self _ _))
      exact List.mem_cons_of_mem _ List.mem_cons_self
  | leave =>
      let frame := core.registers.set stackIndex (core.registers.get baseIndex)
      have moved : AgreesOutside [.stackPointer, .basePointer] core.registers frame :=
        .set List.mem_cons_self _ _
      have run : executeImm .leave value address core =
          (popDword >>= setRegister baseIndex) { core with registers := frame } := rfl
      rcases popDword_cases { core with registers := frame } with
        ⟨popped, _, pops⟩ | ⟨gap, _, first, faults⟩
      · have done := run.trans (run_bind_of_ok pops)
        refine .of_run done rfl ?_ fun _ => rfl
        refine moved.trans (.trans (.set List.mem_cons_self _ _) (.set ?_ _ _))
        exact List.mem_cons_of_mem _ List.mem_cons_self
      · exact .of_fault (run.trans (run_bind_of_error faults)) first.missing rfl rfl
  | _ => cases agrees

theorem contains_executeImmReg (agrees : opcode.format = .immReg) :
    (core.footprintImmReg opcode value ra).Contains (executeImmReg opcode value ra address) := by
  cases opcode with
  | jrel condition =>
      refine .of_read rfl ?_
      cases holds : condition.holds (core.registers.readSigned ra) with
      | true => exact .of_run rfl rfl (.refl _ _) fun kept => nomatch holds.symm.trans kept
      | false => exact .of_run rfl rfl (.refl _ _) fun _ => rfl
  | ldm width => exact contains_loadMultiple value width ra
  | stm width => exact contains_storeMultiple value width ra
  | movI | addI | subI | rsubI | shlI | shrI | sarI =>
      exact .of_run rfl rfl (.write List.mem_cons_self _ _) fun _ => rfl
  | movLo | movHi => exact .of_run rfl rfl (.set List.mem_cons_self _ _) fun _ => rfl
  | _ => cases agrees

theorem contains_executeImmRegReg (agrees : opcode.format = .immRegReg) :
    (core.footprintImmRegReg opcode value rb ra).Contains
      (executeImmRegReg opcode value rb ra address) := by
  cases opcode with
  | jabs condition =>
      refine .of_read rfl ?_
      cases holds : condition.holds (core.registers.readSigned ra) with
      | true => exact .of_run rfl rfl (.refl _ _) fun kept => nomatch holds.symm.trans kept
      | false => exact .of_run rfl rfl (.refl _ _) fun _ => rfl
  | call condition =>
      refine .of_read rfl ?_
      rw [footprintImmRegReg]
      split
      · exact .of_read rfl (.of_read rfl (.of_push _ _ rfl (fun _ => rfl) (fun _ => rfl)
          (.set List.mem_cons_self _ _) fun kept => nomatch kept))
      · exact .of_run rfl rfl (.refl _ _) fun _ => rfl
  | ld size =>
      exact .of_read rfl (.of_loadSigned rfl (fun _ => rfl) fun _ =>
        .of_run rfl rfl (.write List.mem_cons_self _ _) fun _ => rfl)
  | st size =>
      exact .of_read rfl (.of_read rfl (.of_storing (stores_store core _ _ _) (fun _ => rfl)))
  | cmovI =>
      refine .of_read rfl ?_
      split
      · exact .of_run rfl rfl (.write List.mem_cons_self _ _) fun _ => rfl
      · exact .of_run rfl rfl (.refl _ _) fun _ => rfl
  | _ => cases agrees

theorem contains_executeRegRegReg (agrees : opcode.format = .regRegReg) :
    (core.footprint ⟨opcode, .regRegReg rc rb ra⟩).Contains
      (executeRegRegReg opcode rc rb ra address) := by
  cases opcode with
  | cmovR =>
      refine .of_read rfl ?_
      split
      · exact .of_run rfl rfl (.write List.mem_cons_self _ _) fun _ => rfl
      · exact .of_run rfl rfl (.refl _ _) fun _ => rfl
  | addR | subR | andR | orR | xorR | andnR | ornR | shlR | shrR | sarR
  | paddW | paddB | psubW | psubB =>
      exact .of_run rfl rfl (.write List.mem_cons_self _ _) fun _ => rfl
  | _ => cases agrees

theorem contains_writeQuotient (dividend divisor : Int) :
    (⟨[], [ra, rb], false, fun _ registers => registers = core.registers⟩ : Footprint core).Contains
      (writeQuotient ra rb dividend divisor address) := by
  rw [writeQuotient]
  split
  · exact .of_error (run_bind_of_error rfl) (.division address)
  · exact .of_run rfl rfl (.write_write _ _ _ _ _) fun _ => rfl

theorem contains_executeRegRegRegReg (agrees : opcode.format = .regRegRegReg) :
    (core.footprintRegRegRegReg opcode rb ra).Contains
      (executeRegRegRegReg opcode rd rc rb ra address) := by
  cases opcode with
  | imul | mul => exact .of_run rfl rfl (.write_write _ _ _ _ _) fun _ => rfl
  | idiv | div => exact .of_read rfl (.of_read rfl (contains_writeQuotient rb ra address _ _))
  | imac => exact .of_run rfl rfl (.write List.mem_cons_self _ _) fun _ => rfl
  | _ => cases agrees

end Shapes

/-- **Every instruction keeps to its footprint.** -/
theorem contains_execute {instruction : Instruction} (agrees : instruction.WellFormed)
    (core : Core) (address : UInt32) :
    (core.footprint instruction).Contains (execute instruction address) := by
  obtain ⟨opcode, operands⟩ := instruction
  have format : opcode.format = operands.format := Eq.symm agrees
  cases operands with
  | imm value => exact contains_executeImm value address format
  | immReg value ra => exact contains_executeImmReg value ra address format
  | immRegReg value rb ra => exact contains_executeImmRegReg value rb ra address format
  | regRegReg rc rb ra => exact contains_executeRegRegReg rc rb ra address format
  | regRegRegReg rd rc rb ra =>
      exact contains_executeRegRegRegReg rd rc rb ra address format

end Core

namespace Machine

/-- **An instruction that succeeds changes only what is in its footprint.** The bytes that it stores
are all mapped, and memory is as it was but for them. The pointer stays unless the instruction goes
elsewhere, no bit of a register changes outside of the views it may change, and the register of index
zero reads zero. -/
theorem performed_within_footprint {instruction : Instruction} {machine after : Machine}
    (agrees : instruction.WellFormed)
    (performed : machine.perform (Core.executeHere instruction) = (.ok (), after)) :
    let footprint := machine.core.footprint instruction
    after.core.memory.flat = machine.core.memory.flat.putAll footprint.stored ∧
    (∀ one ∈ footprint.stored, machine.core.memory.flat one.address ≠ none) ∧
    (∀ address, (∀ one ∈ footprint.stored, address ≠ one.address) →
      after.core.memory.flat address = machine.core.memory.flat address) ∧
    (footprint.stored = [] → after.core.memory = machine.core.memory) ∧
    (footprint.redirects = false → after.core.pointer = machine.core.pointer) ∧
    AgreesOutside footprint.views machine.core.registers after.core.registers ∧
    (∀ width,
      after.core.registers.readUnsigned ⟨0, width⟩ = 0 ∧
        after.core.registers.readSigned ⟨0, width⟩ = 0) ∧
    after.bank = machine.bank ∧ after.configuration = machine.configuration := by
  intro footprint
  have contains := Core.contains_execute agrees machine.core machine.core.pointer
  have same : Core.executeHere instruction machine.core =
      Core.execute instruction machine.core.pointer machine.core := rfl
  rw [perform, same] at performed
  rw [Footprint.Contains] at contains
  cases run : Core.execute instruction machine.core.pointer machine.core with
  | error fault core =>
      rw [run] at performed
      cases performed
  | ok value core =>
      rw [run] at performed contains
      cases performed
      have flat := contains.memory.flat_of_whole contains.mapped
      refine ⟨flat, FlatMemory.gap?_eq_none_iff.mp contains.mapped, fun address apart => ?_,
        contains.memory.nothing, contains.pointer, contains.registers, fun width => ⟨?_, ?_⟩,
        rfl, rfl⟩
      · exact (congrFun flat address).trans (FlatMemory.putAll_of_not_mem apart)
      · exact RegisterFile.readUnsigned_zero _ width
      · exact RegisterFile.readSigned_zero _ width

/-- A stack of eight bytes, a value to push and nothing else. -/
def pushingMachine : Machine :=
  { standard ⟨[Region.ofContents 0x20 8 #[1, 2, 3, 4, 5, 6, 7, 8]]⟩ with
    core :=
      { registers := (RegisterFile.cleared.set 1 0xCAFE).set Core.stackIndex 0x28
        pointer := 0x100
        memory := ⟨[Region.ofContents 0x20 8 #[1, 2, 3, 4, 5, 6, 7, 8]]⟩ } }

theorem performed_within_footprint_push :
    (⟨.push, .imm 0b11⟩ : Instruction).WellFormed ∧
    ∃ after, pushingMachine.perform (Core.executeHere ⟨.push, .imm 0b11⟩) = (.ok (), after) ∧
      after.core.memory.flat 0x23 = some 4 ∧
      after.core.memory.flat 0x26 = some 0xCA ∧
      after.core.pointer = 0x100 ∧
      after.core.registers.get 1 = 0xCAFE := by
  have agrees : (⟨.push, .imm 0b11⟩ : Instruction).WellFormed := rfl
  have performed : pushingMachine.perform (Core.executeHere ⟨.push, .imm 0b11⟩) =
      (.ok (), (pushingMachine.perform (Core.executeHere ⟨.push, .imm 0b11⟩)).2) := rfl
  obtain ⟨flat, -, -, -, pointer, registers, -⟩ := performed_within_footprint agrees performed
  refine ⟨agrees, _, performed, ?_, ?_, pointer rfl, ?_⟩
  · rw [flat]
    decide
  · rw [flat]
    decide
  · exact registers.get_eq (by decide)

end Machine
end WordMachine
