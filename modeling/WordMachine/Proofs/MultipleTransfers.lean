import WordMachine.Machine.Step
import WordMachine.Proofs.RegisterRows

/-!
# Loading what was stored

A multiple transfer moves one view of each listed register, from the address in a view of its base
register: a store downwards, a load upwards. If the flag of the mask is set and the base is not
listed, the address where the transfer ended is written back to the base, through the base's own
view. Then a load undoes a store (`Core.loadMultiple_undoes_storeMultiple`), provided that the lower
address fits into that view: a narrow view does not go around the end of the address space as the
address does.

Without the write-back the base is a register like any other. The addresses follow from what it held
before the instruction, also if the instruction loads it (`Core.Loads`).
-/

set_option autoImplicit false

namespace WordMachine
namespace Core

/-- The number of bytes that a multiple transfer moves. -/
def transferExtent (width : Width) (mask : UInt16) : Nat :=
  viewBytes width * (RegisterList.indices mask).length

theorem bits_eq_viewBytes (width : Width) : width.bits = 8 * viewBytes width := by
  cases width <;> rfl

theorem viewBytes_le (width : Width) : viewBytes width ≤ 4 := by
  cases width <;> decide

/-- How a load of registers from a start address on can end: with all of them loaded, or with those
before the first one whose row of memory is not all mapped. Nothing but registers changes. -/
inductive Loads (size : Nat) (view : Fin 16 → Register) (listed : List (Fin 16)) (start : UInt32)
    (core : Core) : EStateM.Result Fault Core Unit → Prop
  | whole {registers : RegisterFile}
      (loaded : Loaded size view listed listed start core registers) :
      Loads size view listed start core (.ok () { core with registers })
  | upTo {done later : List (Fin 16)} {stopped : Fin 16} {gap : Nat} {registers : RegisterFile}
      (split : listed = done ++ stopped :: later) (inside : gap < size)
      (first : core.memory.flat.FirstGap (slot size listed start stopped) gap)
      (loaded : Loaded size view listed done start core registers) :
      Loads size view listed start core
        (.error (.memory (.unmapped (slot size listed start stopped + .ofNat gap)))
          { core with registers })

theorem Loads.kept {size : Nat} {view : Fin 16 → Register} {listed : List (Fin 16)} {start : UInt32}
    {core : Core} {outcome : EStateM.Result Fault Core Unit}
    (loads : Loads size view listed start core outcome) {index : Fin 16} (unlisted : index ∉ listed) :
    (finalState outcome).registers.get index = core.registers.get index := by
  cases loads with
  | whole loaded => exact loaded.kept index unlisted
  | upTo split _ _ loaded =>
      refine loaded.kept index fun member => unlisted ?_
      rw [split]
      exact List.mem_append_left _ member

theorem Stores.kept {α : Type} {core : Core} {stored : List StoredByte} {value : α}
    {action : Execution α} (stores : Stores core stored value action) :
    (finalState (action core)).registers = core.registers := by
  obtain ⟨memory, -, run⟩ := stores
  rw [run]
  cases core.memory.flat.gap? stored <;> rfl

section Transfers

variable {width : Width} {mask : UInt16} {base : Register} {core : Core}

theorem executeHere_stm : executeHere ⟨.stm width, .immReg mask base⟩ core =
    (storeDown (viewBytes width) (fun index => readUnsigned ⟨index, width⟩)
      (RegisterList.indices mask).reverse (core.registers.readUnsigned base) >>=
      writeBack mask base) core :=
  rfl

theorem executeHere_ldm : executeHere ⟨.ldm width, .immReg mask base⟩ core =
    (loadUp (viewBytes width) (fun index => write ⟨index, width⟩) (RegisterList.indices mask)
      (core.registers.readUnsigned base) >>= writeBack mask base) core :=
  rfl

theorem readView_run (index : Fin 16) (memory : AddressSpace) :
    readUnsigned ⟨index, width⟩ { core with memory } =
      .ok (core.registers.readUnsigned ⟨index, width⟩) { core with memory } :=
  rfl

/-! ## Without write-back -/

theorem writeBack_of_still
    (still : (RegisterList.flag mask && !RegisterList.lists mask base.index) = false)
    (address : UInt32) : writeBack mask base address = pure () := by
  rw [writeBack, still]
  rfl

theorem still_of_listed (listed : base.index ∈ RegisterList.indices mask) :
    (RegisterList.flag mask && !RegisterList.lists mask base.index) = false := by
  rw [(RegisterList.mem_indices.mp listed).2, Bool.not_true, Bool.and_false]

theorem stores_storeMultiple
    (still : (RegisterList.flag mask && !RegisterList.lists mask base.index) = false) :
    Stores core
      (rowsDown (viewBytes width) (fun index => core.registers.readUnsigned ⟨index, width⟩)
        (RegisterList.indices mask).reverse (core.registers.readUnsigned base))
      () (executeHere ⟨.stm width, .immReg mask base⟩) := by
  have down : Stores core (rowsDown (viewBytes width) _ _ _) _ _ :=
    stores_storeDown (nodup_reverse_indices mask) (core.registers.readUnsigned base)
      (@readView_run width core)
  have rest (memory : AddressSpace) (address : UInt32) :
      Stores { core with memory } [] () (writeBack mask base address) := by
    rw [writeBack_of_still still]
    exact .pure _ ()
  have whole := down.bind fun memory => rest memory _
  rw [List.append_nil] at whole
  rw [Stores, executeHere_stm]
  exact whole

theorem loads_loadMultiple
    (still : (RegisterList.flag mask && !RegisterList.lists mask base.index) = false) (core : Core) :
    Loads (viewBytes width) (⟨·, width⟩) (RegisterList.indices mask)
      (core.registers.readUnsigned base) core
      (executeHere ⟨.ldm width, .immReg mask base⟩ core) := by
  rw [executeHere_ldm]
  have own (index : Fin 16) : Register.index ⟨index, width⟩ = index := rfl
  rcases loadUp_run own (nodup_indices mask) (core.registers.readUnsigned base) core with
    ⟨registers, loaded, run⟩ | ⟨done, stopped, later, split, gap, inside, first, registers, loaded, run⟩
  · rw [run_bind_of_ok run, writeBack_of_still still]
    exact .whole loaded
  · rw [run_bind_of_error run]
    exact .upTo split inside first loaded

/-! ## With write-back -/

/-- The address below a row fits into a view of which the address above it was read, unless the row
goes around the end and the view is narrow. -/
theorem below_fits {extent : Nat} (registers : RegisterFile)
    (room : base.width = .dword ∨ extent ≤ (registers.readUnsigned base).toNat) :
    (registers.readUnsigned base - .ofNat extent).toNat < 2 ^ base.width.bits := by
  rcases room with whole | short
  · -- A whole register goes around the end as the address does.
    rw [whole]
    exact UInt32.toNat_lt _
  · have small := registers.toNat_readUnsigned_lt base
    have same : (UInt32.ofNat extent).toNat = extent :=
      UInt32.toNat_ofNat_of_lt' (Nat.lt_of_le_of_lt short (UInt32.toNat_lt _))
    have lower : UInt32.ofNat extent ≤ registers.readUnsigned base := by
      rw [UInt32.le_iff_toNat_le, same]
      exact short
    rw [UInt32.toNat_sub_of_le _ _ lower]
    exact Nat.lt_of_le_of_lt (Nat.sub_le _ _) small

/-- In a view that is replaced by an address that fits the address is read again. -/
theorem readUnsigned_write_of_lt (registers : RegisterFile) {view : Register}
    (writable : view.index ≠ 0) {value : UInt32} (fits : value.toNat < 2 ^ view.width.bits) :
    (registers.write view value).readUnsigned view = value := by
  rw [RegisterFile.readUnsigned_write _ writable, RegisterFile.and_mask_of_lt fits]

section WriteBack

variable (flag : RegisterList.flag mask = true)
  (unlisted : RegisterList.lists mask base.index = false)
include flag unlisted

theorem storeMultiple_run {bottom : UInt32}
    (below : bottom = core.registers.readUnsigned base - .ofNat (transferExtent width mask))
    (covers : core.memory.flat.Covers bottom (transferExtent width mask)) :
    ∃ memory : AddressSpace,
      memory.flat.row bottom (transferExtent width mask) =
        (rowOf (viewBytes width) (fun index => core.registers.readUnsigned ⟨index, width⟩)
          (RegisterList.indices mask)).map some ∧
      (∀ other, transferExtent width mask ≤ (other - bottom).toNat →
        memory.flat other = core.memory.flat other) ∧
      executeHere ⟨.stm width, .immReg mask base⟩ core =
        .ok () ⟨core.registers.write base bottom, core.pointer, memory⟩ := by
  obtain ⟨memory, row, beside, run⟩ := storeDown_of_covers (nodup_indices mask) below readView_run
    (extent_le (viewBytes_le width) mask) covers
  refine ⟨memory, row, beside, ?_⟩
  rw [executeHere_stm, run_bind_of_ok run, writeBack_run, flag, unlisted]
  rfl

theorem loadMultiple_run (writable : base.index ≠ 0) {start : UInt32}
    (back : core.registers.readUnsigned base + .ofNat (transferExtent width mask) = start)
    (fits : start.toNat < 2 ^ base.width.bits) {value : Fin 16 → UInt32}
    (small : ∀ index, (value index).toNat < 2 ^ width.bits)
    (held : core.memory.flat.row (core.registers.readUnsigned base) (transferExtent width mask) =
      (rowOf (viewBytes width) value (RegisterList.indices mask)).map some) :
    ∃ loaded, executeHere ⟨.ldm width, .immReg mask base⟩ core = .ok () loaded ∧
      (∀ index ∈ RegisterList.indices mask,
        loaded.registers.readUnsigned ⟨index, width⟩ = value index) ∧
      loaded.registers.readUnsigned base = start ∧
      RegisterFile.AgreesOutside (base :: (RegisterList.indices mask).map (⟨·, width⟩))
        core.registers loaded.registers ∧
      loaded.pointer = core.pointer ∧ loaded.memory = core.memory := by
  have own (index : Fin 16) : Register.index ⟨index, width⟩ = index := rfl
  obtain ⟨registers, run, values, agrees⟩ :=
    loadUp_of_row own (fun _ => bits_eq_viewBytes width) (nodup_indices mask) held
  have written : executeHere ⟨.ldm width, .immReg mask base⟩ core =
      .ok () { core with registers := registers.write base start } := by
    rw [executeHere_ldm, run_bind_of_ok run, writeBack_run, flag, unlisted, ← back]
    rfl
  refine ⟨_, written, fun index member => ?_, readUnsigned_write_of_lt _ writable fits, ?_, rfl, rfl⟩
  · -- The base is not listed, so the write-back leaves what was loaded alone.
    obtain ⟨nonzero, listed⟩ := RegisterList.mem_indices.mp member
    have apart : base.index ≠ index := by
      rintro rfl
      exact Bool.false_ne_true (unlisted.symm.trans listed)
    have same : (registers.write base start).get index =
        (core.registers.write ⟨index, width⟩ (value index)).get index :=
      (RegisterFile.get_write_of_ne _ apart _).trans (values index member)
    exact (RegisterFile.readUnsigned_congr same).trans
      (readUnsigned_write_of_lt core.registers nonzero (small index))
  · exact (agrees.mono fun _ => List.mem_cons_of_mem _).trans (.write List.mem_cons_self _ _)

end WriteBack

end Transfers

/-- **A load undoes a store.** With the flag set and a base that is not listed, and with room below
the base's address in memory and in the base's view, a store succeeds and lowers the base to where
the row of the listed views now lies. After anything that leaves this row and the registers that are
not listed alone, a load succeeds, gives each listed view its value back, and raises the base again;
no other bit changes. Without the flag the base stays what it is. If the base is listed, the transfer
is that of the address it held before, with no write-back. -/
theorem loadMultiple_undoes_storeMultiple (width : Width) (mask : UInt16) (base : Register) :
    let listed := RegisterList.indices mask
    let views := listed.map fun index => (⟨index, width⟩ : Register)
    let extent := transferExtent width mask
    let store := executeHere ⟨.stm width, .immReg mask base⟩
    let load := executeHere ⟨.ldm width, .immReg mask base⟩
    (RegisterList.flag mask = true → base.index ≠ 0 → base.index ∉ listed →
      ∀ core : Core,
        let start := core.registers.readUnsigned base
        let bottom := start - .ofNat extent
        core.memory.flat.Covers bottom extent → (base.width = .dword ∨ extent ≤ start.toNat) →
        ∃ stored, store core = .ok () stored ∧
          stored.registers.readUnsigned base = bottom ∧
          RegisterFile.AgreesOutside [base] core.registers stored.registers ∧
          stored.pointer = core.pointer ∧
          stored.memory.flat.row bottom extent =
            (rowOf (viewBytes width) (fun index => core.registers.readUnsigned ⟨index, width⟩)
              listed).map some ∧
          (∀ other, extent ≤ (other - bottom).toNat →
            stored.memory.flat other = core.memory.flat other) ∧
          ∀ disturbed, stored.Spares listed bottom extent disturbed →
            ∃ loaded, load disturbed = .ok () loaded ∧
              (∀ view ∈ views,
                loaded.registers.readUnsigned view = core.registers.readUnsigned view) ∧
              loaded.registers.readUnsigned base = start ∧
              RegisterFile.AgreesOutside (base :: views) disturbed.registers loaded.registers ∧
              loaded.pointer = disturbed.pointer ∧ loaded.memory = disturbed.memory) ∧
    (RegisterList.flag mask = false → base.index ∉ listed → ∀ core : Core,
      (finalState (store core)).registers.get base.index = core.registers.get base.index ∧
        (finalState (load core)).registers.get base.index = core.registers.get base.index) ∧
    (base.index ∈ listed → ∀ core : Core,
      let start := core.registers.readUnsigned base
      Stores core
          (rowsDown (viewBytes width) (fun index => core.registers.readUnsigned ⟨index, width⟩)
            listed.reverse start)
          () store ∧
        Loads (viewBytes width) (⟨·, width⟩) listed start core (load core)) := by
  intro listed views extent store load
  refine ⟨?_, fun flag absent core => ?_, fun member core => ?_⟩
  · intro flag writable absent core start bottom covers room
    have unlisted : RegisterList.lists mask base.index = false :=
      Bool.eq_false_iff.mpr fun listed => absent (RegisterList.mem_indices.mpr ⟨writable, listed⟩)
    obtain ⟨memory, row, beside, run⟩ := storeMultiple_run flag unlisted rfl covers
    have lowered : (core.registers.write base bottom).readUnsigned base = bottom :=
      readUnsigned_write_of_lt core.registers writable (below_fits core.registers room)
    refine ⟨_, run, lowered, .write List.mem_cons_self _ _, rfl, row, beside,
      fun disturbed spares => ?_⟩
    -- The base is not listed, so it points to the row after whatever has happened.
    have address : disturbed.registers.readUnsigned base = bottom :=
      (RegisterFile.readUnsigned_congr (spares.registers base.index absent)).trans lowered
    have back : disturbed.registers.readUnsigned base + .ofNat extent = start := by
      rw [address]
      exact above_below _ _
    have held := spares.row.trans row
    rw [← address] at held
    obtain ⟨loaded, run, values, raised, agrees, same⟩ :=
      loadMultiple_run flag unlisted writable back (core.registers.toNat_readUnsigned_lt base)
        (fun index => core.registers.toNat_readUnsigned_lt ⟨index, width⟩) held
    refine ⟨loaded, run, fun view member => ?_, raised, agrees, same⟩
    obtain ⟨index, listed, rfl⟩ := List.mem_map.mp member
    exact values index listed
  · have still : (RegisterList.flag mask && !RegisterList.lists mask base.index) = false := by
      rw [flag, Bool.false_and]
    exact ⟨congrArg (·.get base.index) (stores_storeMultiple still).kept,
      (loads_loadMultiple still core).kept absent⟩
  · have still := still_of_listed member
    exact ⟨stores_storeMultiple still, loads_loadMultiple still core⟩

/-- The lowest bytes of memory, and an address among them in the low byte of register 3. -/
def narrowBase : Core where
  registers := (RegisterFile.cleared.set 1 0x12345678).set 3 0xAABBCC08
  pointer := 0x10
  memory := ⟨[Region.ofContents 0 16 #[]]⟩

/-- Words of registers 1 and 2 are stored below the address in register 3 and loaded after register 1
was overwritten. Without the flag register 3 stays as it is. If it is listed too, the loaded words
are those from address 8 on. -/
theorem loadMultiple_undoes_storeMultiple_narrowBase :
    (RegisterList.flag 7 = true ∧ (3 : Fin 16) ≠ 0 ∧ (3 : Fin 16) ∉ RegisterList.indices 7 ∧
      narrowBase.memory.flat.Covers 4 4 ∧
      ∃ stored loaded : Core,
        executeHere ⟨.stm .word, .immReg 7 ⟨3, .lowByte⟩⟩ narrowBase = .ok () stored ∧
        stored.registers.readUnsigned ⟨3, .lowByte⟩ = 4 ∧
        executeHere ⟨.ldm .word, .immReg 7 ⟨3, .lowByte⟩⟩
          { stored with registers := stored.registers.set 1 0 } = .ok () loaded ∧
        loaded.registers.readUnsigned ⟨1, .word⟩ = 0x5678 ∧
        loaded.registers.readUnsigned ⟨3, .lowByte⟩ = 8) ∧
    (RegisterList.flag 6 = false ∧ (3 : Fin 16) ∉ RegisterList.indices 6 ∧
      (finalState (executeHere ⟨.stm .word, .immReg 6 ⟨3, .lowByte⟩⟩ narrowBase)).registers.get 3 =
        0xAABBCC08) ∧
    (3 : Fin 16) ∈ RegisterList.indices 15 ∧
      Loads 2 (⟨·, .word⟩) (RegisterList.indices 15) 8 narrowBase
        (executeHere ⟨.ldm .word, .immReg 15 ⟨3, .lowByte⟩⟩ narrowBase) := by
  have flag : RegisterList.flag 7 = true := by decide
  have unlisted : (3 : Fin 16) ∉ RegisterList.indices 7 := by decide
  have covers : narrowBase.memory.flat.Covers 4 4 := by decide
  have still : RegisterList.flag 6 = false := by decide
  have absent : (3 : Fin 16) ∉ RegisterList.indices 6 := by decide
  have member : (3 : Fin 16) ∈ RegisterList.indices 15 := by decide
  obtain ⟨undone, -, -⟩ := loadMultiple_undoes_storeMultiple .word 7 ⟨3, .lowByte⟩
  obtain ⟨-, kept, -⟩ := loadMultiple_undoes_storeMultiple .word 6 ⟨3, .lowByte⟩
  obtain ⟨-, -, listed⟩ := loadMultiple_undoes_storeMultiple .word 15 ⟨3, .lowByte⟩
  obtain ⟨stored, store, lowered, -, -, -, -, back⟩ :=
    undone flag (by decide) unlisted narrowBase covers (.inr (by decide))
  obtain ⟨loaded, load, values, raised, -⟩ :=
    back { stored with registers := stored.registers.set 1 0 }
      ⟨fun index outside => RegisterFile.get_set_of_ne _ _ _ _
        fun same => outside (same ▸ by decide), rfl⟩
  exact ⟨⟨flag, by decide, unlisted, covers, stored, loaded, store, lowered, load,
      values ⟨1, .word⟩ (by decide), raised⟩,
    ⟨still, absent, (kept still absent narrowBase).1⟩, member, (listed member narrowBase).2⟩

end Core
end WordMachine
