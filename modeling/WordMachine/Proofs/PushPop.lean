import WordMachine.Proofs.CallNesting
import WordMachine.Proofs.RegisterRows

/-!
# Popping what was pushed

A push lays the row of the listed registers below the top of the stack and moves the top down to
it. Whatever happens to these registers then, and to memory beside the row, a pop with the same mask
puts them back and the top where it was (`Core.pop_undoes_push`). Dwords are put back as a whole. Of
words only the low half is, because no more was pushed.
-/

set_option autoImplicit false

namespace WordMachine
namespace Core

/-- The number of bytes that a stack transfer moves. -/
def stackExtent (mask : UInt16) : Nat :=
  stackSize mask * (RegisterList.indices mask).length

theorem stackSize_le (mask : UInt16) : stackSize mask ≤ 4 := by
  rw [stackSize]
  split <;> decide

theorem bits_stackView (mask : UInt16) (index : Fin 16) :
    (stackView mask index).width.bits = 8 * stackSize mask := by
  rw [stackView, stackSize]
  split <;> rfl

theorem offset_stackView (mask : UInt16) (index : Fin 16) :
    (stackView mask index).width.offset = 0 := by
  rw [stackView]
  split <;> rfl

theorem covers_stackView {mask : UInt16} {index : Fin 16} {place : Nat} :
    (stackView mask index).Covers index place ↔ place < 8 * stackSize mask := by
  rw [← bits_stackView mask index, Register.Covers, Width.Covers, offset_stackView, Nat.zero_add]
  simp [stackView]

theorem push_run {mask : UInt16} {core : Core}
    (free : RegisterList.lists mask stackIndex = false) {bottom : UInt32}
    (below : bottom = core.top - .ofNat (stackExtent mask))
    (covers : core.memory.flat.Covers bottom (stackExtent mask)) :
    ∃ memory : AddressSpace,
      memory.flat.row bottom (stackExtent mask) =
        (rowOf (stackSize mask) core.registers.get (RegisterList.indices mask)).map some ∧
      (∀ other, stackExtent mask ≤ (other - bottom).toNat →
        memory.flat other = core.memory.flat other) ∧
      executeHere ⟨.push, .imm mask⟩ core =
        .ok () ⟨core.registers.set stackIndex bottom, core.pointer, memory⟩ := by
  have reads (index : Fin 16) (memory : AddressSpace) :
      getRegister index { core with memory } =
        .ok (core.registers.get index) { core with memory } := rfl
  obtain ⟨memory, row, beside, run⟩ :=
    storeDown_of_covers (nodup_indices mask) below reads (extent_le (stackSize_le mask) mask) covers
  refine ⟨memory, row, beside, ?_⟩
  have unfolded : executeHere ⟨.push, .imm mask⟩ core =
      (storeDown (stackSize mask) getRegister (RegisterList.indices mask).reverse core.top >>=
        moveStack mask) core := rfl
  rw [unfolded, run_bind_of_ok run, moveStack_run, free]
  rfl

theorem pop_run {mask : UInt16} {value : Fin 16 → UInt32} {core : Core}
    (free : RegisterList.lists mask stackIndex = false)
    (held : core.memory.flat.row core.top (stackExtent mask) =
      (rowOf (stackSize mask) value (RegisterList.indices mask)).map some) :
    ∃ registers : RegisterFile,
      executeHere ⟨.pop, .imm mask⟩ core =
        .ok ()
          { core with
            registers := registers.set stackIndex (core.top + .ofNat (stackExtent mask)) } ∧
      (∀ index ∈ RegisterList.indices mask,
        registers.get index = (core.registers.write (stackView mask index) (value index)).get index) ∧
      ∀ index ∉ RegisterList.indices mask, registers.get index = core.registers.get index := by
  obtain ⟨registers, run, values, agrees⟩ :=
    loadUp_of_row (fun _ => rfl) (bits_stackView mask) (nodup_indices mask) held
  refine ⟨registers, ?_, values, fun index unlisted => agrees.get_eq fun view listed => ?_⟩
  · have unfolded : executeHere ⟨.pop, .imm mask⟩ core =
        (loadUp (stackSize mask) (fun index => write (stackView mask index))
          (RegisterList.indices mask) core.top >>= moveStack mask) core := rfl
    rw [unfolded, run_bind_of_ok run, moveStack_run, free]
    rfl
  · obtain ⟨other, member, rfl⟩ := List.mem_map.mp listed
    exact fun same => unlisted (same ▸ member)

/-- **A pop undoes a push.** The bytes below the top are mapped and the stack pointer is not listed.
Then a push succeeds, moves the top down, lays the listed registers there in ascending order and
changes nothing else. After anything that leaves these bytes and the registers that are not listed
alone, a pop succeeds, moves the top back, and gives each listed register the bits that were pushed;
nothing else changes. -/
theorem pop_undoes_push (mask : UInt16) (core : Core)
    (free : RegisterList.lists mask stackIndex = false)
    (covers : core.memory.flat.Covers (core.top - .ofNat (stackExtent mask)) (stackExtent mask)) :
    let listed := RegisterList.indices mask
    let bottom := core.top - .ofNat (stackExtent mask)
    ∃ pushed, executeHere ⟨.push, .imm mask⟩ core = .ok () pushed ∧
      pushed.registers = core.registers.set stackIndex bottom ∧ pushed.pointer = core.pointer ∧
      pushed.memory.flat.row bottom (stackExtent mask) =
        (rowOf (stackSize mask) core.registers.get listed).map some ∧
      (∀ other, stackExtent mask ≤ (other - bottom).toNat →
        pushed.memory.flat other = core.memory.flat other) ∧
      ∀ disturbed, pushed.Spares listed bottom (stackExtent mask) disturbed →
        ∃ popped, executeHere ⟨.pop, .imm mask⟩ disturbed = .ok () popped ∧
          popped.top = core.top ∧
          (∀ index ∈ listed, ∀ place, popped.registers.bit index place =
            if place < 8 * stackSize mask then core.registers.bit index place
            else disturbed.registers.bit index place) ∧
          (∀ index ∉ listed, index ≠ stackIndex →
            popped.registers.get index = disturbed.registers.get index) ∧
          popped.pointer = disturbed.pointer ∧ popped.memory = disturbed.memory := by
  intro listed bottom
  have back : bottom + .ofNat (stackExtent mask) = core.top := above_below _ _
  have unlisted : stackIndex ∉ listed := by
    rw [RegisterList.mem_indices, free]
    exact fun both => Bool.noConfusion both.2
  obtain ⟨memory, row, beside, push⟩ := push_run free rfl covers
  refine ⟨_, push, rfl, rfl, row, beside, fun disturbed spares => ?_⟩
  -- The stack pointer is not listed, so it points to the row after whatever has happened.
  have top : disturbed.top = bottom :=
    (spares.registers stackIndex unlisted).trans (RegisterFile.get_set_self _ _ _ (by decide))
  have held := spares.row.trans row
  rw [← top] at held
  obtain ⟨registers, pop, values, kept⟩ := pop_run free held
  rw [top, back] at pop
  refine ⟨_, pop, RegisterFile.get_set_self _ _ _ (by decide), fun index member place => ?_,
    fun index absent apart => ?_, rfl, rfl⟩
  · have apart : index ≠ stackIndex := fun same => unlisted (same ▸ member)
    have writable := (RegisterList.mem_indices.mp member).1
    rw [RegisterFile.bit_set, if_neg fun both => apart both.1, RegisterFile.bit, values index member]
    have bits := disturbed.registers.bit_write (stackView mask index)
      (core.registers.get index) index place
    rw [offset_stackView, Nat.sub_zero] at bits
    simp only [covers_stackView, and_iff_left writable] at bits
    exact bits
  · dsimp only
    rw [RegisterFile.get_set_of_ne _ _ _ _ apart, kept index absent]

/-- Two registers in use, and a stack that goes around the end of the address space. -/
def twoInUse : Core :=
  { wrappingStack with
    registers := (wrappingStack.registers.set 1 0x12345678).set 9 0x9ABCDEF0 }

/-- Registers 1, 2 and 9 are pushed as dwords. Then register 1 is overwritten and the pointer moves
on; a pop brings both values back. -/
theorem pop_undoes_push_oneOverwritten :
    RegisterList.lists 0x207 stackIndex = false ∧
    twoInUse.memory.flat.Covers (twoInUse.top - .ofNat (stackExtent 0x207)) (stackExtent 0x207) ∧
    ∃ pushed popped : Core, executeHere ⟨.push, .imm 0x207⟩ twoInUse = .ok () pushed ∧
      pushed.top = 0xFFFFFFFC ∧
      executeHere ⟨.pop, .imm 0x207⟩
        { pushed with registers := pushed.registers.set 1 7, pointer := 0x20 } = .ok () popped ∧
      popped.top = 8 ∧ popped.registers.get 1 = 0x12345678 ∧
      popped.registers.get 9 = 0x9ABCDEF0 ∧ popped.pointer = 0x20 := by
  have free : RegisterList.lists 0x207 stackIndex = false := by decide
  have covers : twoInUse.memory.flat.Covers (twoInUse.top - .ofNat (stackExtent 0x207))
      (stackExtent 0x207) := by decide
  obtain ⟨pushed, push, moved, -, -, -, back⟩ := pop_undoes_push 0x207 twoInUse free covers
  obtain ⟨popped, pop, top, bits, -, pointer, -⟩ :=
    back { pushed with registers := pushed.registers.set 1 7, pointer := 0x20 }
      ⟨fun index unlisted => RegisterFile.get_set_of_ne _ _ _ _
        fun same => unlisted (same ▸ by decide), rfl⟩
  have restored (index : Fin 16) (listed : index ∈ RegisterList.indices 0x207) :
      popped.registers.get index = twoInUse.registers.get index :=
    RegisterFile.get_eq_of_bits fun place => by
      rw [bits index listed]
      refine ite_eq_left_iff.mpr fun outside => ?_
      have above : 32 ≤ place := Nat.le_of_not_lt outside
      rw [RegisterFile.bit_of_le _ above, RegisterFile.bit_of_le _ above]
  have lowered : pushed.top = 0xFFFFFFFC := by
    rw [Core.top, moved]
    decide
  exact ⟨free, covers, pushed, popped, push, lowered, pop, top, restored 1 (by decide),
    restored 9 (by decide), pointer⟩

end Core
end WordMachine
