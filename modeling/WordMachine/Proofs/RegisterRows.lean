import WordMachine.Proofs.Transfers

/-!
# Registers side by side

A list of registers is stored from the last to the first, each below the one before it, and loaded
from the first to the last, each above the one before it. In memory they lie side by side in the
order of the list (`Core.rowOf`), wherever that is: a row may run through several regions and around
the end of the address space.

Storing lays the row of the values below the start address if the addresses are mapped
(`Core.storeDown_of_covers`). Loading from where a row of values lies gives each register as much of
its value as a row holds (`Core.loadUp_of_row`). So loading undoes storing, and it does not matter
what has become of the registers and of memory beside the row in between.
-/

set_option autoImplicit false

namespace WordMachine
namespace Core

/-! ## Rows of values -/

/-- The bytes of the values of registers, side by side. -/
def rowOf (size : Nat) (value : Fin 16 → UInt32) (listed : List (Fin 16)) : List UInt8 :=
  listed.flatMap fun index => BigEndian.encode size (value index).toNat

section Rows

variable {size : Nat} {value : Fin 16 → UInt32} {listed : List (Fin 16)}

theorem length_rowOf : (rowOf size value listed).length = size * listed.length := by
  induction listed with
  | nil => rfl
  | cons index rest ih =>
      rw [rowOf, List.flatMap_cons, List.length_append, BigEndian.length_encode, List.length_cons,
        Nat.mul_succ, Nat.add_comm]
      exact congrArg (· + size) ih

theorem rowOf_append (more : List (Fin 16)) :
    rowOf size value (listed ++ more) = rowOf size value listed ++ rowOf size value more :=
  List.flatMap_append

/-- The values of all registers in a list are few enough bytes not to overlap around the end. -/
theorem extent_le {size : Nat} (small : size ≤ 4) (mask : UInt16) :
    size * (RegisterList.indices mask).length ≤ AddressSpace.addressCount :=
  Nat.le_trans (Nat.mul_le_mul small (RegisterList.length_indices_le mask)) (by decide)

/-- Below a row there is room for one more, and above that the row ends as before. -/
theorem below_succ (start : UInt32) (size count : Nat) :
    start - .ofNat (size * (count + 1)) = start - .ofNat size - .ofNat (size * count) := by
  rw [Nat.mul_succ, UInt32.ofNat_add]
  grind

theorem above_below (start : UInt32) (size : Nat) : start - .ofNat size + .ofNat size = start := by
  grind

/-! ### Storing -/

theorem gap?_rowsDown_of_covers (once : listed.Nodup) {start : UInt32} {memory : FlatMemory}
    (covers : memory.Covers (start - .ofNat (size * listed.length)) (size * listed.length)) :
    memory.gap? (rowsDown size value listed start) = none := by
  induction listed generalizing start with
  | nil => rfl
  | cons index rest ih =>
      obtain ⟨absent, once⟩ := List.nodup_cons.mp once
      rw [List.length_cons, below_succ, Nat.mul_succ, FlatMemory.covers_append, above_below] at covers
      obtain ⟨lower, upper⟩ := covers
      rw [rowsDown_cons absent, FlatMemory.gap?_append_of_none]
      · exact ih once lower
      · refine FlatMemory.gap?_row_of_covers ?_
        rw [BigEndian.length_encode]
        exact upper

/-- Values that are stored one below the other lie side by side, the last one lowest. -/
theorem putAll_rowsDown (once : listed.Nodup) (start : UInt32) (memory : FlatMemory)
    (short : size * listed.length ≤ AddressSpace.addressCount) :
    memory.putAll (rowsDown size value listed start) =
      memory.overlay (start - .ofNat (size * listed.length)) (rowOf size value listed.reverse) := by
  induction listed generalizing start memory with
  | nil => exact FlatMemory.overlay_nil.symm
  | cons index rest ih =>
      obtain ⟨absent, once⟩ := List.nodup_cons.mp once
      rw [List.length_cons, Nat.mul_succ] at short
      have own : (BigEndian.encode size (value index).toNat).length ≤ AddressSpace.addressCount := by
        rw [BigEndian.length_encode]
        omega
      have last : start - .ofNat size =
          start - .ofNat size - .ofNat (size * rest.length) +
            .ofNat (rowOf size value rest.reverse).length := by
        rw [length_rowOf, List.length_reverse, above_below]
      have single : rowOf size value [index] = BigEndian.encode size (value index).toNat :=
        List.append_nil _
      rw [rowsDown_cons absent, FlatMemory.putAll_append, FlatMemory.putAll_row own,
        ih once _ _ (by omega), List.length_cons, below_succ, List.reverse_cons, rowOf_append,
        single, ← FlatMemory.overlay_append, ← last]

/-- **Storing a list lays its row below the start address** and changes no other byte. -/
theorem storeDown_of_covers {read : Fin 16 → Execution UInt32} (once : listed.Nodup)
    {start bottom : UInt32} (below : bottom = start - .ofNat (size * listed.length)) {core : Core}
    (reads : ∀ index memory,
      read index { core with memory } = .ok (value index) { core with memory })
    (short : size * listed.length ≤ AddressSpace.addressCount)
    (covers : core.memory.flat.Covers bottom (size * listed.length)) :
    ∃ memory : AddressSpace,
      memory.flat.row bottom (size * listed.length) = (rowOf size value listed).map some ∧
      (∀ other, size * listed.length ≤ (other - bottom).toNat →
        memory.flat other = core.memory.flat other) ∧
      storeDown size read listed.reverse start core = .ok bottom { core with memory } := by
  have onceDown : listed.reverse.Nodup := List.pairwise_reverse.mpr (once.imp Ne.symm)
  have down : Stores core (rowsDown size value listed.reverse start)
      (start - .ofNat (size * listed.reverse.length)) (storeDown size read listed.reverse start) :=
    stores_storeDown onceDown start reads
  rw [List.length_reverse, ← below] at down
  have whole : core.memory.flat.gap? (rowsDown size value listed.reverse start) = none := by
    refine gap?_rowsDown_of_covers onceDown ?_
    rwa [List.length_reverse, ← below]
  obtain ⟨memory, receives, run⟩ := down.of_ok whole
  have flat : memory.flat = core.memory.flat.overlay bottom (rowOf size value listed) := by
    rw [receives.flat_of_whole whole, putAll_rowsDown onceDown start, List.length_reverse, ← below,
      List.reverse_reverse]
    rwa [List.length_reverse]
  refine ⟨memory, ?_, fun other far => ?_, run⟩
  · rw [flat, ← length_rowOf]
    exact FlatMemory.row_overlay (by rwa [length_rowOf])
  · rw [flat]
    exact FlatMemory.overlay_of_le (by rwa [length_rowOf])

/-! ### Loading -/

/-- In memory where a row lies each register has its part of it. -/
theorem readNumber_of_row {memory : AddressSpace} {start : UInt32}
    (held : memory.flat.row start (size * listed.length) = (rowOf size value listed).map some)
    {index : Fin 16} (member : index ∈ listed) :
    memory.readNumber (slot size listed start index) size =
      .ok ((value index).toNat % 256 ^ size) := by
  obtain ⟨before, after, split, absent⟩ := List.eq_append_cons_of_mem member
  have place : listed.idxOf index = before.length := by
    rw [split, List.idxOf_append_of_notMem absent, List.idxOf_cons_self, Nat.add_zero]
  have whole : rowOf size value listed =
      rowOf size value before ++ BigEndian.encode size (value index).toNat ++
        rowOf size value after := by
    rw [split, rowOf_append, List.append_assoc]
    rfl
  rw [← length_rowOf, whole] at held
  have own := FlatMemory.row_of_infix held
  rw [BigEndian.length_encode] at own
  rw [slot, place, ← length_rowOf]
  exact AddressSpace.readNumber_of_encoded own

/-- **Loading a list from where its row lies puts the values into the views.** -/
theorem loadUp_of_row {view : Fin 16 → Register} (own : ∀ index, (view index).index = index)
    (fits : ∀ index, (view index).width.bits = 8 * size) (once : listed.Nodup) {start : UInt32}
    {core : Core}
    (held : core.memory.flat.row start (size * listed.length) =
      (rowOf size value listed).map some) :
    ∃ registers : RegisterFile,
      loadUp size (fun index => write (view index)) listed start core =
        .ok (start + .ofNat (size * listed.length)) { core with registers } ∧
      (∀ index ∈ listed,
        registers.get index = (core.registers.write (view index) (value index)).get index) ∧
      RegisterFile.AgreesOutside (listed.map view) core.registers registers := by
  rcases loadUp_run own once start core with
    ⟨registers, loaded, run⟩ | ⟨done, stopped, later, split, gap, inside, first, -⟩
  · refine ⟨registers, run, fun index member => ?_, loaded.agreesOutside⟩
    obtain ⟨number, read, written⟩ := loaded.loaded index member
    cases (readNumber_of_row held member).symm.trans read
    have room : 256 ^ size = 2 ^ (view index).width.bits := by
      rw [fits, Nat.pow_mul]
    have same : (UInt32.ofNat ((value index).toNat % 256 ^ size)).toNat %
        2 ^ (view index).width.bits = (value index).toNat % 2 ^ (view index).width.bits := by
      have bound := (value index).toNat_lt
      have less := Nat.mod_le (value index).toNat (256 ^ size)
      rw [UInt32.toNat_ofNat_of_lt' (Nat.lt_of_le_of_lt less bound), room, Nat.mod_mod]
    rw [written, RegisterFile.write_congr_mask core.registers (view index) same]
  · -- All of the row is mapped, so no register can be missed.
    have member : stopped ∈ listed := split ▸ List.mem_append_right done List.mem_cons_self
    have read := AddressSpace.readNumber_eq_ok_iff.mp (readNumber_of_row held member)
    have covers := FlatMemory.covers_of_row (AddressSpace.row_of_readBytes read.2)
    exact absurd covers (first.not_covers inside)

end Rows

/-- After anything that leaves a row of memory and the registers that are not listed as they were. -/
structure Spares (listed : List (Fin 16)) (start : UInt32) (count : Nat) (core disturbed : Core) :
    Prop where
  registers : ∀ index ∉ listed, disturbed.registers.get index = core.registers.get index
  row : disturbed.memory.flat.row start count = core.memory.flat.row start count

end Core
end WordMachine
