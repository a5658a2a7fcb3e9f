import WordMachine.Register

/-!
# Lists of registers in a mask

Pushes, pops and multiple transfers name a set of registers by the bits of their immediate: bit
`n` stands for the register of index `n`. The zero register cannot be listed; its bit carries a
flag instead.
-/

set_option autoImplicit false

namespace WordMachine.RegisterList

/-- Whether the bit of a register is set. -/
def lists (mask : UInt16) (index : Fin 16) : Bool :=
  mask.toNat.testBit index.val

/-- The flag in the bit of the zero register. -/
def flag (mask : UInt16) : Bool :=
  lists mask 0

/-- The listed registers in ascending order, without the zero register. -/
def indices (mask : UInt16) : List (Fin 16) :=
  (List.finRange 16).filter fun index => index != 0 && lists mask index

/-- The mask of a single register. -/
def bit (index : Fin 16) : UInt16 :=
  UInt16.ofNat (2 ^ index.val)

theorem mem_indices {mask : UInt16} {index : Fin 16} :
    index ∈ indices mask ↔ index ≠ 0 ∧ lists mask index = true := by
  simp [indices]

theorem length_indices_le (mask : UInt16) : (indices mask).length ≤ 16 :=
  Nat.le_trans (List.length_filter_le _ _) (Nat.le_of_eq List.length_finRange)

end WordMachine.RegisterList
