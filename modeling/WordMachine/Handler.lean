import WordMachine.Numerals

/-!
# What occupies a region

Behind the addresses of a region stands a device or a store of bytes. All that memory asks of it is
its capacity, which never changes, and to read or to replace the byte at a place, counted from the
first byte of the region (`Handler`).

The plain case is a `Store`, which gives back the bytes that were put into it. It holds its bytes
only as far as they have been set, and replacing one byte changes no other
(`Store.byteAt_setByte`).
-/

set_option autoImplicit false

namespace WordMachine

/-- A device or a store with a fixed number of bytes. It is asked only for places below its
capacity. -/
class Handler (η : Type) where
  capacity : η → UInt32
  byteAt : η → Nat → UInt8
  setByte : η → Nat → UInt8 → η
  capacity_setByte : ∀ (handler : η) (place : Nat) (byte : UInt8),
    capacity (setByte handler place byte) = capacity handler

/-- A number of bytes. Only a first part of them is stored; those after it are zero. -/
structure Store where
  size : Nat
  stored : Array UInt8

namespace Store

/-- A store that starts with some bytes. It has the size asked for, or the number of these bytes if
they are more. -/
def ofContents (size : Nat) (contents : Array UInt8) : Store :=
  ⟨max size contents.size, contents⟩

/-- The byte at a place. -/
def byteAt (store : Store) (place : Nat) : UInt8 :=
  (store.stored[place]?).getD 0

/-- The store with the byte at a place replaced. Zeros up to that place become stored as well. -/
def setByte (store : Store) (place : Nat) (byte : UInt8) : Store :=
  let zeros := Array.replicate (place + 1 - store.stored.size) 0
  { store with stored := (store.stored ++ zeros).setIfInBounds place byte }

/-- **A replaced byte is the only one that changes.** -/
theorem byteAt_setByte (store : Store) (place : Nat) (byte : UInt8) (other : Nat) :
    (store.setByte place byte).byteAt other =
      if other = place then byte else store.byteAt other := by
  simp only [byteAt, setByte, Array.getElem?_setIfInBounds, Array.size_append, Array.size_replicate]
  by_cases same : place = other
  · subst same
    rw [if_pos rfl, if_pos rfl, if_pos (by omega)]
    rfl
  · rw [if_neg same, if_neg (Ne.symm same), Array.getElem?_append]
    split
    · rfl
    · rename_i outside
      rw [Array.getElem?_eq_none (Nat.le_of_not_lt outside), Array.getElem?_replicate]
      split <;> rfl

instance : Handler Store where
  capacity store := UInt32.ofNat store.size
  byteAt := byteAt
  setByte := setByte
  capacity_setByte _ _ _ := rfl

end Store
end WordMachine
