import WordMachine.BigEndian
import WordMachine.Handler
import WordMachine.Text.Columns

/-!
# The address space

Memory is a set of regions that share no address. Each has a base and a handler that answers for a
fixed number of bytes from there on, and an address outside every region is a fault. Unless another
kind of handler is named, the regions are plain stores.

The regions are kept with the highest base first, so the only region that can hold an address is
the first one whose base is not above it (`locate?`), and the only one that can share an address
with a new region is the first one whose base lies below the new end (`map`).

Accesses of several bytes go byte by byte and wrap around at the top of the address space. A write
that meets a fault has already stored the bytes before it.
-/

set_option autoImplicit false

namespace WordMachine

open WordMachine.Text

/-- A fault of a memory access, or the reason a region cannot be mapped. -/
inductive MemoryError where
  | unmapped (address : UInt32)
  | overlap (base existing : UInt32)
  | outOfAddressSpace (base : UInt32) (capacity : Nat)
  | emptyRegion (base : UInt32)
  deriving DecidableEq, Repr

/-- The written form of an address. -/
def addressText (address : UInt32) : String :=
  "0x" ++ hexPadded 8 address.toNat

def MemoryError.message : MemoryError → String
  | unmapped address => "memory access violation at " ++ addressText address
  | overlap base existing =>
      "region at " ++ addressText base ++ " overlaps the region at " ++ addressText existing
  | outOfAddressSpace base capacity =>
      "region at " ++ addressText base ++ " of " ++ toString capacity ++
        " bytes extends past the address space"
  | emptyRegion base => "region at " ++ addressText base ++ " is empty"

/-- A run of consecutive addresses from `base` on, as many as its handler has bytes. -/
structure Region (η : Type := Store) where
  base : UInt32
  handler : η

namespace Region

/-- A store of bytes as a region. -/
def ofContents (base : UInt32) (capacity : Nat) (contents : Array UInt8) : Region :=
  ⟨base, Store.ofContents capacity contents⟩

/-- The part of the bytes that is stored. -/
def stored (region : Region) : Array UInt8 :=
  region.handler.stored

variable {η : Type} [Handler η]

/-- The number of bytes. -/
def capacity (region : Region η) : Nat :=
  (Handler.capacity region.handler).toNat

/-- The address past the last byte, or the size of the address space. -/
def finish (region : Region η) : Nat :=
  region.base.toNat + region.capacity

/-- Whether an address belongs to the region. -/
def Contains (region : Region η) (address : UInt32) : Prop :=
  region.base ≤ address ∧ address.toNat < region.finish

instance (region : Region η) (address : UInt32) : Decidable (region.Contains address) :=
  inferInstanceAs (Decidable (_ ∧ _))

/-- The place of an address within a region. -/
def offset (region : Region η) (address : UInt32) : Nat :=
  address.toNat - region.base.toNat

/-- The byte at a place within the region. -/
def byteAt (region : Region η) (place : Nat) : UInt8 :=
  Handler.byteAt region.handler place

/-- All bytes of the region. -/
def contents (region : Region η) : List UInt8 :=
  (List.range region.capacity).map region.byteAt

/-- The region with the byte at a place replaced. -/
def setByte (region : Region η) (place : Nat) (byte : UInt8) : Region η :=
  { region with handler := Handler.setByte region.handler place byte }

/-- The byte at an address, if the region has it. -/
def read? (region : Region η) (address : UInt32) : Option UInt8 :=
  if region.Contains address then some (region.byteAt (region.offset address)) else none

/-- The region with the byte at an address replaced, if it has that address. -/
def write (region : Region η) (address : UInt32) (byte : UInt8) : Region η :=
  if region.Contains address then region.setByte (region.offset address) byte else region

end Region

/-- The mapped regions, highest base first. -/
structure AddressSpace (η : Type := Store) where
  regions : List (Region η)

namespace AddressSpace

/-- The number of addresses. -/
def addressCount : Nat := 2 ^ 32

variable {η : Type}

def empty : AddressSpace η := ⟨[]⟩

/-- Whether some region has a base. -/
def hasRegionAt (space : AddressSpace η) (base : UInt32) : Bool :=
  space.regions.any fun region => region.base == base

/-- The space with the region at a base changed. -/
def updateAt (space : AddressSpace η) (base : UInt32) (change : Region η → Region η) :
    AddressSpace η :=
  ⟨space.regions.map fun region => if region.base = base then change region else region⟩

/-- The regions with one more, in order of their bases. -/
def insertRegion (added : Region η) : List (Region η) → List (Region η)
  | [] => [added]
  | region :: rest =>
      if region.base < added.base then
        added :: region :: rest
      else
        region :: insertRegion added rest

variable [Handler η]

/-- The region that contains an address. -/
def locate? (space : AddressSpace η) (address : UInt32) : Option (Region η) :=
  (space.regions.find? fun region => decide (region.base ≤ address)).filter fun region =>
    decide (region.Contains address)

def isMapped (space : AddressSpace η) (address : UInt32) : Bool :=
  (space.locate? address).isSome

/-- The region that a new one would share an address with. -/
def overlapping? (space : AddressSpace η) (added : Region η) : Option (Region η) :=
  (space.regions.find? fun region => decide (region.base.toNat < added.finish)).filter fun region =>
    decide (added.base.toNat < region.finish)

/-- The space with one more region, which has to have a byte, to fit the address space and to keep
clear of the other regions. -/
def map (space : AddressSpace η) (added : Region η) : Except MemoryError (AddressSpace η) :=
  if added.capacity = 0 then
    .error (.emptyRegion added.base)
  else if addressCount < added.finish then
    .error (.outOfAddressSpace added.base added.capacity)
  else
    match space.overlapping? added with
    | some existing => .error (.overlap added.base existing.base)
    | none => .ok ⟨insertRegion added space.regions⟩

/-- The byte at an address. -/
def read (space : AddressSpace η) (address : UInt32) : Except MemoryError UInt8 :=
  match space.locate? address with
  | some region => .ok (region.byteAt (region.offset address))
  | none => .error (.unmapped address)

/-- The bytes at consecutive addresses. -/
def readBytes (space : AddressSpace η) (address : UInt32) : Nat → Except MemoryError (List UInt8)
  | 0 => .ok []
  | count + 1 => do
      let byte ← space.read address
      let rest ← space.readBytes (address + 1) count
      return byte :: rest

/-- The number held in consecutive bytes. -/
def readNumber (space : AddressSpace η) (address : UInt32) (count : Nat) : Except MemoryError Nat :=
  BigEndian.value <$> space.readBytes address count

/-- Stores a byte. The region is found by the address and then taken by its base. -/
def write (address : UInt32) (byte : UInt8) : EStateM MemoryError (AddressSpace η) Unit :=
  fun space =>
    match (space.locate? address).map Region.base with
    | some base =>
        if space.hasRegionAt base then
          .ok () (space.updateAt base fun region => region.setByte (region.offset address) byte)
        else
          .error (.unmapped address) space
    | none => .error (.unmapped address) space

/-- Stores bytes at consecutive addresses, up to the first fault. -/
def writeBytes (address : UInt32) : List UInt8 → EStateM MemoryError (AddressSpace η) Unit
  | [] => pure ()
  | byte :: rest => do
      write address byte
      writeBytes (address + 1) rest

/-- Stores the last `count` bytes of a number. -/
def writeNumber (address : UInt32) (count value : Nat) :
    EStateM MemoryError (AddressSpace η) Unit :=
  writeBytes address (BigEndian.encode count value)

/-- The bases and capacities of the regions, lowest base first. -/
def outline (space : AddressSpace η) : List (UInt32 × Nat) :=
  space.regions.reverse.map fun region => (region.base, region.capacity)

/-- The written form of the outline. -/
def outlineText (space : AddressSpace η) : String :=
  let entries := space.outline.map fun entry =>
    "(" ++ toString entry.1.toNat ++ ", " ++ toString entry.2 ++ ")"
  "[" ++ ", ".intercalate entries ++ "]"

end AddressSpace
end WordMachine
