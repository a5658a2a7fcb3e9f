import WordMachine.Proofs.Transfers
import WordMachine.Proofs.ViewNumbers

/-!
# Numbers in memory

A register is stored as the last bytes of a number in two's complement (`BigEndian.encodeSigned`), and
bytes are loaded as the number of their class that has a sign. So a load after a store gives the
number of the register with the sign of its last byte stored, whatever the widths of the two views
are (`Core.load_follows_store`). The address is found before the register is written, so the register
may be the one that the address comes from.
-/

set_option autoImplicit false

namespace WordMachine

namespace BigEndian

/-- The last bytes of a number in two's complement. -/
def encodeSigned (count : Nat) (number : Int) : List UInt8 :=
  encode count (number % (256 ^ count : Nat)).toNat

theorem length_encodeSigned (count : Nat) (number : Int) :
    (encodeSigned count number).length = count :=
  length_encode count _

theorem natCast_toNat_emod (number : Int) (count : Nat) :
    ((number % (256 ^ count : Nat)).toNat : Int) = number % (256 ^ count : Nat) := by
  have positive : 256 ^ count ≠ 0 := Nat.ne_of_gt (Nat.pow_pos (by decide))
  exact Int.toNat_of_nonneg (Int.emod_nonneg _ (Int.natCast_ne_zero.mpr positive))

/-- The bytes of a word are the last ones of each number that it is the word of. -/
theorem encode_ofInt {count : Nat} (short : count ≤ 4) (number : Int) :
    encode count (UInt32.ofInt number).toNat = encodeSigned count number := by
  have divides : ((256 ^ count : Nat) : Int) ∣ (2 ^ 32 : Nat) :=
    Int.natCast_dvd_natCast.mpr (Nat.pow_dvd_pow 256 short)
  refine encode_eq_of_mod (Int.natCast_inj.mp ?_)
  rw [Int.natCast_emod, Int.natCast_emod, natCast_toNat_emod, RegisterFile.toNat_ofInt,
    Int.emod_emod_of_dvd _ divides, Int.emod_emod]

end BigEndian

theorem Size.bytes_le (size : Size) : size.bytes ≤ 4 := by
  cases size <;> decide

theorem Size.two_pow_bits (size : Size) : 2 ^ (8 * size.bytes) = 256 ^ size.bytes :=
  Nat.pow_mul 2 8 size.bytes

namespace Core

/-- The address that an immediate and a base register stand for. -/
def addressed (core : Core) (value : UInt16) (base : Register) : UInt32 :=
  .ofInt (signedImmediate value + core.registers.readSigned base)

section Transfers

variable {size : Size} {value : UInt16} {base : Register} {core : Core}

/-- **A register is stored as the last bytes of its number.** -/
theorem store_run (covers : core.memory.flat.Covers (core.addressed value base) size.bytes)
    (r : Register) (address : UInt32) :
    ∃ memory : AddressSpace,
      memory.flat.row (core.addressed value base) size.bytes =
        (BigEndian.encodeSigned size.bytes (core.registers.readSigned r)).map some ∧
      (∀ other, size.bytes ≤ (other - core.addressed value base).toNat →
        memory.flat other = core.memory.flat other) ∧
      execute ⟨.st size, .immRegReg value base r⟩ address core = .ok () { core with memory } := by
  have short : size.bytes ≤ AddressSpace.addressCount := Nat.le_trans size.bytes_le (by decide)
  have length := BigEndian.length_encodeSigned size.bytes (core.registers.readSigned r)
  obtain ⟨memory, flat, -, run⟩ :=
    store_of_covers short covers (UInt32.ofInt (core.registers.readSigned r)).toNat
  rw [BigEndian.encode_ofInt size.bytes_le] at flat
  refine ⟨memory, ?_, fun other far => ?_, run⟩
  · have laid := @FlatMemory.row_overlay core.memory.flat (core.addressed value base) _
      (Nat.le_trans (Nat.le_of_eq length) short)
    rwa [length, ← flat] at laid
  · rw [flat]
    exact FlatMemory.overlay_of_le (length.symm ▸ far)

theorem loadSigned_of_row {address : UInt32} {bytes : Nat} {number : Int}
    (held : core.memory.flat.row address bytes = (BigEndian.encodeSigned bytes number).map some) :
    loadSigned address bytes core = .ok (Int.bmod number (256 ^ bytes)) core := by
  have loaded := load_of_row held
  have small : (number % (256 ^ bytes : Nat)).toNat < 256 ^ bytes := by
    have bound := Int.emod_lt_of_pos number
      (Int.natCast_pos.mpr (Nat.pow_pos (by decide) : 0 < 256 ^ bytes))
    rw [← BigEndian.natCast_toNat_emod] at bound
    exact Int.ofNat_lt.mp bound
  rw [Nat.mod_eq_of_lt small] at loaded
  have unfolded : loadSigned address bytes core = (do
      return Int.bmod (← load address bytes) (256 ^ bytes)) core := rfl
  rw [unfolded, run_bind_of_ok loaded, BigEndian.natCast_toNat_emod, Int.emod_bmod]
  rfl

/-- **A number is loaded with the sign of its last bytes.** -/
theorem load_run {number : Int}
    (held : core.memory.flat.row (core.addressed value base) size.bytes =
      (BigEndian.encodeSigned size.bytes number).map some)
    (s : Register) (address : UInt32) :
    execute ⟨.ld size, .immRegReg value base s⟩ address core =
      .ok () { core with registers :=
        core.registers.write s (.ofInt (Int.bmod number (2 ^ (8 * size.bytes)))) } := by
  have unfolded : execute ⟨.ld size, .immRegReg value base s⟩ address core = (do
      writeNumber s (← loadSigned (core.addressed value base) size.bytes)) core := rfl
  rw [unfolded, run_bind_of_ok (loadSigned_of_row held), Size.two_pow_bits]
  rfl

end Transfers

/-- A view that has room for as many bits as another one and no more than were stored is read alike. -/
theorem readUnsigned_of_stored {before after : RegisterFile} {r s : Register} {bits : Nat}
    (same : r.width.bits = s.width.bits) (room : s.width.bits ≤ bits)
    (number : after.number false s =
      Int.bmod (before.readSigned r) (2 ^ bits) % (2 ^ s.width.bits : Nat)) :
    after.readUnsigned s = before.readUnsigned r := by
  have residue : Int.bmod (before.readSigned r) (2 ^ bits) % (2 ^ s.width.bits : Nat) =
      before.readSigned r % (2 ^ s.width.bits : Nat) := by
    rw [← emod_two_pow_emod room, Int.bmod_emod, emod_two_pow_emod room]
  rw [residue, ← same, RegisterFile.readSigned_emod, RegisterFile.number_false,
    RegisterFile.number_false, Int.natCast_inj] at number
  exact UInt32.toNat_inj.mp number

/-- **A load gives back what was stored.** If the addressed bytes are mapped, a store replaces them by
the last bytes of the register's number, and changes nothing else. A load from there then gives any
view as much as it has room for of that number, extended from the bytes stored by its sign. So a view
of the same width gets back what the first one held if all of it was stored. -/
theorem load_follows_store (size : Size) (value : UInt16) (base r s : Register) (core : Core)
    (covers : core.memory.flat.Covers (core.addressed value base) size.bytes)
    (address later pointer : UInt32) :
    let target := core.addressed value base
    let number := core.registers.readSigned r
    ∃ (memory : AddressSpace) (after : RegisterFile),
      execute ⟨.st size, .immRegReg value base r⟩ address core = .ok () { core with memory } ∧
      memory.flat.row target size.bytes =
        (BigEndian.encodeSigned size.bytes number).map some ∧
      (∀ other, size.bytes ≤ (other - target).toNat →
        memory.flat other = core.memory.flat other) ∧
      execute ⟨.ld size, .immRegReg value base s⟩ later { core with pointer, memory } =
        .ok () ⟨after, pointer, memory⟩ ∧
      RegisterFile.AgreesOutside [s] core.registers after ∧
      (s.index ≠ 0 →
        after.number false s =
          Int.bmod number (2 ^ (8 * size.bytes)) % (2 ^ s.width.bits : Nat) ∧
        (r.width.bits = s.width.bits → s.width.bits ≤ 8 * size.bytes →
          after.readUnsigned s = core.registers.readUnsigned r)) := by
  intro target number
  obtain ⟨memory, held, kept, stores⟩ := store_run covers r address
  -- A store changes no register, so the load finds the same address.
  have loads : execute ⟨.ld size, .immRegReg value base s⟩ later { core with pointer, memory } = _ :=
    load_run held s later
  refine ⟨memory, _, stores, held, kept, loads, .write List.mem_cons_self _ _, fun writable => ?_⟩
  have back := RegisterFile.number_write_ofInt core.registers writable
    (Int.bmod number (2 ^ (8 * size.bytes)))
  exact ⟨back, fun same room => readUnsigned_of_stored same room back⟩

/-- An empty space but for five bytes around its end, one register to store and another that is used
as base. -/
def fiveBytes : Core where
  registers := (RegisterFile.cleared.set 1 0xFFFFFFFF).set 2 0xDEADBEEF
  pointer := 0x10
  memory := AddressSpace.aroundTheEnd

/-- A register is stored around the end of the address space and replaces its base register when it is
loaded. The last byte of a word that is stored alone is loaded with its sign. -/
theorem load_follows_store_aroundTheEnd :
    (fiveBytes.memory.flat.Covers (fiveBytes.addressed 0xFFFF ⟨1, .dword⟩) 4 ∧
      ∃ (memory : AddressSpace) (after : RegisterFile),
      execute ⟨.st .dword, .immRegReg 0xFFFF ⟨1, .dword⟩ ⟨2, .dword⟩⟩ 0x10 fiveBytes =
        .ok () { fiveBytes with memory } ∧
      memory.flat.row 0xFFFFFFFE 4 = [some 0xDE, some 0xAD, some 0xBE, some 0xEF] ∧
      memory.flat 2 = fiveBytes.memory.flat 2 ∧
      execute ⟨.ld .dword, .immRegReg 0xFFFF ⟨1, .dword⟩ ⟨1, .dword⟩⟩ 0x14
        { fiveBytes with pointer := 0x14, memory } = .ok () ⟨after, 0x14, memory⟩ ∧
      after.readUnsigned ⟨1, .dword⟩ = 0xDEADBEEF) ∧
    (fiveBytes.memory.flat.Covers (fiveBytes.addressed 1 ⟨1, .dword⟩) 1 ∧
      ∃ (memory : AddressSpace) (after : RegisterFile),
      execute ⟨.st .byte, .immRegReg 1 ⟨1, .dword⟩ ⟨2, .word⟩⟩ 0x10 fiveBytes =
        .ok () { fiveBytes with memory } ∧
      execute ⟨.ld .byte, .immRegReg 1 ⟨1, .dword⟩ ⟨3, .word⟩⟩ 0x14
        { fiveBytes with pointer := 0x14, memory } = .ok () ⟨after, 0x14, memory⟩ ∧
      after.number false ⟨3, .word⟩ = 0xFFEF) := by
  have around : fiveBytes.memory.flat.Covers (fiveBytes.addressed 0xFFFF ⟨1, .dword⟩) 4 := by
    decide
  have first : fiveBytes.memory.flat.Covers (fiveBytes.addressed 1 ⟨1, .dword⟩) 1 := by
    decide
  constructor
  · obtain ⟨memory, after, stores, held, kept, loads, -, back⟩ :=
      load_follows_store .dword 0xFFFF ⟨1, .dword⟩ ⟨2, .dword⟩ ⟨1, .dword⟩ fiveBytes around 0x10
        0x14 0x14
    have there : fiveBytes.addressed 0xFFFF ⟨1, .dword⟩ = 0xFFFFFFFE := by decide
    rw [there] at held
    have whole := (back (by decide)).2 rfl (by decide)
    exact ⟨around, memory, after, stores, held.trans (by decide), kept 2 (by decide), loads,
      whole.trans (by decide)⟩
  · obtain ⟨memory, after, stores, -, -, loads, -, back⟩ :=
      load_follows_store .byte 1 ⟨1, .dword⟩ ⟨2, .word⟩ ⟨3, .word⟩ fiveBytes first 0x10 0x14 0x14
    exact ⟨first, memory, after, stores, loads, (back (by decide)).1.trans (by decide)⟩

end Core
end WordMachine
