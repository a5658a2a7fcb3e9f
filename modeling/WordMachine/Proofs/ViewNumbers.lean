import WordMachine.Proofs.RegisterViews

/-!
# Views as numbers

A view of so many bits holds a number up to a multiple of a power of two. It is read as the number of
this class that fits, in two's complement or without a sign (`RegisterFile.number`); both readings
belong to one class (`RegisterFile.number_emod`). A result that is written to a view is reduced in the
same way, so a view that is read back gives the result itself if that fits
(`RegisterFile.number_of_residue`).

Results that go to two views are written one after the other. The first one stays if the views share
no bit (`Register.Apart`), and else loses the bits that they share.
-/

set_option autoImplicit false

namespace WordMachine

/-! ## Numbers that fit -/

/-- A number that so many bits can hold, in two's complement or without a sign. -/
def Representable (bits : Nat) (signed : Bool) (number : Int) : Prop :=
  if signed then -(2 ^ (bits - 1) : Nat) ≤ number ∧ number < (2 ^ (bits - 1) : Nat)
  else 0 ≤ number ∧ number < (2 ^ bits : Nat)

instance (bits : Nat) (signed : Bool) (number : Int) :
    Decidable (Representable bits signed number) := by
  unfold Representable
  infer_instance

theorem two_pow_eq_twice {bits : Nat} (positive : 0 < bits) : 2 ^ bits = 2 * 2 ^ (bits - 1) := by
  rw [← Nat.pow_succ', Nat.succ_eq_add_one, Nat.sub_add_cancel positive]

/-- What a number leaves modulo a greater power of two leaves the same modulo a lesser one. -/
theorem emod_two_pow_emod {low high : Nat} (least : low ≤ high) (number : Int) :
    number % (2 ^ high : Nat) % (2 ^ low : Nat) = number % (2 ^ low : Nat) :=
  Int.emod_emod_of_dvd number (Int.natCast_dvd_natCast.mpr (Nat.pow_dvd_pow 2 least))

/-- The number of a class that fits is the only one. -/
theorem Representable.unique {bits : Nat} (positive : 0 < bits) {signed : Bool} {one other : Int}
    (first : Representable bits signed one) (second : Representable bits signed other)
    (same : one % (2 ^ bits : Nat) = other % (2 ^ bits : Nat)) : one = other := by
  cases signed with
  | false =>
      have := Int.emod_eq_of_lt first.1 first.2
      have := Int.emod_eq_of_lt second.1 second.2
      omega
  | true =>
      have twice := two_pow_eq_twice positive
      have centred {number : Int} (fits : Representable bits true number) :
          Int.bmod number (2 ^ bits) = number := by
        obtain ⟨least, greatest⟩ := fits
        exact Int.bmod_eq_of_le (by omega) (by omega)
      rw [← centred first, ← centred second, ← Int.emod_bmod one, same, Int.emod_bmod]

theorem Width.bits_pos (width : Width) : 0 < width.bits := by
  cases width <;> decide

/-! ## Shifted words -/

theorem shiftLeft_eq (value count : UInt32) :
    value <<< count = .ofNat (value.toNat * 2 ^ (count.toNat % 32)) := by
  rw [← UInt32.toNat_inj, UInt32.toNat_shiftLeft, UInt32.toNat_ofNat', Nat.shiftLeft_eq]

theorem shiftRight_eq (value count : UInt32) :
    value >>> count = .ofNat (value.toNat / 2 ^ (count.toNat % 32)) := by
  have small : value.toNat / 2 ^ (count.toNat % 32) < 2 ^ 32 :=
    Nat.lt_of_le_of_lt (Nat.div_le_self _ _) value.toNat_lt
  rw [← UInt32.toNat_inj, UInt32.toNat_shiftRight, UInt32.toNat_ofNat_of_lt' small,
    Nat.shiftRight_eq_div_pow]

namespace RegisterFile

/-! ## The number in a view -/

/-- The number in the view of a register, in two's complement or not. -/
def number (registers : RegisterFile) (signed : Bool) (view : Register) : Int :=
  if signed then registers.readSigned view else (registers.readUnsigned view).toNat

section Numbers

variable (registers : RegisterFile) (signed : Bool) (view : Register)

theorem number_true : registers.number true view = registers.readSigned view :=
  rfl

theorem number_false : registers.number false view = (registers.readUnsigned view).toNat :=
  rfl

theorem readSigned_emod :
    registers.readSigned view % (2 ^ view.width.bits : Nat) = registers.number false view := by
  have small := registers.toNat_readUnsigned_lt view
  rw [readSigned, Int.bmod_emod, number_false]
  exact Int.emod_eq_of_lt (by omega) (by omega)

/-- With and without a sign a view is read as a number of one class. -/
theorem number_emod :
    registers.number signed view % (2 ^ view.width.bits : Nat) = registers.number false view := by
  cases signed with
  | false =>
      have small := registers.toNat_readUnsigned_lt view
      rw [number_false]
      exact Int.emod_eq_of_lt (by omega) (by omega)
  | true => exact registers.readSigned_emod view

/-- A view is read as a number that it can hold. -/
theorem representable_number :
    Representable view.width.bits signed (registers.number signed view) := by
  cases signed with
  | false =>
      have small := registers.toNat_readUnsigned_lt view
      rw [number_false]
      exact ⟨by omega, by omega⟩
  | true =>
      have positive : 0 < 2 ^ view.width.bits := Nat.two_pow_pos _
      have least := Int.le_bmod (x := (registers.readUnsigned view).toNat) positive
      have greatest := Int.bmod_lt (x := (registers.readUnsigned view).toNat) positive
      rw [number_true, readSigned]
      have twice := two_pow_eq_twice view.width.bits_pos
      exact ⟨by omega, by omega⟩

end Numbers

/-- The number of its class that fits is what a view is read as. -/
theorem number_of_residue {registers : RegisterFile} {view : Register} {number : Int}
    (residue : registers.number false view = number % (2 ^ view.width.bits : Nat)) {signed : Bool}
    (fits : Representable view.width.bits signed number) :
    registers.number signed view = number := by
  refine (registers.representable_number signed view).unique view.width.bits_pos fits ?_
  rw [number_emod, residue]

theorem toNat_ofInt (number : Int) :
    ((UInt32.ofInt number).toNat : Int) = number % (2 ^ 32 : Nat) := by
  rw [UInt32.ofInt, UInt32.toNat_ofNat']
  omega

/-- **A view holds what is written to it as far as there is room.** -/
theorem number_write (file : RegisterFile) {view : Register} (writable : view.index ≠ 0)
    (value : UInt32) :
    (file.write view value).number false view = (value.toNat : Int) % (2 ^ view.width.bits : Nat) := by
  rw [number_false, readUnsigned_write _ writable, toNat_and_mask, Int.natCast_emod]

theorem number_write_ofInt (file : RegisterFile) {view : Register} (writable : view.index ≠ 0)
    (number : Int) :
    (file.write view (.ofInt number)).number false view = number % (2 ^ view.width.bits : Nat) := by
  rw [number_write file writable, toNat_ofInt, emod_two_pow_emod view.width.bits_le]

theorem readSigned_write_emod (file : RegisterFile) {view : Register} (writable : view.index ≠ 0)
    (number : Int) :
    (file.write view (.ofInt number)).readSigned view % (2 ^ view.width.bits : Nat) =
      number % (2 ^ view.width.bits : Nat) := by
  rw [readSigned_emod, number_write_ofInt file writable]

/-! ## One view and all the rest -/

theorem eq_of_get {before after : RegisterFile} (same : ∀ index, after.get index = before.get index) :
    after = before := by
  obtain ⟨slots⟩ := before
  obtain ⟨others⟩ := after
  congr 1
  refine Vector.ext fun place inside => ?_
  have here := same ⟨place + 1, Nat.succ_lt_succ inside⟩
  have nonzero : (⟨place + 1, Nat.succ_lt_succ inside⟩ : Fin 16) ≠ 0 :=
    fun zero => Nat.succ_ne_zero place (congrArg Fin.val zero)
  simpa [get, nonzero, inside] using here

theorem eq_of_bits {before after : RegisterFile}
    (same : ∀ index place, after.bit index place = before.bit index place) : after = before :=
  eq_of_get fun index => get_eq_of_bits (same index)

/-- Registers that agree outside of a view and hold the same number in it are the same. -/
theorem AgreesOutside.eq_of_number {before after : RegisterFile} {view : Register}
    (agrees : AgreesOutside [view] before after)
    (same : view.index ≠ 0 → after.number false view = before.number false view) :
    after = before := by
  refine eq_of_bits fun index place => ?_
  by_cases covers : view.Covers index place
  · obtain ⟨rfl, above, below⟩ := covers
    by_cases zero : view.index = 0
    · rw [bit, bit, zero, get_zero, get_zero]
    · -- A bit of the view is a bit of the number in it.
      have number := same zero
      rw [number_false, number_false, Int.natCast_inj] at number
      have read := congrArg (·.testBit (place - view.width.offset)) number
      have inside : place - view.width.offset < view.width.bits := by omega
      simpa only [testBit_readUnsigned, inside, decide_true, Bool.true_and,
        Nat.add_sub_cancel' above] using read
  · exact agrees index place fun other listed => List.mem_singleton.mp listed ▸ covers

end RegisterFile

/-! ## Two views -/

/-- Two views share no bit. -/
def Register.Apart (one other : Register) : Prop :=
  ∀ index place, one.Covers index place → ¬ other.Covers index place

theorem Register.apart_iff {one other : Register} :
    one.Apart other ↔
      (one.index = other.index →
        one.width.offset + one.width.bits ≤ other.width.offset ∨
          other.width.offset + other.width.bits ≤ one.width.offset) := by
  have := one.width.bits_pos
  have := other.width.bits_pos
  constructor
  · intro apart same
    -- Views of one register that overlap share the lowest bit of the higher one.
    refine Decidable.byContradiction fun overlap => ?_
    exact apart other.index (max one.width.offset other.width.offset) ⟨same, by omega, by omega⟩
      ⟨rfl, by omega, by omega⟩
  · rintro disjoint index place ⟨rfl, within⟩ ⟨same, shared⟩
    have := disjoint same.symm
    simp only [Width.Covers] at within shared
    omega

instance (one other : Register) : Decidable (one.Apart other) :=
  decidable_of_iff _ Register.apart_iff.symm

namespace RegisterFile

/-- A bit of a number is one of the word that has its low bits. -/
theorem testBit_ofInt (number : Int) {place : Nat} (inside : place < 32) :
    (UInt32.ofInt number).toNat.testBit place = decide (number / (2 ^ place : Nat) % 2 = 1) := by
  have positive : ((2 ^ place : Nat) : Int) ≠ 0 :=
    Int.natCast_ne_zero.mpr (Nat.ne_of_gt (Nat.two_pow_pos place))
  have whole : 2 ^ 32 = 2 ^ place * (2 * 2 ^ (31 - place)) := by
    rw [← Nat.pow_succ', ← Nat.pow_add]
    congr 1
    omega
  -- The part of the number beyond the word is even at this place.
  have quotient : number / (2 ^ place : Nat) =
      number % (2 ^ 32 : Nat) / (2 ^ place : Nat) +
        2 * ((2 ^ (31 - place) : Nat) * (number / (2 ^ 32 : Nat))) := by
    have beyond : ((2 ^ 32 : Nat) : Int) * (number / (2 ^ 32 : Nat)) =
        (2 ^ place : Nat) * (2 * ((2 ^ (31 - place) : Nat) * (number / (2 ^ 32 : Nat)))) := by
      rw [whole, Int.natCast_mul, Int.natCast_mul, Int.mul_assoc, Int.mul_assoc]
      rfl
    rw [← Int.add_mul_ediv_left _ _ positive, ← beyond, Int.emod_add_mul_ediv]
  rw [Nat.testBit_eq_decide_div_mod_eq, quotient, ← toNat_ofInt, ← Int.natCast_ediv]
  exact decide_eq_decide.mpr (by omega)

/-- What is written to a view leaves a view apart from it alone. -/
theorem readUnsigned_write_of_apart (file : RegisterFile) {view other : Register}
    (apart : other.Apart view) (value : UInt32) :
    (file.write view value).readUnsigned other = file.readUnsigned other := by
  refine UInt32.toNat_inj.mp (Nat.eq_of_testBit_eq fun place => ?_)
  rw [testBit_readUnsigned, testBit_readUnsigned]
  by_cases inside : place < other.width.bits
  · have covers : other.Covers other.index (other.width.offset + place) :=
      ⟨rfl, Nat.le_add_right _ _, Nat.add_lt_add_left inside _⟩
    rw [bit_write, if_neg fun both => apart _ _ covers both.1]
  · rw [decide_eq_false inside, Bool.false_and, Bool.false_and]

/-- Two results have gone to two views, and nothing else has changed. Each view holds its result as
far as there is room, but the bits that both views have are those of the leading one. -/
structure Takes (before : RegisterFile) (leading trailing : Register) (result other : Int)
    (after : RegisterFile) : Prop where
  agrees : AgreesOutside [leading, trailing] before after
  number_leading : leading.index ≠ 0 →
    after.number false leading = result % (2 ^ leading.width.bits : Nat)
  number_trailing : trailing.index ≠ 0 → trailing.Apart leading →
    after.number false trailing = other % (2 ^ trailing.width.bits : Nat)
  bit_trailing : trailing.index ≠ 0 → ∀ place < trailing.width.bits,
    ¬ leading.Covers trailing.index (trailing.width.offset + place) →
      after.bit trailing.index (trailing.width.offset + place) =
        decide (other / (2 ^ place : Nat) % 2 = 1)

/-- **Two results are written, the one that prevails last.** -/
theorem takes_write (file : RegisterFile) (leading trailing : Register) (result other : Int) :
    file.Takes leading trailing result other
      ((file.write trailing (.ofInt other)).write leading (.ofInt result)) where
  agrees := .write_write _ _ _ _ _
  number_leading writable := number_write_ofInt _ writable result
  number_trailing writable apart := by
    rw [number_false, readUnsigned_write_of_apart _ apart]
    exact number_write_ofInt file writable other
  bit_trailing writable place inside uncovered := by
    have covers : trailing.Covers trailing.index (trailing.width.offset + place) :=
      ⟨rfl, Nat.le_add_right _ _, Nat.add_lt_add_left inside _⟩
    rw [bit_write, if_neg fun both => uncovered both.1, bit_write, if_pos ⟨covers, writable⟩,
      Nat.add_sub_cancel_left, testBit_ofInt other (Nat.lt_of_lt_of_le inside trailing.width.bits_le)]

end RegisterFile
end WordMachine
