import WordMachine.Machine.Execute
import WordMachine.Proofs.ViewNumbers

/-!
# Constants from two halves

A constant that does not fit an immediate is put together from two halves. A move of one half reads the
other half of the view and writes the whole register, so that what stood around the view is lost
(`RegisterFile.bit_moveHalf`). The second move finds the first one's half in the view, whichever of the
two comes first, and leaves the constant in the place of the view and nothing beside it
(`Core.halves_make_constant`).
-/

set_option autoImplicit false

namespace WordMachine

/-! ## The halves of a view -/

namespace Core.Half

/-- The half that is not this one. -/
def other : Half → Half
  | low => high
  | high => low

theorem other_other (half : Half) : half.other.other = half := by
  cases half <;> rfl

/-- The one of two immediates that is meant for a half. -/
def select (lo hi : UInt16) : Half → UInt16
  | low => lo
  | high => hi

/-- The position of the half's lowest bit in the register. -/
def start (half : Half) (width : Width) : Nat :=
  width.offset + half.shift width

/-- A bit of a register belongs to the half of its view of this width. -/
def Covers (half : Half) (width : Width) (place : Nat) : Prop :=
  half.start width ≤ place ∧ place < half.start width + width.bits / 2

instance (half : Half) (width : Width) (place : Nat) : Decidable (half.Covers width place) :=
  inferInstanceAs (Decidable (_ ∧ _))

theorem shift_add_le (half : Half) (width : Width) :
    half.shift width + width.bits / 2 ≤ width.bits := by
  cases half <;> cases width <;> decide

end Core.Half

open WordMachine.Core (Half)

theorem Width.bits_eq_twice (width : Width) : width.bits = 2 * (width.bits / 2) := by
  cases width <;> rfl

theorem Width.covers_iff_half (half : Half) {width : Width} {place : Nat} :
    width.Covers place ↔ half.Covers width place ∨ half.other.Covers width place := by
  have twice := width.bits_eq_twice
  cases half <;> simp only [Covers, Half.Covers, Half.start, Half.shift, Half.other] <;> omega

/-! ## Moving a half -/

/-- The instruction that moves a half. -/
def Instruction.moveHalf (half : Half) (value : UInt16) (register : Register) : Instruction where
  opcode := match half with
    | .low => .movLo
    | .high => .movHi
  operands := .immReg value register

namespace RegisterFile

/-- The view with one half replaced and the other one kept. -/
def withHalf (file : RegisterFile) (half : Half) (value : UInt16) (register : Register) : UInt32 :=
  let field := UInt32.ofNat (2 ^ (register.width.bits / 2) - 1)
  let shift := UInt32.ofNat (half.shift register.width)
  file.readUnsigned register &&& ~~~(field <<< shift) |||
    (UInt32.ofNat value.toNat &&& field) <<< shift

/-- The file after a half was moved. -/
def moveHalf (file : RegisterFile) (half : Half) (value : UInt16) (register : Register) :
    RegisterFile :=
  file.set register.index
    (file.withHalf half value register <<< UInt32.ofNat register.width.offset)

section Halves

variable {file : RegisterFile} {half : Half} {value : UInt16} {register : Register}

theorem testBit_withHalf (place : Nat) :
    (file.withHalf half value register).toNat.testBit place =
      if half.shift register.width ≤ place ∧
          place < half.shift register.width + register.width.bits / 2 then
        value.toNat.testBit (place - half.shift register.width)
      else
        (file.readUnsigned register).toNat.testBit place := by
  have fits := half.shift_add_le register.width
  have narrow := register.width.bits_le
  have positive : 0 < register.width.bits / 2 := by cases register.width <;> decide
  have whole : (UInt32.ofNat value.toNat).toNat = value.toNat :=
    UInt32.toNat_ofNat_of_lt' (Nat.lt_trans value.toNat_lt (by decide))
  have replaced := testBit_replaceRun (by omega) (Nat.le_trans fits narrow)
    (file.readUnsigned register) (UInt32.ofNat value.toNat) place
  rwa [whole] at replaced

/-- **A half of the view is replaced, the other one is kept, and all bits around them are cleared.** -/
theorem bit_moveHalf (writable : register.index ≠ 0) (place : Nat) :
    (file.moveHalf half value register).bit register.index place =
      if half.Covers register.width place then
        value.toNat.testBit (place - half.start register.width)
      else
        (decide (half.other.Covers register.width place) && file.bit register.index place) := by
  have moved : (file.moveHalf half value register).bit register.index place =
      (decide (place < 32) && !decide (place < register.width.offset) &&
        (file.withHalf half value register).toNat.testBit (place - register.width.offset)) := by
    rw [moveHalf, bit_set, if_pos ⟨rfl, writable⟩]
    exact getLsbD_shiftLeft register.width.offset_lt _ place
  have halves := @Width.covers_iff_half half register.width place
  have bound := register.width.offset_add_bits_le
  have fits := half.shift_add_le register.width
  rw [moved, testBit_withHalf, testBit_readUnsigned]
  -- A bit of the view belongs to one of the halves; the others are not even read.
  by_cases inside : register.width.Covers place
  · obtain ⟨above, below⟩ := inside
    have run : half.shift register.width ≤ place - register.width.offset ∧
        place - register.width.offset < half.shift register.width + register.width.bits / 2 ↔
          half.Covers register.width place := by
      rw [Half.Covers, Half.start]
      omega
    have small : place < 32 := by omega
    have within : place - register.width.offset < register.width.bits := by omega
    simp only [run, small, within, Nat.not_lt.mpr above, decide_true, decide_false, Bool.not_false,
      Bool.true_and, Nat.add_sub_cancel' above, Nat.sub_sub]
    by_cases covers : half.Covers register.width place
    · rw [if_pos covers, if_pos covers]
      rfl
    · have kept := (halves.mp ⟨above, below⟩).resolve_left covers
      rw [if_neg covers, if_neg covers, decide_eq_true kept, Bool.true_and]
  · have none := not_or.mp (mt halves.mpr inside)
    have outside : place < register.width.offset ∨
        ¬ place - register.width.offset < register.width.bits := by
      rw [Width.Covers] at inside
      omega
    rw [if_neg none.1, decide_eq_false none.2, Bool.false_and]
    rcases outside with below | above
    · rw [decide_eq_true below, Bool.not_true, Bool.and_false, Bool.false_and]
    · rw [if_neg (by omega), decide_eq_false above, Bool.false_and, Bool.and_false]

theorem get_moveHalf_of_ne {index : Fin 16} (apart : index ≠ register.index) :
    (file.moveHalf half value register).get index = file.get index :=
  file.get_set_of_ne register.index index _ apart

/-- Moving a half that is there already has no effect. -/
theorem moveHalf_again (writable : register.index ≠ 0) :
    (file.moveHalf half value register).moveHalf half value register =
      file.moveHalf half value register := by
  refine eq_of_bits fun index place => ?_
  by_cases own : index = register.index
  · subst own
    rw [bit_moveHalf writable, bit_moveHalf writable]
    by_cases covers : half.Covers register.width place
    · rw [if_pos covers, if_pos covers]
    · rw [if_neg covers, if_neg covers, ← Bool.and_assoc, Bool.and_self]
  · rw [bit, get_moveHalf_of_ne own]
    rfl

end Halves

/-! ## Both halves -/

section Constants

variable (width : Width) (immediates : Half → UInt16)

/-- The contents that two halves make up in the place of a view. -/
def constant : Nat :=
  ((immediates .high).toNat % 2 ^ (width.bits / 2) * 2 ^ (width.bits / 2) +
    (immediates .low).toNat % 2 ^ (width.bits / 2)) * 2 ^ width.offset

variable {width} {half : Half} {place : Nat}

theorem testBit_constant :
    (constant width immediates).testBit place =
      (decide (width.offset ≤ place) &&
        if place - width.offset < width.bits / 2 then
          (immediates .low).toNat.testBit (place - width.offset)
        else
          (decide (place - width.offset - width.bits / 2 < width.bits / 2) &&
            (immediates .high).toNat.testBit (place - width.offset - width.bits / 2))) := by
  have low := Nat.mod_lt (immediates .low).toNat (Nat.two_pow_pos (width.bits / 2))
  rw [constant, Nat.testBit_mul_two_pow, Nat.mul_comm _ (2 ^ (width.bits / 2)),
    Nat.testBit_two_pow_mul_add _ low, Nat.testBit_mod_two_pow, Nat.testBit_mod_two_pow]
  split
  · rename_i below
    rw [decide_eq_true below, Bool.true_and]
  · rfl

theorem testBit_constant_of_covers (covers : half.Covers width place) :
    (constant width immediates).testBit place =
      (immediates half).toNat.testBit (place - half.start width) := by
  obtain ⟨least, greatest⟩ := covers
  rw [testBit_constant, Half.start, ← Nat.sub_sub]
  rw [Half.start] at least greatest
  cases half with
  | low =>
      rw [Half.shift] at *
      rw [decide_eq_true (by omega), if_pos (by omega), Bool.true_and]
      rfl
  | high =>
      rw [Half.shift] at *
      rw [decide_eq_true (by omega), if_neg (by omega), decide_eq_true (by omega), Bool.true_and,
        Bool.true_and]

theorem testBit_constant_of_not_covers (outside : ¬ width.Covers place) :
    (constant width immediates).testBit place = false := by
  have twice := width.bits_eq_twice
  rw [Width.Covers] at outside
  rw [testBit_constant]
  by_cases above : width.offset ≤ place
  · rw [if_neg (by omega), decide_eq_false (p := _ - _ < _) (by omega), Bool.false_and,
      Bool.and_false]
  · rw [decide_eq_false above, Bool.false_and]

/-- **The second half joins the first**, whichever of the two that is. -/
theorem toNat_get_moveHalf_moveHalf (file : RegisterFile) {register : Register}
    (writable : register.index ≠ 0) (half : Half) :
    (((file.moveHalf half (immediates half) register).moveHalf half.other (immediates half.other)
      register).get register.index).toNat = constant register.width immediates := by
  refine Nat.eq_of_testBit_eq fun place => ?_
  refine (bit_moveHalf writable place).trans ?_
  rw [bit_moveHalf writable, Half.other_other]
  by_cases second : half.other.Covers register.width place
  · rw [if_pos second, testBit_constant_of_covers immediates second]
  by_cases first : half.Covers register.width place
  · rw [if_neg second, decide_eq_true first, Bool.true_and, if_pos first,
      testBit_constant_of_covers immediates first]
  · have outside : ¬ register.width.Covers place :=
      fun covers => ((Width.covers_iff_half half).mp covers).elim first second
    rw [if_neg second, decide_eq_false first, Bool.false_and,
      testBit_constant_of_not_covers immediates outside]

/-- Two halves may be moved in either order. -/
theorem moveHalf_comm (file : RegisterFile) {register : Register} (writable : register.index ≠ 0)
    (half : Half) :
    (file.moveHalf half (immediates half) register).moveHalf half.other (immediates half.other)
        register =
      (file.moveHalf half.other (immediates half.other) register).moveHalf half (immediates half)
        register := by
  refine eq_of_get fun index => ?_
  by_cases own : index = register.index
  · subst own
    have turned := toNat_get_moveHalf_moveHalf immediates file writable half.other
    rw [Half.other_other] at turned
    exact UInt32.toNat_inj.mp
      ((toNat_get_moveHalf_moveHalf immediates file writable half).trans turned.symm)
  · rw [get_moveHalf_of_ne own, get_moveHalf_of_ne own, get_moveHalf_of_ne own,
      get_moveHalf_of_ne own]

end Constants

end RegisterFile

namespace Core

theorem execute_moveHalf (half : Half) (value : UInt16) (register : Register) (address : UInt32)
    (core : Core) :
    execute (.moveHalf half value register) address core =
      .ok () { core with registers := core.registers.moveHalf half value register } := by
  cases half <;> rfl

/-- **Two halves make a constant in either order.** Both orders leave the same registers: the halves
stand side by side in the place of the view, all other bits of the register are clear whatever it held,
and no other register changes. One move alone puts its half there, keeps the other half of the view and
clears every bit outside of it, and doing it again changes nothing. -/
theorem halves_make_constant (register : Register) (writable : register.index ≠ 0) (core : Core)
    (address later pointer : UInt32) :
    (∀ lo hi : UInt16, ∃ low high after : RegisterFile,
      execute (.moveHalf .low lo register) address core = .ok () { core with registers := low } ∧
      execute (.moveHalf .high hi register) later { core with registers := low, pointer } =
        .ok () { core with registers := after, pointer } ∧
      execute (.moveHalf .high hi register) address core = .ok () { core with registers := high } ∧
      execute (.moveHalf .low lo register) later { core with registers := high, pointer } =
        .ok () { core with registers := after, pointer } ∧
      (after.get register.index).toNat =
        (hi.toNat % 2 ^ (register.width.bits / 2) * 2 ^ (register.width.bits / 2) +
          lo.toNat % 2 ^ (register.width.bits / 2)) * 2 ^ register.width.offset ∧
      ∀ other, other ≠ register.index → after.get other = core.registers.get other) ∧
    ∀ (half : Half) (value : UInt16), ∃ after : RegisterFile,
      execute (.moveHalf half value register) address core =
        .ok () { core with registers := after } ∧
      (∀ place, after.bit register.index place =
        if half.Covers register.width place then
          value.toNat.testBit (place - half.start register.width)
        else
          (decide (half.other.Covers register.width place) &&
            core.registers.bit register.index place)) ∧
      (∀ other, other ≠ register.index → after.get other = core.registers.get other) ∧
      execute (.moveHalf half value register) later { core with registers := after, pointer } =
        .ok () { core with registers := after, pointer } := by
  constructor
  · intro lo hi
    have turned := RegisterFile.moveHalf_comm (Half.select lo hi) core.registers writable .low
    have joined :=
      RegisterFile.toNat_get_moveHalf_moveHalf (Half.select lo hi) core.registers writable .low
    refine ⟨_, _, _, execute_moveHalf .low lo register address core,
      execute_moveHalf .high hi register later _, execute_moveHalf .high hi register address core,
      (execute_moveHalf .low lo register later _).trans ?_, joined, fun other apart => ?_⟩
    · exact congrArg (fun registers => EStateM.Result.ok () { core with registers, pointer })
        turned.symm
    · exact (RegisterFile.get_moveHalf_of_ne apart).trans (RegisterFile.get_moveHalf_of_ne apart)
  · intro half value
    refine ⟨_, execute_moveHalf half value register address core,
      RegisterFile.bit_moveHalf writable, fun other => RegisterFile.get_moveHalf_of_ne,
      (execute_moveHalf half value register later _).trans ?_⟩
    exact congrArg (fun registers => EStateM.Result.ok () { core with registers, pointer })
      (RegisterFile.moveHalf_again writable)

/-- One register that holds something in all of its views. -/
def filledRegister : Core where
  registers := RegisterFile.cleared.set 3 0x12345678
  pointer := 0x10
  memory := AddressSpace.empty

/-- The two halves of a high byte, of immediates that are too great for them, and the low half alone,
which keeps the other half and clears the bits above. -/
theorem halves_make_constant_highByte :
    (⟨3, .highByte⟩ : Register).index ≠ 0 ∧
    (∃ low high after : RegisterFile,
      execute (.moveHalf .low 0xFFF7 ⟨3, .highByte⟩) 0x10 filledRegister =
        .ok () { filledRegister with registers := low } ∧
      execute (.moveHalf .high 0x19 ⟨3, .highByte⟩) 0x14
          { filledRegister with registers := low, pointer := 0x18 } =
        .ok () { filledRegister with registers := after, pointer := 0x18 } ∧
      execute (.moveHalf .high 0x19 ⟨3, .highByte⟩) 0x10 filledRegister =
        .ok () { filledRegister with registers := high } ∧
      execute (.moveHalf .low 0xFFF7 ⟨3, .highByte⟩) 0x14
          { filledRegister with registers := high, pointer := 0x18 } =
        .ok () { filledRegister with registers := after, pointer := 0x18 } ∧
      (after.get 3).toNat = 0x9700) ∧
    ∃ after : RegisterFile,
      execute (.moveHalf .low 7 ⟨3, .highByte⟩) 0x10 filledRegister =
        .ok () { filledRegister with registers := after } ∧
      after.bit 3 14 = true ∧ filledRegister.registers.bit 3 20 = true ∧ after.bit 3 20 = false := by
  have writable : (⟨3, .highByte⟩ : Register).index ≠ 0 := by decide
  obtain ⟨both, single⟩ :=
    halves_make_constant ⟨3, .highByte⟩ writable filledRegister 0x10 0x14 0x18
  obtain ⟨low, high, after, one, two, three, four, constant, -⟩ := both 0xFFF7 0x19
  obtain ⟨alone, run, bits, -⟩ := single .low 7
  exact ⟨writable, ⟨low, high, after, one, two, three, four, constant.trans (by decide)⟩,
    alone, run, (bits 14).trans (by decide), by decide, (bits 20).trans (by decide)⟩

end Core
end WordMachine
