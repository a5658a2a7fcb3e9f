import WordMachine.Machine.Execute
import WordMachine.Proofs.ViewNumbers

/-!
# Products and quotients

A multiplication or a division reads two views, with or without a sign, and has two results: what a
product has above the width of its upper view and the whole product, or a quotient and a remainder.
The results are exact integers. They go to two views, which may be parts of the operands or of each
other (`RegisterFile.Takes`).

If all four views have one width nothing is lost. The upper half of a product fits
(`Representable.upperHalf`), so the two views hold the product between them
(`Core.multiply_splits_product`). A remainder fits and a quotient does too, but for the one that
would have no sign left, of the least number and -1 (`Core.divide_gives_quotient`).
-/

set_option autoImplicit false

namespace WordMachine

/-! ## Which results fit -/

section Fitting

variable {bits : Nat} {signed : Bool} {left right : Int}

theorem Representable.natAbs_le (fits : Representable bits true left) :
    left.natAbs ≤ 2 ^ (bits - 1) := by
  obtain ⟨least, greatest⟩ := fits
  omega

/-- Of a product of two numbers of so many bits, what is above that many bits fits again. -/
theorem Representable.upperHalf (positive : 0 < bits) (first : Representable bits signed left)
    (second : Representable bits signed right) :
    Representable bits signed (left * right / (2 ^ bits : Nat)) := by
  have span : (0 : Int) < (2 ^ bits : Nat) := Int.natCast_pos.mpr (Nat.two_pow_pos bits)
  cases signed with
  | false =>
      refine ⟨Int.ediv_nonneg (Int.mul_nonneg first.1 second.1) (Int.le_of_lt span), ?_⟩
      refine Int.ediv_lt_of_lt_mul span ?_
      calc left * right ≤ left * (2 ^ bits : Nat) :=
            Int.mul_le_mul_of_nonneg_left (Int.le_of_lt second.2) first.1
        _ < (2 ^ bits : Nat) * (2 ^ bits : Nat) := Int.mul_lt_mul_of_pos_right first.2 span
  | true =>
      have size : (left * right).natAbs ≤ 2 ^ (bits - 1) * 2 ^ (bits - 1) := by
        rw [Int.natAbs_mul]
        exact Nat.mul_le_mul first.natAbs_le second.natAbs_le
      have half : 0 < 2 ^ (bits - 1) * 2 ^ (bits - 1) :=
        Nat.mul_pos (Nat.two_pow_pos _) (Nat.two_pow_pos _)
      have twice : ((2 ^ (bits - 1) : Nat) : Int) * (2 ^ bits : Nat) =
          2 * (2 ^ (bits - 1) * 2 ^ (bits - 1) : Nat) := by
        rw [two_pow_eq_twice positive, ← Int.natCast_mul, Nat.mul_left_comm]
        rfl
      constructor
      · refine (Int.le_ediv_iff_mul_le span).mpr ?_
        rw [Int.neg_mul, twice]
        omega
      · refine Int.ediv_lt_of_lt_mul span ?_
        rw [twice]
        omega

theorem Representable.remainder (nonzero : right ≠ 0) (first : Representable bits signed left)
    (second : Representable bits signed right) :
    Representable bits signed (left.tmod right) := by
  have size := Int.natAbs_tmod left right
  have below : left.natAbs % right.natAbs < right.natAbs :=
    Nat.mod_lt _ (Int.natAbs_pos.mpr nonzero)
  cases signed with
  | false =>
      have nonnegative := Int.tmod_nonneg right first.1
      obtain ⟨_, greatest⟩ := second
      exact ⟨nonnegative, by omega⟩
  | true =>
      have bound := second.natAbs_le
      exact ⟨by omega, by omega⟩

/-- A quotient fits, but for the one of the least number and -1. -/
theorem Representable.quotient (nonzero : right ≠ 0) (first : Representable bits signed left)
    (second : Representable bits signed right)
    (regular : ¬ (signed = true ∧ left = -(2 ^ (bits - 1) : Nat) ∧ right = -1)) :
    Representable bits signed (left.tdiv right) := by
  cases signed with
  | false =>
      have nonnegative := Int.tdiv_nonneg first.1 second.1
      have size := Int.natAbs_tdiv_le_natAbs left right
      obtain ⟨_, greatest⟩ := first
      exact ⟨nonnegative, by omega⟩
  | true =>
      have apart : ¬ (left = -(2 ^ (bits - 1) : Nat) ∧ right = -1) := fun both =>
        regular ⟨rfl, both⟩
      have bound := first.natAbs_le
      obtain ⟨least, greatest⟩ := first
      by_cases unit : right.natAbs = 1
      · rcases Int.natAbs_eq_iff.mp unit with rfl | rfl
        · rw [Int.ofNat_one, Int.tdiv_one]
          exact ⟨least, greatest⟩
        · have negated : left.tdiv (-(1 : Nat)) = -left := by
            rw [Int.tdiv_neg, Int.ofNat_one, Int.tdiv_one]
          rw [negated]
          exact ⟨by omega, by omega⟩
      · -- A divisor of greater size halves the dividend at least.
        have halved : (left.tdiv right).natAbs ≤ left.natAbs / 2 := by
          rw [Int.natAbs_tdiv]
          exact Nat.div_le_div_left (by omega) (by decide)
        have positive := Nat.two_pow_pos (bits - 1)
        exact ⟨by omega, by omega⟩

/-- Division with the quotient rounded toward zero. -/
structure Divides (dividend divisor quotient remainder : Int) : Prop where
  exact : dividend = quotient * divisor + remainder
  smaller : remainder.natAbs < divisor.natAbs
  sign : remainder = 0 ∨ remainder.sign = dividend.sign

theorem divides_truncated (left : Int) (nonzero : right ≠ 0) :
    Divides left right (left.tdiv right) (left.tmod right) where
  exact := by
    rw [Int.mul_comm, Int.mul_tdiv_add_tmod]
  smaller := by
    rw [Int.natAbs_tmod]
    exact Nat.mod_lt _ (Int.natAbs_pos.mpr nonzero)
  sign := by
    by_cases divides : right ∣ left
    · exact .inl (Int.tmod_eq_zero_of_dvd divides)
    · right
      rw [Int.sign_tmod, if_neg divides]

/-- With a sign in 64 bits, or without one in 32, no operand and no result of a division of views
overflows. -/
theorem Representable.division {first second : Width} (nonzero : right ≠ 0)
    (dividend : Representable first.bits signed left)
    (divisor : Representable second.bits signed right) :
    ∀ number ∈ [left, right, left.tdiv right, left.tmod right],
      Representable (if signed then 64 else 32) signed number := by
  have size := Int.natAbs_tdiv_le_natAbs left right
  have smaller := (divides_truncated left nonzero).smaller
  have narrow (width : Width) : 2 ^ (width.bits - 1) ≤ 2 ^ 31 ∧ 2 ^ width.bits ≤ 2 ^ 32 := by
    cases width <;> decide
  have narrowFirst := narrow first
  have narrowSecond := narrow second
  cases signed with
  | false =>
      have quotient := Int.tdiv_nonneg dividend.1 divisor.1
      have remainder := Int.tmod_nonneg right dividend.1
      obtain ⟨_, below⟩ := dividend
      obtain ⟨_, above⟩ := divisor
      have fits {number : Int} (least : 0 ≤ number) (small : number.natAbs < 2 ^ 32) :
          Representable 32 false number :=
        ⟨least, by omega⟩
      simp only [List.forall_mem_cons]
      exact ⟨fits (by omega) (by omega), fits (by omega) (by omega), fits quotient (by omega),
        fits remainder (by omega), fun _ none => absurd none List.not_mem_nil⟩
  | true =>
      have bound := dividend.natAbs_le
      have above := divisor.natAbs_le
      have fits {number : Int} (small : number.natAbs ≤ 2 ^ 31) : Representable 64 true number :=
        ⟨by omega, by omega⟩
      simp only [List.forall_mem_cons]
      exact ⟨fits (by omega), fits (by omega), fits (by omega), fits (by omega),
        fun _ none => absurd none List.not_mem_nil⟩

end Fitting

/-- The multiplication of two registers, with a sign or without. -/
def Instruction.multiply (signed : Bool) (rd rc rb ra : Register) : Instruction :=
  ⟨if signed then .imul else .mul, .regRegRegReg rd rc rb ra⟩

/-- The division of two registers, with a sign or without. -/
def Instruction.divide (signed : Bool) (rd rc rb ra : Register) : Instruction :=
  ⟨if signed then .idiv else .div, .regRegRegReg rd rc rb ra⟩

namespace Core

/-! ## Multiplication -/

theorem execute_multiply (signed : Bool) (rd rc rb ra : Register) (address : UInt32)
    (core : Core) :
    let product := core.registers.number signed rd * core.registers.number signed rc
    execute (.multiply signed rd rc rb ra) address core =
      .ok () { core with
        registers := (core.registers.write rb (.ofInt product)).write ra
          (.ofInt (product / (2 ^ ra.width.bits : Nat))) } := by
  simp only [← Int.shiftRight_eq_div_pow]
  cases signed <;> rfl

/-- **A product is split without loss.** It goes to one view, and what it has above the width of the
other view goes to that other one, which prevails where they share bits. Views that share none and
are as wide as the operands hold the product between them. -/
theorem multiply_splits_product (signed : Bool) (rd rc rb ra : Register) (address : UInt32)
    (core : Core) :
    let product := core.registers.number signed rd * core.registers.number signed rc
    ∃ after : RegisterFile,
      execute (.multiply signed rd rc rb ra) address core =
        .ok () { core with registers := after } ∧
      core.registers.Takes ra rb (product / (2 ^ ra.width.bits : Nat)) product after ∧
      ∀ bits, (∀ view ∈ [rd, rc, rb, ra], view.width.bits = bits) →
        ra.index ≠ 0 → rb.index ≠ 0 → rb.Apart ra →
          product = (2 ^ bits : Nat) * after.number signed ra + after.number false rb := by
  intro product
  have takes := core.registers.takes_write ra rb (product / (2 ^ ra.width.bits : Nat)) product
  refine ⟨_, execute_multiply signed rd rc rb ra address core, takes, ?_⟩
  intro bits wide upper lower apart
  obtain rfl := wide ra (by simp)
  have first := core.registers.representable_number signed rd
  have second := core.registers.representable_number signed rc
  rw [wide rd (by simp)] at first
  rw [wide rc (by simp)] at second
  have fits := first.upperHalf ra.width.bits_pos second
  have low := takes.number_trailing lower apart
  rw [wide rb (by simp)] at low
  rw [RegisterFile.number_of_residue (takes.number_leading upper) fits, low]
  exact (Int.mul_ediv_add_emod _ _).symm

/-- Two registers with bytes to multiply. -/
def byteFactors : Core where
  registers := (RegisterFile.cleared.set 1 0xAABBCC80).set 2 0x7F00
  pointer := 0x10
  memory := AddressSpace.empty

/-- The product of -128 and 127 replaces the byte that -128 was read from and the one beside it. -/
theorem multiply_splits_product_bytes :
    (∀ view ∈ [⟨1, .lowByte⟩, ⟨2, .highByte⟩, ⟨1, .highByte⟩, (⟨1, .lowByte⟩ : Register)],
      view.width.bits = 8) ∧
    (⟨1, .highByte⟩ : Register).Apart ⟨1, .lowByte⟩ ∧
    ∃ after : RegisterFile,
      execute (.multiply true ⟨1, .lowByte⟩ ⟨2, .highByte⟩ ⟨1, .highByte⟩ ⟨1, .lowByte⟩) 0x10
        byteFactors = .ok () { byteFactors with registers := after } ∧
      -16256 = 256 * after.number true ⟨1, .lowByte⟩ + after.number false ⟨1, .highByte⟩ ∧
      after.number false ⟨1, .highByte⟩ = 0x80 := by
  have wide : ∀ view ∈ [⟨1, .lowByte⟩, ⟨2, .highByte⟩, ⟨1, .highByte⟩, (⟨1, .lowByte⟩ : Register)],
      view.width.bits = 8 := by decide
  have apart : (⟨1, .highByte⟩ : Register).Apart ⟨1, .lowByte⟩ := by decide
  have left : byteFactors.registers.number true ⟨1, .lowByte⟩ = -128 := by decide
  have right : byteFactors.registers.number true ⟨2, .highByte⟩ = 127 := by decide
  obtain ⟨after, run, takes, whole⟩ := multiply_splits_product true ⟨1, .lowByte⟩ ⟨2, .highByte⟩
    ⟨1, .highByte⟩ ⟨1, .lowByte⟩ 0x10 byteFactors
  have product := whole 8 wide (by decide) (by decide) apart
  have low := takes.number_trailing (by decide) apart
  rw [left, right] at product low
  exact ⟨wide, apart, after, run, product, low⟩

/-! ## Division -/

section Quotients

variable (signed : Bool) (rd rc rb ra : Register) (address : UInt32) (core : Core)

theorem execute_divide_zero (zero : core.registers.number signed rc = 0) :
    execute (.divide signed rd rc rb ra) address core =
      .error (.divisionByZero address) core := by
  have stops (dividend divisor : Int) (zero : divisor = 0) :
      writeQuotient ra rb dividend divisor address core =
        .error (.divisionByZero address) core := by
    rw [writeQuotient, if_pos zero]
    rfl
  cases signed <;> exact stops _ _ zero

theorem execute_divide (nonzero : core.registers.number signed rc ≠ 0) :
    let dividend := core.registers.number signed rd
    let divisor := core.registers.number signed rc
    execute (.divide signed rd rc rb ra) address core =
      .ok () { core with
        registers := (core.registers.write rb (.ofInt (dividend.tmod divisor))).write ra
          (.ofInt (dividend.tdiv divisor)) } := by
  have goes (dividend divisor : Int) (nonzero : divisor ≠ 0) :
      writeQuotient ra rb dividend divisor address core =
        .ok () { core with
          registers := (core.registers.write rb (.ofInt (dividend.tmod divisor))).write ra
            (.ofInt (dividend.tdiv divisor)) } := by
    rw [writeQuotient, if_neg nonzero]
    rfl
  cases signed <;> exact goes _ _ nonzero

end Quotients

/-- **Division is exact.** A divisor of zero is a fault that changes nothing. Otherwise the quotient,
rounded toward zero, goes to one view and the remainder to the other; the quotient prevails where they
share bits. Views that share none and are as wide as the operands give both back as they are, but for
the quotient of the least number and -1, which is the least number again. -/
theorem divide_gives_quotient (signed : Bool) (rd rc rb ra : Register) (address : UInt32)
    (core : Core) :
    let dividend := core.registers.number signed rd
    let divisor := core.registers.number signed rc
    (divisor = 0 →
      execute (.divide signed rd rc rb ra) address core =
        .error (.divisionByZero address) core) ∧
    (divisor ≠ 0 → ∃ (quotient remainder : Int) (after : RegisterFile),
      execute (.divide signed rd rc rb ra) address core =
        .ok () { core with registers := after } ∧
      Divides dividend divisor quotient remainder ∧
      (∀ number ∈ [dividend, divisor, quotient, remainder],
        Representable (if signed then 64 else 32) signed number) ∧
      core.registers.Takes ra rb quotient remainder after ∧
      ∀ bits, (∀ view ∈ [rd, rc, rb, ra], view.width.bits = bits) →
        ra.index ≠ 0 → rb.index ≠ 0 → rb.Apart ra →
          let overflows := signed = true ∧ dividend = -(2 ^ (bits - 1) : Nat) ∧ divisor = -1
          (¬ overflows → after.number signed ra = quotient ∧ after.number signed rb = remainder) ∧
          (overflows → after.number signed ra = dividend ∧ after.number signed rb = 0)) := by
  intro dividend divisor
  refine ⟨execute_divide_zero signed rd rc rb ra address core, fun nonzero => ?_⟩
  have takes := core.registers.takes_write ra rb (dividend.tdiv divisor) (dividend.tmod divisor)
  have first := core.registers.representable_number signed rd
  have second := core.registers.representable_number signed rc
  refine ⟨_, _, _, execute_divide signed rd rc rb ra address core nonzero,
    divides_truncated dividend nonzero, first.division nonzero second, takes, ?_⟩
  intro bits wide upper lower apart overflows
  obtain rfl := wide ra (by simp)
  rw [wide rd (by simp)] at first
  rw [wide rc (by simp)] at second
  have low := RegisterFile.number_of_residue (takes.number_trailing lower apart)
    (wide rb (by simp) ▸ first.remainder nonzero second)
  refine ⟨fun regular => ⟨?_, low⟩, fun overflow => ⟨?_, ?_⟩⟩
  · exact RegisterFile.number_of_residue (takes.number_leading upper)
      (first.quotient nonzero second regular)
  · -- The quotient is the dividend again, once around what the view can hold.
    obtain ⟨rfl, least, opposite⟩ := overflow
    have around : dividend.tdiv divisor = dividend + (2 ^ ra.width.bits : Nat) := by
      rw [opposite, Int.tdiv_neg, Int.tdiv_one, least, two_pow_eq_twice ra.width.bits_pos]
      omega
    refine RegisterFile.number_of_residue ((takes.number_leading upper).trans ?_) first
    rw [around, Int.add_emod_right]
  · obtain ⟨-, -, opposite⟩ := overflow
    rw [low, opposite, Int.tmod_neg, Int.tmod_one]

/-- Words to divide: -7, 2, the least number and -1. -/
def wordOperands : Core where
  registers :=
    (((RegisterFile.cleared.set 1 0xFFF9).set 2 2).set 3 0x8000).set 4 0xFFFF
  pointer := 0x10
  memory := AddressSpace.empty

/-- Division by %R0, the quotient of -7 and 2, and the one of the least number and -1. -/
theorem divide_gives_quotient_words :
    (wordOperands.registers.number true ⟨0, .word⟩ = 0 ∧
      execute (.divide true ⟨1, .word⟩ ⟨0, .word⟩ ⟨6, .word⟩ ⟨5, .word⟩) 0x10 wordOperands =
        .error (.divisionByZero 0x10) wordOperands) ∧
    (wordOperands.registers.number true ⟨2, .word⟩ ≠ 0 ∧ ∃ after : RegisterFile,
      execute (.divide true ⟨1, .word⟩ ⟨2, .word⟩ ⟨6, .word⟩ ⟨5, .word⟩) 0x10 wordOperands =
        .ok () { wordOperands with registers := after } ∧
      after.number true ⟨5, .word⟩ = -3 ∧ after.number true ⟨6, .word⟩ = -1) ∧
    (wordOperands.registers.number true ⟨3, .word⟩ = -(2 ^ 15 : Nat) ∧
      wordOperands.registers.number true ⟨4, .word⟩ = -1 ∧ ∃ after : RegisterFile,
      execute (.divide true ⟨3, .word⟩ ⟨4, .word⟩ ⟨6, .word⟩ ⟨5, .word⟩) 0x10 wordOperands =
        .ok () { wordOperands with registers := after } ∧
      after.number true ⟨5, .word⟩ = -32768 ∧ after.number true ⟨6, .word⟩ = 0) := by
  have zero : wordOperands.registers.number true ⟨0, .word⟩ = 0 := by decide
  have seven : wordOperands.registers.number true ⟨1, .word⟩ = -7 := by decide
  have two : wordOperands.registers.number true ⟨2, .word⟩ = 2 := by decide
  have least : wordOperands.registers.number true ⟨3, .word⟩ = -(2 ^ 15 : Nat) := by decide
  have opposite : wordOperands.registers.number true ⟨4, .word⟩ = -1 := by decide
  have apart : (⟨6, .word⟩ : Register).Apart ⟨5, .word⟩ := by decide
  refine ⟨⟨zero, (divide_gives_quotient _ _ _ _ _ _ _).1 zero⟩, ⟨by decide, ?_⟩, least, opposite, ?_⟩
  · obtain ⟨quotient, remainder, after, run, divides, -, -, back⟩ :=
      (divide_gives_quotient true ⟨1, .word⟩ ⟨2, .word⟩ ⟨6, .word⟩ ⟨5, .word⟩ 0x10
        wordOperands).2 (by decide)
    obtain ⟨high, low⟩ := (back 16 (by decide) (by decide) (by decide) apart).1 (by decide)
    obtain ⟨exact, smaller, sign⟩ := divides
    rw [seven, two] at exact
    rw [two] at smaller
    -- The remainder is 1 less than zero, as the dividend is odd and negative.
    have odd : remainder = -1 := by
      rcases sign with rfl | negative
      · omega
      · rw [seven] at negative
        have := Int.sign_eq_neg_one_iff_neg.mp negative
        omega
    exact ⟨after, run, high.trans (by omega), low.trans odd⟩
  · obtain ⟨quotient, remainder, after, run, -, -, -, back⟩ :=
      (divide_gives_quotient true ⟨3, .word⟩ ⟨4, .word⟩ ⟨6, .word⟩ ⟨5, .word⟩ 0x10
        wordOperands).2 (by decide)
    obtain ⟨high, low⟩ :=
      (back 16 (by decide) (by decide) (by decide) apart).2 ⟨rfl, least, opposite⟩
    exact ⟨after, run, high.trans least, low⟩

end Core
end WordMachine
