import WordMachine.Machine.Execute
import WordMachine.Proofs.Actions
import WordMachine.Proofs.ViewNumbers

/-!
# Exact arithmetic

An arithmetic instruction reads its operands from views of any width, with a sign or without, and
writes to a view of any width again. Whatever the views are, and also if they overlap, what is left in
the last one is the exact integer result, up to a multiple of the power of two that the view has
room for (`Core.execute_calculation`). Shifts are by a count modulo 32.

A packed instruction takes its operands as rows of lanes (`Lane.of`). Each lane of the result is that
of the two lanes alone, modulo what a lane has room for (`Core.lane_combined`), and so the result is
the word with these lanes (`Core.packed_eq_fill`).

Since nothing else is lost, subtracting what was added gives the register back, and so does subtracting
twice from one number.
-/

set_option autoImplicit false

namespace WordMachine

/-! ## Exact results -/

/-- An operand as it is read: as a number in two's complement, and as one without a sign. -/
structure Reading where
  signed : Int
  unsigned : Nat

def Reading.ofImmediate (value : UInt16) : Reading where
  signed := Core.signedImmediate value
  unsigned := value.toNat

def RegisterFile.reading (registers : RegisterFile) (view : Register) : Reading where
  signed := registers.readSigned view
  unsigned := (registers.readUnsigned view).toNat

/-- The operations that take their right operand from a register or from an immediate. -/
inductive Operation where
  | add
  | sub
  | shiftLeft
  | shiftRight
  | shiftSigned
  deriving DecidableEq, Repr

namespace Operation

/-- The operation code of the form with three registers. -/
def ofRegisters : Operation → Opcode
  | add => .addR
  | sub => .subR
  | shiftLeft => .shlR
  | shiftRight => .shrR
  | shiftSigned => .sarR

/-- The operation code of the form with an immediate. -/
def ofImmediate : Operation → Opcode
  | add => .addI
  | sub => .subI
  | shiftLeft => .shlI
  | shiftRight => .shrI
  | shiftSigned => .sarI

def exact (left right : Reading) : Operation → Int
  | add => left.signed + right.signed
  | sub => left.signed - right.signed
  | shiftLeft => (left.unsigned * 2 ^ (right.unsigned % 32) : Nat)
  | shiftRight => (left.unsigned / 2 ^ (right.unsigned % 32) : Nat)
  | shiftSigned => left.signed / (2 ^ (right.unsigned % 32) : Nat)

end Operation

/-- An instruction that computes a number. -/
inductive Calculation where
  /-- Writes what becomes of `rc` and `rb` to `ra`. -/
  | combine (operation : Operation) (rc rb ra : Register)
  /-- Replaces `ra` by what becomes of it and the immediate. -/
  | adjust (operation : Operation) (value : UInt16) (ra : Register)
  /-- Replaces `ra` by the immediate less `ra`. -/
  | subtractFrom (value : UInt16) (ra : Register)
  /-- Writes the product of `rd` and `rc` and `rb` to `ra`. -/
  | accumulate (rd rc rb ra : Register)
  deriving DecidableEq, Repr

namespace Calculation

def instruction : Calculation → Instruction
  | combine operation rc rb ra => ⟨operation.ofRegisters, .regRegReg rc rb ra⟩
  | adjust operation value ra => ⟨operation.ofImmediate, .immReg value ra⟩
  | subtractFrom value ra => ⟨.rsubI, .immReg value ra⟩
  | accumulate rd rc rb ra => ⟨.imac, .regRegRegReg rd rc rb ra⟩

/-- The view that the result goes to. -/
def target : Calculation → Register
  | combine _ _ _ ra => ra
  | adjust _ _ ra => ra
  | subtractFrom _ ra => ra
  | accumulate _ _ _ ra => ra

/-- The result as an integer. -/
def exact (registers : RegisterFile) : Calculation → Int
  | combine operation rc rb _ => operation.exact (registers.reading rc) (registers.reading rb)
  | adjust operation value ra => operation.exact (registers.reading ra) (.ofImmediate value)
  | subtractFrom value ra => Core.signedImmediate value - registers.readSigned ra
  | accumulate rd rc rb _ =>
      registers.readSigned rd * registers.readSigned rc + registers.readSigned rb

end Calculation

/-! ## Lanes -/

/-- The lanes of a word, by their width. -/
inductive Lane where
  | word
  | byte
  deriving DecidableEq, Repr

namespace Lane

def bits : Lane → Nat
  | word => 16
  | byte => 8

/-- The number of lanes. -/
def count (lane : Lane) : Nat :=
  32 / lane.bits

/-- The number in a lane, counted from the lowest one. -/
def of (lane : Lane) (number place : Nat) : Nat :=
  number / 2 ^ (lane.bits * place) % 2 ^ lane.bits

/-- A word is made of its lanes. -/
theorem eq_of_lanes (lane : Lane) {one other : Nat} (small : one < 2 ^ 32) (bound : other < 2 ^ 32)
    (same : ∀ place < lane.count, lane.of one place = lane.of other place) : one = other := by
  cases lane with
  | word =>
      have low := same 0 (by decide)
      have high := same 1 (by decide)
      simp only [of, bits] at low high
      omega
  | byte =>
      have first := same 0 (by decide)
      have second := same 1 (by decide)
      have third := same 2 (by decide)
      have fourth := same 3 (by decide)
      simp only [of, bits] at first second third fourth
      omega

/-- The word that has these numbers in its lanes, from the lowest one up, each modulo what a lane has
room for. -/
def fill (lane : Lane) (numbers : Nat → Int) : UInt32 :=
  .ofNat <| (List.range lane.count).foldr
    (fun place higher => (numbers place % (2 ^ lane.bits : Nat)).toNat + 2 ^ lane.bits * higher) 0

theorem of_fill (lane : Lane) (numbers : Nat → Int) {place : Nat} (inside : place < lane.count) :
    (lane.of (lane.fill numbers).toNat place : Int) = numbers place % (2 ^ lane.bits : Nat) := by
  rw [fill, UInt32.toNat_ofNat']
  cases lane with
  | word =>
      have places : List.range word.count = [0, 1] := rfl
      simp only [places, List.foldr_cons, List.foldr_nil, of, bits]
      obtain rfl | rfl : place = 0 ∨ place = 1 := by
        have : place < 2 := inside
        omega
      all_goals omega
  | byte =>
      have places : List.range byte.count = [0, 1, 2, 3] := rfl
      simp only [places, List.foldr_cons, List.foldr_nil, of, bits]
      obtain rfl | rfl | rfl | rfl : place = 0 ∨ place = 1 ∨ place = 2 ∨ place = 3 := by
        have : place < 4 := inside
        omega
      all_goals omega

end Lane

/-- The operations on lanes. -/
inductive Packing where
  | sum
  | difference
  deriving DecidableEq, Repr

namespace Packing

def opcode : Packing → Lane → Opcode
  | sum, .word => .paddW
  | sum, .byte => .paddB
  | difference, .word => .psubW
  | difference, .byte => .psubB

/-- What becomes of two lanes. -/
def exact : Packing → Int → Int → Int
  | sum, left, right => left + right
  | difference, left, right => left - right

/-- What becomes of two words. -/
def combined : Packing → UInt32 → UInt32 → UInt32
  | sum, left, right => left + right
  | difference, left, right => left - right

end Packing

namespace Core

/-! ## Calculations -/

theorem ofInt_natCast (number : Nat) : UInt32.ofInt (number : Int) = .ofNat number := by
  rw [← UInt32.toNat_inj, ← Int.natCast_inj, RegisterFile.toNat_ofInt, UInt32.toNat_ofNat',
    Int.natCast_emod]

theorem shiftLeft_eq_ofInt (value count : UInt32) :
    value <<< count = .ofInt (value.toNat * 2 ^ (count.toNat % 32) : Nat) := by
  rw [ofInt_natCast, shiftLeft_eq]

theorem shiftRight_eq_ofInt (value count : UInt32) :
    value >>> count = .ofInt (value.toNat / 2 ^ (count.toNat % 32) : Nat) := by
  rw [ofInt_natCast, shiftRight_eq]

/-- **A calculation writes its exact result.** -/
theorem execute_calculation (calculation : Calculation) (address : UInt32) (core : Core) :
    execute calculation.instruction address core =
      .ok () { core with registers :=
        core.registers.write calculation.target (.ofInt (calculation.exact core.registers)) } := by
  cases calculation with
  | combine operation rc rb ra =>
      simp only [Calculation.instruction, Calculation.target, Calculation.exact, RegisterFile.reading]
      cases operation with
      | add => rfl
      | sub => rfl
      | shiftLeft =>
          simp only [Operation.exact, ← shiftLeft_eq_ofInt]
          rfl
      | shiftRight =>
          simp only [Operation.exact, ← shiftRight_eq_ofInt]
          rfl
      | shiftSigned =>
          simp only [Operation.exact, ← Int.shiftRight_eq_div_pow]
          rfl
  | adjust operation value ra =>
      have count : value.toNat = (UInt32.ofNat value.toNat).toNat :=
        (UInt32.toNat_ofNat_of_lt' (Nat.lt_trans value.toNat_lt (by decide))).symm
      simp only [Calculation.instruction, Calculation.target, Calculation.exact, RegisterFile.reading,
        Reading.ofImmediate]
      cases operation with
      | add =>
          simp only [Operation.exact]
          rfl
      | sub =>
          simp only [Operation.exact]
          rfl
      | shiftLeft =>
          simp only [Operation.exact]
          rw [count, ← shiftLeft_eq_ofInt]
          rfl
      | shiftRight =>
          simp only [Operation.exact]
          rw [count, ← shiftRight_eq_ofInt]
          rfl
      | shiftSigned =>
          simp only [Operation.exact, ← Int.shiftRight_eq_div_pow]
          rfl
  | subtractFrom value ra => rfl
  | accumulate rd rc rb ra => rfl

/-! ## Packed operations -/

/-- The word with one lane of another at its end. -/
def laneWord (lane : Lane) (word : UInt32) (place : Nat) : UInt32 :=
  word >>> UInt32.ofNat (place * lane.bits) &&& UInt32.ofNat (2 ^ lane.bits - 1)

section Lanes

variable {lane : Lane} {place : Nat}

theorem toNat_and_lane (lane : Lane) (word : UInt32) :
    (word &&& UInt32.ofNat (2 ^ lane.bits - 1)).toNat = word.toNat % 2 ^ lane.bits := by
  have mask : (UInt32.ofNat (2 ^ lane.bits - 1)).toNat = 2 ^ lane.bits - 1 := by
    cases lane <;> rfl
  rw [UInt32.toNat_and, mask, Nat.and_two_pow_sub_one_eq_mod]

theorem toNat_shift (inside : place < lane.count) :
    (UInt32.ofNat (place * lane.bits)).toNat % 32 = lane.bits * place := by
  rw [UInt32.toNat_ofNat']
  cases lane <;> simp only [Lane.bits, Lane.count] at * <;> omega

theorem toNat_laneWord (word : UInt32) (inside : place < lane.count) :
    (laneWord lane word place).toNat = lane.of word.toNat place := by
  rw [laneWord, toNat_and_lane, UInt32.toNat_shiftRight, toNat_shift inside,
    Nat.shiftRight_eq_div_pow, Lane.of]

theorem testBit_foldl_or {α : Type} (part : α → UInt32) (parts : List α) (start : UInt32) (bit : Nat) :
    (parts.foldl (fun word one => word ||| part one) start).toNat.testBit bit =
      (start.toNat.testBit bit || parts.any fun one => (part one).toNat.testBit bit) := by
  induction parts generalizing start with
  | nil => simp
  | cons one rest ih => simp [ih, UInt32.toNat_or, Nat.testBit_or, Bool.or_assoc]

/-- A lane that is moved to its place is in that lane only. -/
theorem testBit_placed (word : UInt32) {other : Nat} (inside : place < lane.count)
    (present : other < lane.count) {bit : Nat} (small : bit < lane.bits) :
    ((word &&& UInt32.ofNat (2 ^ lane.bits - 1)) <<<
        UInt32.ofNat (other * lane.bits)).toNat.testBit (bit + lane.bits * place) =
      (decide (other = place) && word.toNat.testBit bit) := by
  have within : bit + lane.bits * place < 32 := by
    cases lane <;> simp only [Lane.bits, Lane.count] at * <;> omega
  rw [UInt32.toNat_shiftLeft, toNat_shift present, toNat_and_lane, Nat.testBit_mod_two_pow,
    Nat.testBit_shiftLeft, Nat.testBit_mod_two_pow, decide_eq_true within, Bool.true_and]
  by_cases same : other = place
  · subst same
    simp [small]
  · -- Lanes at other places end below this bit or begin above it.
    have beside : ¬ (lane.bits * other ≤ bit + lane.bits * place ∧
        bit + lane.bits * place - lane.bits * other < lane.bits) := by
      cases lane <;> simp only [Lane.bits] at * <;> omega
    rw [decide_eq_false same, Bool.false_and, ← Bool.and_assoc, ← Bool.decide_and,
      decide_eq_false beside, Bool.false_and]

/-- **A lane of a packed result is made of the two lanes alone.** -/
theorem lane_packed (combine : UInt32 → UInt32 → UInt32) (left right : UInt32)
    (inside : place < lane.count) :
    lane.of (packed lane.bits combine left right).toNat place =
      (combine (laneWord lane left place) (laneWord lane right place)).toNat % 2 ^ lane.bits := by
  have folded : packed lane.bits combine left right =
      (List.range lane.count).foldl
        (fun word one => word |||
          (combine (laneWord lane left one) (laneWord lane right one) &&&
            UInt32.ofNat (2 ^ lane.bits - 1)) <<< UInt32.ofNat (one * lane.bits)) 0 :=
    rfl
  refine Nat.eq_of_testBit_eq fun bit => ?_
  rw [Lane.of, Nat.testBit_mod_two_pow, Nat.testBit_mod_two_pow]
  by_cases small : bit < lane.bits
  · rw [Nat.testBit_div_two_pow, folded, testBit_foldl_or, UInt32.toNat_zero, Nat.zero_testBit,
      Bool.false_or]
    congr 1
    rw [Bool.eq_iff_iff, List.any_eq_true]
    constructor
    · rintro ⟨other, present, set⟩
      rw [testBit_placed _ inside (List.mem_range.mp present) small, Bool.and_eq_true,
        decide_eq_true_eq] at set
      obtain ⟨rfl, set⟩ := set
      exact set
    · intro set
      refine ⟨place, List.mem_range.mpr inside, ?_⟩
      rw [testBit_placed _ inside inside small, set, decide_eq_true rfl, Bool.true_and]
  · rw [decide_eq_false small, Bool.false_and, Bool.false_and]

/-- Each lane of a sum or a difference is that of the two lanes, as far as there is room. -/
theorem lane_combined (packing : Packing) (left right : UInt32) (inside : place < lane.count) :
    (lane.of (packed lane.bits packing.combined left right).toNat place : Int) =
      packing.exact (lane.of left.toNat place) (lane.of right.toNat place) % (2 ^ lane.bits : Nat) := by
  have narrow : lane.bits ≤ 32 := by
    cases lane <;> decide
  have exact : ((packing.combined (laneWord lane left place) (laneWord lane right place)).toNat : Int) =
      packing.exact (laneWord lane left place).toNat (laneWord lane right place).toNat %
        (2 ^ 32 : Nat) := by
    have bound := (laneWord lane right place).toNat_lt
    cases packing with
    | sum =>
        simp only [Packing.combined, Packing.exact, UInt32.toNat_add]
        omega
    | difference =>
        simp only [Packing.combined, Packing.exact, UInt32.toNat_sub]
        omega
  rw [lane_packed _ _ _ inside, Int.natCast_emod, exact, emod_two_pow_emod narrow,
    toNat_laneWord _ inside, toNat_laneWord _ inside]

/-- **A packed operation fills the lanes with what becomes of each two.** -/
theorem packed_eq_fill (packing : Packing) (lane : Lane) (left right : UInt32) :
    packed lane.bits packing.combined left right =
      lane.fill fun place => packing.exact (lane.of left.toNat place) (lane.of right.toNat place) := by
  refine UInt32.toNat_inj.mp (lane.eq_of_lanes (UInt32.toNat_lt _) (UInt32.toNat_lt _) ?_)
  intro place inside
  rw [← Int.natCast_inj, lane_combined packing left right inside, lane.of_fill _ inside]

theorem execute_packing (packing : Packing) (lane : Lane) (rc rb ra : Register) (address : UInt32)
    (core : Core) :
    let result := packed lane.bits packing.combined (core.registers.readUnsigned rc)
      (core.registers.readUnsigned rb)
    execute ⟨packing.opcode lane, .regRegReg rc rb ra⟩ address core =
      .ok () { core with registers := core.registers.write ra result } := by
  cases packing <;> cases lane <;> rfl

/-- Lanes that were added are subtracted again. -/
theorem packed_difference_sum (lane : Lane) (left right : UInt32) :
    packed lane.bits Packing.difference.combined
      (packed lane.bits Packing.sum.combined left right) right = left := by
  refine UInt32.toNat_inj.mp (lane.eq_of_lanes (UInt32.toNat_lt _) left.toNat_lt ?_)
  intro place inside
  have difference := lane_combined .difference (packed lane.bits
    Packing.sum.combined left right) right inside
  have sum := lane_combined .sum left right inside
  have small : lane.of left.toNat place < 2 ^ lane.bits := Nat.mod_lt _ (Nat.two_pow_pos _)
  simp only [Packing.exact] at difference sum
  rw [← Int.natCast_inj, difference, sum, Int.sub_emod, Int.emod_emod, ← Int.sub_emod,
    Int.add_sub_cancel]
  exact Int.emod_eq_of_lt (by omega) (by omega)

end Lanes

/-! ## There and back -/

/-- A view that gets back the number it held makes the registers what they were. -/
theorem write_restores (file : RegisterFile) (view : Register) (value back : UInt32)
    (restores : view.index ≠ 0 →
      ((file.write view value).write view back).number false view = file.number false view) :
    (file.write view value).write view back = file :=
  RegisterFile.AgreesOutside.eq_of_number
    (.trans (.write List.mem_cons_self file value) (.write List.mem_cons_self _ back)) restores

/-- Two calculations in one view change nothing if the second one gives back the number that the first
one found there. -/
theorem calculations_restore (first second : Calculation) (same : second.target = first.target)
    (address later : UInt32) (core : Core)
    (restores : first.target.index ≠ 0 →
      second.exact (core.registers.write first.target (.ofInt (first.exact core.registers))) %
          (2 ^ first.target.width.bits : Nat) =
        core.registers.number false first.target) :
    (do
      execute first.instruction address
      execute second.instruction later) core = .ok () core := by
  have run := execute_calculation first address core
  refine (run_bind_of_ok run).trans ((execute_calculation second later _).trans ?_)
  rw [same]
  refine congrArg (fun registers => EStateM.Result.ok () { core with registers }) ?_
  refine write_restores core.registers first.target _ _ fun writable => ?_
  rw [RegisterFile.number_write_ofInt _ writable]
  exact restores writable

/-- What was added to a view is subtracted again. -/
theorem add_then_subtract (value : UInt16) (ra : Register) (address later : UInt32) (core : Core) :
    (do
      execute ⟨.addI, .immReg value ra⟩ address
      execute ⟨.subI, .immReg value ra⟩ later) core = .ok () core := by
  refine calculations_restore (.adjust .add value ra) (.adjust .sub value ra) rfl address later core
    fun (writable : ra.index ≠ 0) => ?_
  simp only [Calculation.exact, Calculation.target, Operation.exact, RegisterFile.reading,
    Reading.ofImmediate]
  rw [Int.sub_emod, RegisterFile.readSigned_write_emod _ writable, ← Int.sub_emod,
    Int.add_sub_cancel, RegisterFile.readSigned_emod]

/-- A view that is subtracted twice from one number is as before. -/
theorem subtract_twice (value : UInt16) (ra : Register) (address later : UInt32) (core : Core) :
    (do
      execute ⟨.rsubI, .immReg value ra⟩ address
      execute ⟨.rsubI, .immReg value ra⟩ later) core = .ok () core := by
  refine calculations_restore (.subtractFrom value ra) (.subtractFrom value ra) rfl address later core
    fun (writable : ra.index ≠ 0) => ?_
  simp only [Calculation.exact, Calculation.target]
  rw [Int.sub_emod, RegisterFile.readSigned_write_emod _ writable, ← Int.sub_emod,
    Int.sub_sub_self, RegisterFile.readSigned_emod]

/-- Lanes of another register that were added are subtracted again. -/
theorem pack_then_unpack (lane : Lane) {x y : Fin 16} (apart : x ≠ y) (address later : UInt32)
    (core : Core) :
    (do
      execute ⟨Packing.sum.opcode lane, .regRegReg ⟨x, .dword⟩ ⟨y, .dword⟩ ⟨x, .dword⟩⟩ address
      execute ⟨Packing.difference.opcode lane, .regRegReg ⟨x, .dword⟩ ⟨y, .dword⟩ ⟨x, .dword⟩⟩
        later) core = .ok () core := by
  have first := execute_packing .sum lane ⟨x, .dword⟩ ⟨y, .dword⟩ ⟨x, .dword⟩ address core
  refine (run_bind_of_ok first).trans ((execute_packing .difference lane _ _ _ later _).trans ?_)
  refine congrArg (fun registers => EStateM.Result.ok () { core with registers }) ?_
  refine write_restores core.registers ⟨x, .dword⟩ _ _ fun writable => ?_
  have kept : (⟨y, .dword⟩ : Register).Apart ⟨x, .dword⟩ :=
    Register.apart_iff.mpr fun same => absurd same.symm apart
  rw [RegisterFile.number_write _ writable, RegisterFile.readUnsigned_write_of_apart _ kept,
    RegisterFile.readUnsigned_write _ writable, RegisterFile.and_mask_of_lt (UInt32.toNat_lt _),
    packed_difference_sum, RegisterFile.number_false]
  exact Int.emod_eq_of_lt (by omega) (Int.ofNat_lt.mpr (UInt32.toNat_lt _))

/-- **Integer results are exact.** A calculation leaves in its target the integer that comes of its
operands, modulo what the view has room for, and changes nothing else. A packed operation leaves there
what the view has room for of the word whose lanes are the sums or differences of the lanes of the
operands, modulo what a lane has room for. What was added is subtracted again, and subtracting twice
from one number changes nothing. -/
theorem integer_results_exact (address : UInt32) (core : Core) :
    (∀ calculation : Calculation, ∃ after : RegisterFile,
      execute calculation.instruction address core = .ok () { core with registers := after } ∧
      RegisterFile.AgreesOutside [calculation.target] core.registers after ∧
      (calculation.target.index ≠ 0 →
        after.number false calculation.target =
          calculation.exact core.registers % (2 ^ calculation.target.width.bits : Nat))) ∧
    (∀ (packing : Packing) (lane : Lane) (rc rb ra : Register),
      ∃ (result : Nat) (after : RegisterFile),
      execute ⟨packing.opcode lane, .regRegReg rc rb ra⟩ address core =
        .ok () { core with registers := after } ∧
      RegisterFile.AgreesOutside [ra] core.registers after ∧
      result < 2 ^ 32 ∧
      (∀ place < lane.count,
        (lane.of result place : Int) =
          packing.exact (lane.of (core.registers.readUnsigned rc).toNat place)
            (lane.of (core.registers.readUnsigned rb).toNat place) % (2 ^ lane.bits : Nat)) ∧
      (ra.index ≠ 0 → after.number false ra = (result : Int) % (2 ^ ra.width.bits : Nat))) ∧
    (∀ value ra later,
      (do
        execute ⟨.addI, .immReg value ra⟩ address
        execute ⟨.subI, .immReg value ra⟩ later) core = .ok () core) ∧
    (∀ value ra later,
      (do
        execute ⟨.rsubI, .immReg value ra⟩ address
        execute ⟨.rsubI, .immReg value ra⟩ later) core = .ok () core) ∧
    (∀ (lane : Lane) (x y : Fin 16) later, x ≠ y →
      (do
        execute ⟨Packing.sum.opcode lane, .regRegReg ⟨x, .dword⟩ ⟨y, .dword⟩ ⟨x, .dword⟩⟩ address
        execute ⟨Packing.difference.opcode lane, .regRegReg ⟨x, .dword⟩ ⟨y, .dword⟩ ⟨x, .dword⟩⟩
          later) core = .ok () core) := by
  refine ⟨fun calculation => ?_, fun packing lane rc rb ra => ?_, fun value ra later => ?_,
    fun value ra later => ?_, fun lane x y later apart => ?_⟩
  · exact ⟨_, execute_calculation calculation address core, .write List.mem_cons_self _ _,
      fun writable => RegisterFile.number_write_ofInt _ writable _⟩
  · exact ⟨_, _, execute_packing packing lane rc rb ra address core, .write List.mem_cons_self _ _,
      UInt32.toNat_lt _, fun place inside => lane_combined packing _ _ inside,
      fun writable => RegisterFile.number_write _ writable _⟩
  · exact add_then_subtract value ra address later core
  · exact subtract_twice value ra address later core
  · exact pack_then_unpack lane apart address later core

/-- Two registers to compute with. -/
def mixedOperands : Core where
  registers := (RegisterFile.cleared.set 1 0xFFFF8011).set 2 0x00FF0123
  pointer := 0x10
  memory := AddressSpace.empty

/-- From a word and two bytes, -32751 * 35 + 17 goes to another byte of the word. A byte that is less
than the one subtracted from it takes nothing from the next. -/
theorem integer_results_exact_mixedViews :
    (∃ after : RegisterFile,
      execute ⟨.imac, .regRegRegReg ⟨1, .word⟩ ⟨2, .lowByte⟩ ⟨1, .lowByte⟩ ⟨1, .highByte⟩⟩ 0x10
        mixedOperands = .ok () { mixedOperands with registers := after } ∧
      after.number false ⟨1, .highByte⟩ = 100) ∧
    (∃ after : RegisterFile,
      execute ⟨.psubB, .regRegReg ⟨1, .dword⟩ ⟨2, .word⟩ ⟨2, .word⟩⟩ 0x10 mixedOperands =
        .ok () { mixedOperands with registers := after } ∧
      after.number false ⟨2, .word⟩ = 0x7FEE) ∧
    ((1 : Fin 16) ≠ 2 ∧
      (do
        execute ⟨.paddW, .regRegReg ⟨1, .dword⟩ ⟨2, .dword⟩ ⟨1, .dword⟩⟩ 0x10
        execute ⟨.psubW, .regRegReg ⟨1, .dword⟩ ⟨2, .dword⟩ ⟨1, .dword⟩⟩ 0x20) mixedOperands =
        .ok () mixedOperands) := by
  obtain ⟨calculated, packs, -, -, unpacks⟩ := integer_results_exact 0x10 mixedOperands
  refine ⟨?_, ?_, by decide, unpacks .word 1 2 0x20 (by decide)⟩
  · obtain ⟨after, run, -, number⟩ :=
      calculated (.accumulate ⟨1, .word⟩ ⟨2, .lowByte⟩ ⟨1, .lowByte⟩ ⟨1, .highByte⟩)
    exact ⟨after, run, (number (by decide)).trans (by decide)⟩
  · obtain ⟨result, after, run, -, -, lanes, number⟩ :=
      packs .difference .byte ⟨1, .dword⟩ ⟨2, .word⟩ ⟨2, .word⟩
    have low : (Lane.byte.of result 0 : Int) = 0xEE := (lanes 0 (by decide)).trans (by decide)
    have high : (Lane.byte.of result 1 : Int) = 0x7F := (lanes 1 (by decide)).trans (by decide)
    refine ⟨after, run, (number (by decide)).trans ?_⟩
    simp only [Lane.of, Lane.bits, Width.bits] at low high ⊢
    omega

end Core
end WordMachine
