import WordMachine.Proofs.ExactArithmetic
import WordMachine.Proofs.FaultStates
import WordMachine.Proofs.Spellings

/-!
# Operands in written order

What a statement does is told in terms of its operands as they are written (`Assembly.Statement`):
the first operand of `SUB.R` gets the second one less the third, `DIV` divides its third operand by
its fourth, `LD` and `ST` have the base last. The instruction has its registers in another order, and
another one for each format, and so have the fields of its words and those of their extension.

None of this can be seen from outside. A statement that is assembled, put where a machine goes on and
executed in one step has the effect that is written (`Assembly.Statement.effect`), however its parts
are spelled, and with the faults that there may be (`Machine.step_takes_written_effect`).

Mnemonics and effects are spelled out here and not taken from the tables and functions of the machine:
a packed result lane by lane, a condition as a comparison of the flag with zero.
-/

set_option autoImplicit false

namespace WordMachine

open Assembly

/-! ## Effects -/

/-- The core with the view of a register replaced. -/
def Core.put (core : Core) (view : Register) (value : UInt32) : Core :=
  { core with registers := core.registers.write view value }

/-- The core with the view of a register replaced by the low bits of a number. -/
def Core.putNumber (core : Core) (view : Register) (value : Int) : Core :=
  core.put view (.ofInt value)

/-- What a condition asks of a flag. -/
def Condition.Meets (flag : Int) : Condition → Prop
  | zero => flag = 0
  | notZero => flag ≠ 0
  | greaterOrEqual => 0 ≤ flag
  | greater => 0 < flag
  | lessOrEqual => flag ≤ 0
  | less => flag < 0

theorem Condition.holds_iff (condition : Condition) (flag : Int) :
    condition.holds flag = true ↔ condition.Meets flag := by
  cases condition with
  | zero => exact beq_iff_eq
  | notZero => exact bne_iff_ne
  | greaterOrEqual | greater | lessOrEqual | less => exact decide_eq_true_iff

instance (flag : Int) (condition : Condition) : Decidable (condition.Meets flag) :=
  decidable_of_iff _ (condition.holds_iff flag)

namespace Assembly

/-- The operations that combine two registers into a third one. -/
inductive Combination where
  | add | sub | and | or | xor | andNot | orNot
  | shiftLeft | shiftRight | shiftSigned
  /-- Adds or subtracts lane by lane. -/
  | pack (packing : Packing) (lane : Lane)
  deriving DecidableEq, Repr

namespace Combination

def opcode : Combination → Opcode
  | add => .addR
  | sub => .subR
  | and => .andR
  | or => .orR
  | xor => .xorR
  | andNot => .andnR
  | orNot => .ornR
  | shiftLeft => .shlR
  | shiftRight => .shrR
  | shiftSigned => .sarR
  | pack packing lane => packing.opcode lane

/-- The mnemonics of an operation, in capitals. -/
def names : Combination → List String
  | add => ["ADD.R"]
  | sub => ["SUB.R"]
  | and => ["AND.R"]
  | or => ["OR.R"]
  | xor => ["XOR.R"]
  | andNot => ["ANDN.R"]
  | orNot => ["ORN.R"]
  | shiftLeft => ["SHL.R", "SAL.R"]
  | shiftRight => ["SHR.R"]
  | shiftSigned => ["SAR.R"]
  | pack .sum .word => ["PADD.W"]
  | pack .sum .byte => ["PADD.B"]
  | pack .difference .word => ["PSUB.W"]
  | pack .difference .byte => ["PSUB.B"]

/-- What becomes of `u` and `v`, in this order. Shifts are by `v` modulo 32. A packed result has the
exact sum or difference of the two lanes at a place in the lane at this place, as far as there is
room. -/
def value (registers : RegisterFile) (u v : Register) : Combination → UInt32
  | add => .ofInt (registers.readSigned u + registers.readSigned v)
  | sub => .ofInt (registers.readSigned u - registers.readSigned v)
  | and => registers.readUnsigned u &&& registers.readUnsigned v
  | or => registers.readUnsigned u ||| registers.readUnsigned v
  | xor => registers.readUnsigned u ^^^ registers.readUnsigned v
  | andNot => registers.readUnsigned u &&& ~~~registers.readUnsigned v
  | orNot => registers.readUnsigned u ||| ~~~registers.readUnsigned v
  | shiftLeft =>
      .ofNat ((registers.readUnsigned u).toNat * 2 ^ ((registers.readUnsigned v).toNat % 32))
  | shiftRight =>
      .ofNat ((registers.readUnsigned u).toNat / 2 ^ ((registers.readUnsigned v).toNat % 32))
  | shiftSigned =>
      .ofInt (registers.readSigned u / (2 ^ ((registers.readUnsigned v).toNat % 32) : Nat))
  | pack packing lane =>
      lane.fill fun place =>
        packing.exact (lane.of (registers.readUnsigned u).toNat place)
          (lane.of (registers.readUnsigned v).toNat place)

end Combination

/-- A statement with its operands in the order in which they are written. -/
inductive Statement where
  /-- Writes what becomes of `u` and `v` to `x`. -/
  | combine (operation : Combination) (x u v : Register)
  /-- Writes `s` to `x` if `f` is not zero. -/
  | move (x s f : Register)
  /-- Writes the product of `l` and `r` to `hi` and `lo`. -/
  | multiply (signed : Bool) (hi lo l r : Register)
  /-- Divides `l` by `r` into `q` and `rem`. -/
  | divide (signed : Bool) (q rem l r : Register)
  /-- Writes the product of `l` and `r` and `acc` to `d`. -/
  | accumulate (d acc l r : Register)
  /-- Loads `data` from the address that `imm` and `base` add up to. -/
  | load (size : Size) (data : Register) (imm : Int) (base : Register)
  /-- Stores `data` at the address that `imm` and `base` add up to. -/
  | store (size : Size) (data : Register) (imm : Int) (base : Register)
  /-- Writes `imm` to `d` if `f` is not zero. -/
  | moveImmediate (d : Register) (imm : Int) (f : Register)
  /-- Goes to the address that `imm` and `adj` add up to if `flag` meets the condition. -/
  | jump (condition : Condition) (flag : Register) (imm : Int) (adj : Register)
  /-- Does the same, but pushes the address of the next instruction first. -/
  | call (condition : Condition) (flag : Register) (imm : Int) (adj : Register)
  /-- Writes `imm` less `x` to `x`. -/
  | subtractFrom (x : Register) (imm : Int)
  deriving DecidableEq, Repr

namespace Statement

def opcode : Statement → Opcode
  | combine operation _ _ _ => operation.opcode
  | move _ _ _ => .cmovR
  | multiply signed _ _ _ _ => if signed then .imul else .mul
  | divide signed _ _ _ _ => if signed then .idiv else .div
  | accumulate _ _ _ _ => .imac
  | load size _ _ _ => .ld size
  | store size _ _ _ => .st size
  | moveImmediate _ _ _ => .cmovI
  | jump condition _ _ _ => .jabs condition
  | call condition _ _ _ => .call condition
  | subtractFrom _ _ => .rsubI

/-- What the mnemonics of conditional jumps and calls end in. -/
def ending : Condition → String
  | .zero => "Z"
  | .notZero => "NZ"
  | .greaterOrEqual => "GE"
  | .greater => "GT"
  | .lessOrEqual => "LE"
  | .less => "LT"

/-- What the mnemonics of loads and stores end in. -/
def letter : Size → String
  | .dword => "D"
  | .word => "W"
  | .byte => "B"

/-- The number of bytes that are loaded or stored. -/
def transferred : Size → Nat
  | .dword => 4
  | .word => 2
  | .byte => 1

/-- The mnemonics of a statement, in capitals. -/
def names : Statement → List String
  | combine operation _ _ _ => operation.names
  | move _ _ _ => ["CMOV.R"]
  | multiply signed _ _ _ _ => if signed then ["IMUL"] else ["MUL"]
  | divide signed _ _ _ _ => if signed then ["IDIV"] else ["DIV"]
  | accumulate _ _ _ _ => ["IMAC"]
  | load size _ _ _ => ["LD." ++ letter size]
  | store size _ _ _ => ["ST." ++ letter size]
  | moveImmediate _ _ _ => ["CMOV.I"]
  | jump condition _ _ _ => ["JABS." ++ ending condition]
  | call condition _ _ _ => ["CALL." ++ ending condition]
  | subtractFrom _ _ => ["RSUB.I"]

/-- The operands in the order in which they are written. -/
def written : Statement → List Operand
  | combine _ x u v => [.register x, .register u, .register v]
  | move x s f => [.register x, .register s, .register f]
  | multiply _ hi lo l r => [.register hi, .register lo, .register l, .register r]
  | divide _ q rem l r => [.register q, .register rem, .register l, .register r]
  | accumulate d acc l r => [.register d, .register acc, .register l, .register r]
  | load _ data imm base => [.register data, .literal imm, .register base]
  | store _ data imm base => [.register data, .literal imm, .register base]
  | moveImmediate d imm f => [.register d, .literal imm, .register f]
  | jump _ flag imm adj => [.register flag, .literal imm, .register adj]
  | call _ flag imm adj => [.register flag, .literal imm, .register adj]
  | subtractFrom x imm => [.register x, .literal imm]

/-- What a literal stands for as an immediate: its residue modulo 65536 as a number in two's
complement. -/
def immediate (imm : Int) : Int :=
  Int.bmod imm 65536

/-- The address that an immediate and a register add up to. -/
def target (registers : RegisterFile) (imm : Int) (register : Register) : UInt32 :=
  .ofInt (immediate imm + registers.readSigned register)

/-- The effect of a statement that stands at an address. The pointer of the core is past the
statement already. -/
def effect (address : UInt32) (core : Core) : Statement → Except Fault Unit × Core
  | combine operation x u v => (.ok (), core.put x (operation.value core.registers u v))
  | move x s f =>
      (.ok (),
        if core.registers.readSigned f = 0 then core
        else core.putNumber x (core.registers.readSigned s))
  | multiply signed hi lo l r =>
      let product := core.registers.number signed l * core.registers.number signed r
      (.ok (), (core.putNumber lo product).putNumber hi (product / (2 ^ hi.width.bits : Nat)))
  | divide signed q rem l r =>
      let dividend := core.registers.number signed l
      let divisor := core.registers.number signed r
      if divisor = 0 then (.error (.divisionByZero address), core)
      else
        (.ok (), (core.putNumber rem (dividend.tmod divisor)).putNumber q (dividend.tdiv divisor))
  | accumulate d acc l r =>
      (.ok (), core.putNumber d
        (core.registers.readSigned l * core.registers.readSigned r + core.registers.readSigned acc))
  | load size data imm base =>
      match core.memory.readNumber (target core.registers imm base) (transferred size) with
      | .ok value => (.ok (), core.putNumber data (Int.bmod value (256 ^ transferred size)))
      | .error error => (.error (.memory error), core)
  | store size data imm base =>
      let value := UInt32.ofInt (core.registers.readSigned data)
      match AddressSpace.writeNumber (target core.registers imm base) (transferred size) value.toNat
          core.memory with
      | .ok () memory => (.ok (), { core with memory })
      | .error error memory => (.error (.memory error), { core with memory })
  | moveImmediate d imm f =>
      (.ok (),
        if core.registers.readSigned f = 0 then core else core.putNumber d (immediate imm))
  | jump condition flag imm adj =>
      (.ok (),
        if condition.Meets (core.registers.readSigned flag) then
          { core with pointer := target core.registers imm adj }
        else core)
  | call condition flag imm adj =>
      if condition.Meets (core.registers.readSigned flag) then
        let top := core.registers.get Core.stackIndex - 4
        match AddressSpace.writeNumber top 4 core.pointer.toNat core.memory with
        | .ok () memory =>
            (.ok (),
              { registers := core.registers.set Core.stackIndex top
                pointer := target core.registers imm adj
                memory })
        | .error error memory => (.error (.memory error), { core with memory })
      else (.ok (), core)
  | subtractFrom x imm =>
      (.ok (), core.putNumber x (immediate imm - core.registers.readSigned x))

/-- The operands in the places where their format has them. -/
def fields : Statement → Operands
  | combine _ x u v => .regRegReg u v x
  | move x s f => .regRegReg s f x
  | multiply _ hi lo l r => .regRegRegReg l r lo hi
  | divide _ q rem l r => .regRegRegReg l r rem q
  | accumulate d acc l r => .regRegRegReg l r acc d
  | load _ data imm base => .immRegReg (.ofInt imm) base data
  | store _ data imm base => .immRegReg (.ofInt imm) base data
  | moveImmediate d imm f => .immRegReg (.ofInt imm) f d
  | jump _ flag imm adj => .immRegReg (.ofInt imm) adj flag
  | call _ flag imm adj => .immRegReg (.ofInt imm) adj flag
  | subtractFrom x imm => .immReg (.ofInt imm) x

theorem arranged (statement : Statement) :
    Operand.Arranged statement.written statement.fields := by
  cases statement <;> constructor

theorem format_fields (statement : Statement) :
    statement.fields.format = statement.opcode.format := by
  cases statement with
  | combine operation =>
      cases operation with
      | pack packing lane => cases packing <;> cases lane <;> rfl
      | _ => rfl
  | multiply signed | divide signed => cases signed <;> rfl
  | _ => rfl

theorem transferred_eq (size : Size) : transferred size = size.bytes := by
  cases size <;> rfl

theorem opcode_ne_leave (statement : Statement) : statement.opcode ≠ .leave := by
  intro same
  have format := statement.format_fields
  rw [same] at format
  cases statement <;> cases format

/-- The mnemonics are those of the operation. -/
theorem ofMnemonic?_of_mem_names (statement : Statement) :
    ∀ name ∈ statement.names, Form.ofMnemonic? name = some (.plain statement.opcode) := by
  -- Without the operands there are finitely many statements.
  cases statement with
  | combine operation =>
      simp only [names, opcode]
      cases operation with
      | pack packing lane => cases packing <;> cases lane <;> decide +kernel
      | _ => decide +kernel
  | multiply signed | divide signed =>
      simp only [names, opcode]
      cases signed <;> decide +kernel
  | load size | store size =>
      simp only [names, opcode]
      cases size <;> decide +kernel
  | jump condition | call condition =>
      simp only [names, opcode]
      cases condition <;> decide +kernel
  | move | accumulate | moveImmediate | subtractFrom =>
      simp only [names, opcode]
      decide +kernel

/-- An effect as the outcome of an execution. -/
def outcome : Except Fault Unit × Core → EStateM.Result Fault Core Unit
  | (.ok (), core) => .ok () core
  | (.error fault, core) => .error fault core

theorem signedImmediate_ofInt (imm : Int) : Core.signedImmediate (.ofInt imm) = immediate imm := by
  have residue : (UInt16.ofInt imm).toNat = (imm % 65536).toNat := by
    rw [UInt16.ofInt, UInt16.toNat_ofNat']
    omega
  have positive : ((imm % 65536).toNat : Int) = imm % 65536 :=
    Int.toNat_of_nonneg (Int.emod_nonneg imm (by decide))
  have same : Int.bmod (imm % 65536) 65536 = Int.bmod imm 65536 := by
    simpa using Int.emod_bmod imm 65536
  unfold Core.signedImmediate
  rw [residue, positive]
  exact same

theorem effectiveAddress_ofInt (core : Core) (imm : Int) (register : Register) :
    Core.effectiveAddress (.ofInt imm) register core =
      .ok (target core.registers imm register) core := by
  rw [target, ← signedImmediate_ofInt]
  rfl

/-- An action that is left out on zero. -/
theorem run_unless_zero {core after : Core} {number : Int} {action : Execution Unit}
    (done : action core = .ok () after) :
    (if number ≠ 0 then action else pure ()) core =
      .ok () (if number = 0 then core else after) := by
  by_cases zero : number = 0
  · rw [if_pos zero, if_neg (Classical.not_not.mpr zero)]
    rfl
  · rw [if_neg zero, if_pos zero]
    exact done

theorem writeQuotient_outcome (quotient remainder : Register) (dividend divisor : Int)
    (address : UInt32) (core : Core) :
    Core.writeQuotient quotient remainder dividend divisor address core =
      outcome (if divisor = 0 then (.error (.divisionByZero address), core)
        else (.ok (), (core.putNumber remainder (dividend.tmod divisor)).putNumber quotient
          (dividend.tdiv divisor))) := by
  rw [Core.writeQuotient]
  split <;> rfl

theorem loadSigned_outcome (address : UInt32) (bytes : Nat) (core : Core) :
    Core.loadSigned address bytes core =
      match core.memory.readNumber address bytes with
      | .ok value => .ok (Int.bmod value (256 ^ bytes)) core
      | .error error => .error (.memory error) core := by
  simp only [Core.loadSigned, Core.load, bind, EStateM.bind]
  cases core.memory.readNumber address bytes <;> rfl

theorem pushDword_outcome (value : UInt32) (core : Core) :
    Core.pushDword value core =
      match AddressSpace.writeNumber (core.registers.get Core.stackIndex - 4) 4 value.toNat
        core.memory with
      | .ok () memory =>
          .ok () { core with
            registers :=
              core.registers.set Core.stackIndex (core.registers.get Core.stackIndex - 4)
            memory }
      | .error error memory => .error (.memory error) { core with memory } := by
  have top : Core.getRegister Core.stackIndex core =
      .ok (core.registers.get Core.stackIndex) core := rfl
  rw [Core.pushDword, run_bind_of_ok top]
  simp only [Core.store, bind, EStateM.bind]
  cases AddressSpace.writeNumber (core.registers.get Core.stackIndex - 4) 4 value.toNat
    core.memory <;> rfl

theorem execute_combine (operation : Combination) (x u v : Register) (address : UInt32)
    (core : Core) :
    Core.execute ⟨operation.opcode, .regRegReg u v x⟩ address core =
      .ok () (core.put x (operation.value core.registers u v)) := by
  cases operation with
  | shiftLeft =>
      rw [Combination.value, ← shiftLeft_eq]
      rfl
  | shiftRight =>
      rw [Combination.value, ← shiftRight_eq]
      rfl
  | shiftSigned =>
      rw [Combination.value, ← Int.shiftRight_eq_div_pow]
      rfl
  | pack packing lane =>
      rw [Combination.value, ← Core.packed_eq_fill]
      exact Core.execute_packing packing lane u v x address core
  | _ => rfl

/-- **The instruction of a statement has the effect that is written.** -/
theorem execute_fields (statement : Statement) (address : UInt32) (core : Core) :
    Core.execute ⟨statement.opcode, statement.fields⟩ address core =
      outcome (statement.effect address core) := by
  have reads : ∀ view, Core.readSigned view core = .ok (core.registers.readSigned view) core :=
    fun _ => rfl
  cases statement with
  | combine operation x u v => exact execute_combine operation x u v address core
  | move x s f => exact (run_bind_of_ok (reads f)).trans (run_unless_zero rfl)
  | multiply signed hi lo l r =>
      simp only [effect, opcode, fields, ← Int.shiftRight_eq_div_pow]
      cases signed <;> rfl
  | divide signed q rem l r => cases signed <;> exact writeQuotient_outcome q rem _ _ address core
  | accumulate d acc l r => rfl
  | load size data imm base =>
      simp only [effect, transferred_eq, opcode, fields, Core.execute, Core.executeImmRegReg]
      rw [run_bind_of_ok (effectiveAddress_ofInt core imm base)]
      simp only [bind, EStateM.bind, loadSigned_outcome]
      cases core.memory.readNumber (target core.registers imm base) size.bytes <;> rfl
  | store size data imm base =>
      simp only [effect, transferred_eq, opcode, fields, Core.execute, Core.executeImmRegReg]
      rw [run_bind_of_ok (reads data), run_bind_of_ok (effectiveAddress_ofInt core imm base),
        Core.store]
      cases AddressSpace.writeNumber (target core.registers imm base) size.bytes
        (UInt32.ofInt (core.registers.readSigned data)).toNat core.memory <;> rfl
  | moveImmediate d imm f =>
      simp only [effect, ← signedImmediate_ofInt]
      exact (run_bind_of_ok (reads f)).trans (run_unless_zero rfl)
  | jump condition flag imm adj =>
      simp only [effect, target, ← signedImmediate_ofInt, opcode, fields, Core.execute,
        Core.executeImmRegReg]
      rw [run_bind_of_ok (reads flag)]
      simp only [condition.holds_iff]
      split <;> rfl
  | call condition flag imm adj =>
      simp only [effect, opcode, fields, Core.execute, Core.executeImmRegReg]
      rw [run_bind_of_ok (reads flag)]
      simp only [condition.holds_iff]
      split
      · have pointed : Core.getPointer core = .ok core.pointer core := rfl
        rw [run_bind_of_ok (effectiveAddress_ofInt core imm adj), run_bind_of_ok pointed]
        simp only [bind, EStateM.bind, pushDword_outcome]
        cases AddressSpace.writeNumber (core.registers.get Core.stackIndex - 4) 4
          core.pointer.toNat core.memory <;> rfl
      · rfl
  | subtractFrom x imm =>
      simp only [effect, ← signedImmediate_ofInt]
      rfl

end Statement
end Assembly

/-! ## Code in memory -/

namespace Core

/-- An instruction whose bytes stand at the pointer is fetched, and all of them are read. -/
theorem fetch_of_readBytes {core : Core} {instruction : Instruction}
    (agrees : instruction.WellFormed)
    (placed : core.memory.readBytes core.pointer instruction.canonicalBytes.length =
      .ok instruction.canonicalBytes) :
    core.fetch = .ok (.instruction instruction,
      core.pointer + .ofNat instruction.canonicalBytes.length) := by
  obtain ⟨finish, yields⟩ := yields_of_readBytes placed
  have past := finish_of_yields yields
  have length : instruction.canonicalBytes.length =
      2 * instruction.canonicalEncoding.words.length := Encoding.length_bytes _
  rw [length, ← past, fetch,
    fetch_of_denotes (Instruction.canonicalEncoding_denotes agrees) yields]

end Core

/-- A machine that comes to the bytes of an instruction executes it. -/
theorem Machine.step_of_readBytes {machine : Machine} {instruction : Instruction}
    (agrees : instruction.WellFormed)
    (placed : machine.core.memory.readBytes machine.core.pointer
      instruction.canonicalBytes.length = .ok instruction.canonicalBytes) :
    machine.step =
      Machine.perform (Core.execute instruction machine.core.pointer)
        { machine with
          core :=
            { machine.core with
              pointer := machine.core.pointer + .ofNat instruction.canonicalBytes.length } } := by
  rw [step, perform, Core.step_of_fetch (Core.fetch_of_readBytes agrees placed)]
  rfl

/-! ## From the text to the effect -/

/-- The machine after a statement of so many bytes that stands at its pointer, and the fault that
there may be. -/
def Machine.after (machine : Machine) (statement : Statement) (size : Nat) :
    Except Fault Unit × Machine :=
  let past := { machine.core with pointer := machine.core.pointer + .ofNat size }
  let (outcome, core) := statement.effect machine.core.pointer past
  (outcome, { machine with core })

theorem Machine.step_eq_after {machine : Machine} {statement : Statement} {bytes : Array UInt8}
    (encoded : bytes =
      (Instruction.canonicalBytes ⟨statement.opcode, statement.fields⟩).toArray)
    (placed : machine.core.memory.readBytes machine.core.pointer bytes.size = .ok bytes.toList) :
    machine.step = machine.after statement bytes.size := by
  subst encoded
  have agrees : Instruction.WellFormed ⟨statement.opcode, statement.fields⟩ :=
    statement.format_fields
  rw [step_of_readBytes agrees placed, perform, Statement.execute_fields, after]
  dsimp only
  generalize statement.effect machine.core.pointer _ = effect
  obtain ⟨outcome, core⟩ := effect
  cases outcome <;> rfl

/-- **A step takes the effect that is written.** A statement is spelled in any of the ways that are
accepted, it is assembled, and its bytes stand at the pointer of a machine. Then the next step of the
machine has the effect of the statement with its operands in written order. -/
theorem Machine.step_takes_written_effect (statement : Statement) {mnemonic : List Char}
    {texts : List (List Char)}
    (named : String.ofList (Text.upper mnemonic) ∈ statement.names)
    (spelled : List.Forall₂ Operand.Spelled statement.written texts) :
    ∃ bytes : Array UInt8,
      (∀ source allowance place, ∃ final, Assembler.assembleAll source allowance
        { Assembler.initial with queue := [⟨place, spelledLine mnemonic texts⟩] } =
          .ok bytes final) ∧
      ('\n' ∉ spelledLine mnemonic texts →
        assemble (String.ofList (spelledLine mnemonic texts)) = .ok bytes) ∧
      ∀ machine : Machine,
        machine.core.memory.readBytes machine.core.pointer bytes.size = .ok bytes.toList →
          machine.step = machine.after statement bytes.size := by
  have found := statement.ofMnemonic?_of_mem_names _ named
  have arranged := statement.arranged
  have agrees := statement.format_fields
  have operation := statement.opcode_ne_leave
  refine ⟨(Instruction.canonicalBytes ⟨statement.opcode, statement.fields⟩).toArray, ?_, ?_, ?_⟩
  · exact fun source allowance place =>
      Assembler.assembleAll_spelled found arranged agrees operation spelled source allowance place
  · exact Assembler.assemble_spelled found arranged agrees operation spelled
  · exact fun machine placed => step_eq_after rfl placed

/-- A division with a register of each view. -/
def division : Statement :=
  .divide true ⟨1, .word⟩ ⟨12, .lowByte⟩ ⟨3, .dword⟩ Register.stackPointer

/-- The operands of the division, with blanks around them and in either case. -/
def divisionTexts : List (List Char) :=
  ["%r1".toList, " %R12L".toList, "\t%r3d ".toList, "%sp".toList]

/-- The bytes of the division, with a register extension. -/
def divisionBytes : Array UInt8 := #[0x8D, 0xD8, 0xA6, 0x21]

/-- A difference byte by byte. -/
def difference : Statement :=
  .combine (.pack .difference .byte) ⟨4, .dword⟩ ⟨5, .dword⟩ ⟨3, .dword⟩

def differenceTexts : List (List Char) :=
  ["%R4D".toList, " %R5D".toList, " %R3D".toList]

def differenceBytes : Array UInt8 := #[0x81, 0xB6, 0x5B, 0x5C]

/-- A machine that divides -7 by 2, and then subtracts the dividend from another register. -/
def divider : Machine :=
  let memory : AddressSpace := ⟨[.ofContents 0 8 (divisionBytes ++ differenceBytes)]⟩
  { Machine.standard memory with
    core :=
      { registers := ((RegisterFile.cleared.set 3 0xFFFFFFF9).set 8 2).set 5 0x10203040
        pointer := 0
        memory } }

theorem Machine.step_takes_written_effect_divider :
    let divided := divider.step.2
    String.ofList (Text.upper "idiv".toList) ∈ division.names ∧
    List.Forall₂ Operand.Spelled division.written divisionTexts ∧
    assemble "idiv %r1, %R12L,\t%r3d ,%sp" = .ok divisionBytes ∧
    divider.core.memory.readBytes divider.core.pointer divisionBytes.size =
      .ok divisionBytes.toList ∧
    divider.step = divider.after division divisionBytes.size ∧
    (divided.core.registers.readSigned ⟨1, .word⟩,
      divided.core.registers.readSigned ⟨12, .lowByte⟩) = (-3, -1) ∧
    String.ofList (Text.upper "psub.b".toList) ∈ difference.names ∧
    List.Forall₂ Operand.Spelled difference.written differenceTexts ∧
    assemble "psub.b %R4D, %R5D, %R3D" = .ok differenceBytes ∧
    divided.core.memory.readBytes divided.core.pointer differenceBytes.size =
      .ok differenceBytes.toList ∧
    divided.step = divided.after difference differenceBytes.size ∧
    divided.step.2.core.registers.get 4 = 0x11213147 := by
  intro divided
  have takes : ∀ (statement : Statement) (mnemonic : List Char) (texts : List (List Char))
      (bytes : Array UInt8) (machine : Machine),
      String.ofList (Text.upper mnemonic) ∈ statement.names →
      List.Forall₂ Operand.Spelled statement.written texts →
      '\n' ∉ spelledLine mnemonic texts →
      assemble (String.ofList (spelledLine mnemonic texts)) = .ok bytes →
      machine.core.memory.readBytes machine.core.pointer bytes.size = .ok bytes.toList →
      machine.step = machine.after statement bytes.size := by
    intro statement mnemonic texts bytes machine named spelled single assembled placed
    obtain ⟨others, -, text, steps⟩ := step_takes_written_effect statement named spelled
    have again := text single
    rw [assembled] at again
    obtain rfl := Except.ok.inj again
    exact steps machine placed
  have dividing : String.ofList (Text.upper "idiv".toList) ∈ division.names := by
    decide +kernel
  have operands : List.Forall₂ Operand.Spelled division.written divisionTexts := by
    decide +kernel
  have quotient : assemble "idiv %r1, %R12L,\t%r3d ,%sp" = .ok divisionBytes := by
    decide +kernel
  have first : divider.core.memory.readBytes divider.core.pointer divisionBytes.size =
      .ok divisionBytes.toList := by
    decide +kernel
  have step : divider.step = divider.after division divisionBytes.size := by
    refine takes division "idiv".toList divisionTexts _ _ dividing operands (by decide +kernel) ?_ first
    rw [← quotient]
    exact congrArg assemble (by decide +kernel)
  have subtracting : String.ofList (Text.upper "psub.b".toList) ∈ difference.names := by
    decide +kernel
  have registers : List.Forall₂ Operand.Spelled difference.written differenceTexts := by
    decide +kernel
  have lanes : assemble "psub.b %R4D, %R5D, %R3D" = .ok differenceBytes := by
    decide +kernel
  have second : divided.core.memory.readBytes divided.core.pointer differenceBytes.size =
      .ok differenceBytes.toList := by
    decide +kernel
  have next : divided.step = divided.after difference differenceBytes.size := by
    refine takes difference "psub.b".toList differenceTexts _ _ subtracting registers
      (by decide +kernel) ?_ second
    rw [← lanes]
    exact congrArg assemble (by decide +kernel)
  refine ⟨dividing, operands, quotient, first, step, ?_, subtracting, registers, lanes, second, next,
    ?_⟩
  · show (divider.step.2.core.registers.readSigned _, divider.step.2.core.registers.readSigned _) = _
    rw [step]
    decide +kernel
  · rw [next]
    decide +kernel

end WordMachine
