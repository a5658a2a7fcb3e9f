import WordMachine.Instruction.RegisterList
import WordMachine.Machine.Core

/-!
# What instructions do

The effect of every instruction on the core. The instruction pointer is already past the
instruction when it runs, so it is the return address of a call and the base of a relative jump.

Arithmetic is exact: operands are read as integers, signed or unsigned, the result is an integer,
and only writing it to the destination's view drops the bits that do not fit. Shift counts are
taken modulo 32. Packed operations work on lanes that do not carry into each other.

Register lists are transferred one register after the other. When a transfer faults, the registers
loaded before it keep their new values, the bytes stored before it stay stored, and the pointer
that walked through memory is not written back.
-/

set_option autoImplicit false

namespace WordMachine
namespace Core

/-! ## Operands -/

/-- An immediate as a number in two's complement. -/
def signedImmediate (value : UInt16) : Int :=
  Int.bmod value.toNat 65536

/-- An immediate as a dword with its sign extended. -/
def extendedImmediate (value : UInt16) : UInt32 :=
  UInt32.ofInt (signedImmediate value)

/-- The address an immediate and a register add up to. -/
def effectiveAddress (value : UInt16) (register : Register) : Execution UInt32 :=
  return UInt32.ofInt (signedImmediate value + (← readSigned register))

/-- Ends the execution of an instruction whose operands do not fit its operation. -/
def mismatch {α : Type} (opcode : Opcode) (address : UInt32) : Execution α :=
  throw (.formatMismatch opcode address)

/-! ## Register lists -/

/-- Stores registers one below the other and returns the address of the last. -/
def storeDown (size : Nat) (value : Fin 16 → Execution UInt32) :
    List (Fin 16) → UInt32 → Execution UInt32
  | [], address => return address
  | index :: rest, address => do
      let below := address - UInt32.ofNat size
      store below size (← value index).toNat
      storeDown size value rest below

/-- Loads registers one above the other and returns the address past the last. -/
def loadUp (size : Nat) (assign : Fin 16 → UInt32 → Execution Unit) :
    List (Fin 16) → UInt32 → Execution UInt32
  | [], address => return address
  | index :: rest, address => do
      assign index (UInt32.ofNat (← load address size))
      loadUp size assign rest (address + UInt32.ofNat size)

/-- The size of the values a stack transfer moves: dwords if the flag is set, else words. -/
def stackSize (mask : UInt16) : Nat :=
  if RegisterList.flag mask then 4 else 2

/-- Moves the stack pointer, unless it was transferred itself. -/
def moveStack (mask : UInt16) (address : UInt32) : Execution Unit :=
  if RegisterList.lists mask stackIndex then pure () else setRegister stackIndex address

/-- Pushes the listed registers, the highest first. -/
def pushList (mask : UInt16) : Execution Unit := do
  let top ← getRegister stackIndex
  moveStack mask (← storeDown (stackSize mask) getRegister (RegisterList.indices mask).reverse top)

/-- The part of a register that a stack transfer loads. -/
def stackView (mask : UInt16) (index : Fin 16) : Register :=
  ⟨index, if RegisterList.flag mask then .dword else .word⟩

/-- Pops the listed registers, the lowest first. -/
def popList (mask : UInt16) : Execution Unit := do
  let top ← getRegister stackIndex
  let assign := fun index => write (stackView mask index)
  moveStack mask (← loadUp (stackSize mask) assign (RegisterList.indices mask) top)

/-- The number of bytes of a view in memory. -/
def viewBytes (width : Width) : Nat :=
  width.bits / 8

/-- Writes the address a multiple transfer ended at back to its base, if its flag asks for it and
the base was not transferred itself. -/
def writeBack (mask : UInt16) (base : Register) (address : UInt32) : Execution Unit :=
  if RegisterList.flag mask && !RegisterList.lists mask base.index then
    write base address
  else
    pure ()

/-- Loads the listed registers through one view from the base address up, the lowest first. -/
def loadMultiple (width : Width) (mask : UInt16) (base : Register) : Execution Unit := do
  let start ← readUnsigned base
  let assign := fun index => write ⟨index, width⟩
  writeBack mask base (← loadUp (viewBytes width) assign (RegisterList.indices mask) start)

/-- Stores the listed registers through one view from the base address down, the highest first. -/
def storeMultiple (width : Width) (mask : UInt16) (base : Register) : Execution Unit := do
  let start ← readUnsigned base
  let value := fun index => readUnsigned ⟨index, width⟩
  writeBack mask base
    (← storeDown (viewBytes width) value (RegisterList.indices mask).reverse start)

/-! ## Moves of half a view -/

/-- Which half of a view. -/
inductive Half where
  | low
  | high

/-- The position of the half's lowest bit in the view. -/
def Half.shift : Half → Width → Nat
  | .low, _ => 0
  | .high, width => width.bits / 2

/-- Replaces one half of a view and keeps the other. The bits of the register outside the view
become zero. -/
def moveHalf (half : Half) (value : UInt16) (register : Register) : Execution Unit := do
  let field := UInt32.ofNat (2 ^ (register.width.bits / 2) - 1)
  let shift := UInt32.ofNat (half.shift register.width)
  let kept := (← readUnsigned register) &&& ~~~(field <<< shift)
  let moved := (UInt32.ofNat value.toNat &&& field) <<< shift
  setRegister register.index ((kept ||| moved) <<< UInt32.ofNat register.width.offset)

/-! ## Packed arithmetic -/

/-- Combines two words lane by lane. Each lane's result is cut off at the lane's width. -/
def packed (laneBits : Nat) (combine : UInt32 → UInt32 → UInt32) (left right : UInt32) : UInt32 :=
  let mask := UInt32.ofNat (2 ^ laneBits - 1)
  (List.range (32 / laneBits)).foldl
    (fun result lane =>
      let shift := UInt32.ofNat (lane * laneBits)
      result ||| (combine (left >>> shift &&& mask) (right >>> shift &&& mask) &&& mask) <<< shift)
    0

/-! ## The instructions, by the shape of their operands -/

/-- Instructions with an immediate alone: stack transfers and frames. -/
def executeImm (opcode : Opcode) (value : UInt16) (address : UInt32) : Execution Unit :=
  match opcode with
  | .push => pushList value
  | .pop => popList value
  | .ret => do
      setPointer (← popDword)
      setRegister stackIndex ((← getRegister stackIndex) + extendedImmediate value)
  | .enter => do
      pushDword (← getRegister baseIndex)
      let frame ← getRegister stackIndex
      setRegister baseIndex frame
      setRegister stackIndex (frame - extendedImmediate value)
  | .leave => do
      setRegister stackIndex (← getRegister baseIndex)
      setRegister baseIndex (← popDword)
  | _ => mismatch opcode address

/-- Instructions with an immediate and a register. -/
def executeImmReg (opcode : Opcode) (value : UInt16) (ra : Register) (address : UInt32) :
    Execution Unit :=
  match opcode with
  | .movI => write ra (extendedImmediate value)
  | .addI => do writeNumber ra ((← readSigned ra) + signedImmediate value)
  | .subI => do writeNumber ra ((← readSigned ra) - signedImmediate value)
  | .rsubI => do writeNumber ra (signedImmediate value - (← readSigned ra))
  | .shlI => do write ra ((← readUnsigned ra) <<< UInt32.ofNat value.toNat)
  | .shrI => do write ra ((← readUnsigned ra) >>> UInt32.ofNat value.toNat)
  | .sarI => do writeNumber ra ((← readSigned ra) >>> (value.toNat % 32))
  | .movLo => moveHalf .low value ra
  | .movHi => moveHalf .high value ra
  | .jrel condition => do
      if condition.holds (← readSigned ra) then
        setPointer ((← getPointer) + extendedImmediate value)
  | .ldm width => loadMultiple width value ra
  | .stm width => storeMultiple width value ra
  | _ => mismatch opcode address

/-- Instructions with an immediate and two registers: absolute jumps, calls, single transfers and
the conditional move of an immediate. -/
def executeImmRegReg (opcode : Opcode) (value : UInt16) (rb ra : Register) (address : UInt32) :
    Execution Unit :=
  match opcode with
  | .jabs condition => do
      if condition.holds (← readSigned ra) then
        setPointer (← effectiveAddress value rb)
  | .call condition => do
      if condition.holds (← readSigned ra) then
        let target ← effectiveAddress value rb
        pushDword (← getPointer)
        setPointer target
  | .ld size => do writeNumber ra (← loadSigned (← effectiveAddress value rb) size.bytes)
  | .st size => do
      let stored := UInt32.ofInt (← readSigned ra)
      store (← effectiveAddress value rb) size.bytes stored.toNat
  | .cmovI => do
      if (← readSigned rb) ≠ 0 then
        write ra (extendedImmediate value)
  | _ => mismatch opcode address

/-- Instructions with three registers. -/
def executeRegRegReg (opcode : Opcode) (rc rb ra : Register) (address : UInt32) :
    Execution Unit :=
  match opcode with
  | .addR => do writeNumber ra ((← readSigned rc) + (← readSigned rb))
  | .subR => do writeNumber ra ((← readSigned rc) - (← readSigned rb))
  | .andR => do write ra ((← readUnsigned rc) &&& (← readUnsigned rb))
  | .orR => do write ra ((← readUnsigned rc) ||| (← readUnsigned rb))
  | .xorR => do write ra ((← readUnsigned rc) ^^^ (← readUnsigned rb))
  | .andnR => do write ra ((← readUnsigned rc) &&& ~~~(← readUnsigned rb))
  | .ornR => do write ra ((← readUnsigned rc) ||| ~~~(← readUnsigned rb))
  | .shlR => do write ra ((← readUnsigned rc) <<< (← readUnsigned rb))
  | .shrR => do write ra ((← readUnsigned rc) >>> (← readUnsigned rb))
  | .sarR => do writeNumber ra ((← readSigned rc) >>> ((← readUnsigned rb).toNat % 32))
  | .cmovR => do
      if (← readSigned rb) ≠ 0 then
        writeNumber ra (← readSigned rc)
  | .paddW => do write ra (packed 16 (· + ·) (← readUnsigned rc) (← readUnsigned rb))
  | .paddB => do write ra (packed 8 (· + ·) (← readUnsigned rc) (← readUnsigned rb))
  | .psubW => do write ra (packed 16 (· - ·) (← readUnsigned rc) (← readUnsigned rb))
  | .psubB => do write ra (packed 8 (· - ·) (← readUnsigned rc) (← readUnsigned rb))
  | _ => mismatch opcode address

/-- Writes a product to two registers: the low part first, then what is left of the product after
dropping as many bits as the high part's register has. -/
def writeProduct (high low : Register) (product : Int) : Execution Unit := do
  writeNumber low product
  writeNumber high (product >>> high.width.bits)

/-- Writes the remainder and then the quotient of a division, both rounded toward zero. -/
def writeQuotient (quotient remainder : Register) (dividend divisor : Int) (address : UInt32) :
    Execution Unit := do
  if divisor = 0 then
    throw (.divisionByZero address)
  writeNumber remainder (dividend.tmod divisor)
  writeNumber quotient (dividend.tdiv divisor)

/-- Instructions with four registers: multiplication and division. -/
def executeRegRegRegReg (opcode : Opcode) (rd rc rb ra : Register) (address : UInt32) :
    Execution Unit :=
  match opcode with
  | .imul => do writeProduct ra rb ((← readSigned rd) * (← readSigned rc))
  | .mul => do writeProduct ra rb ((← readUnsigned rd).toNat * (← readUnsigned rc).toNat)
  | .idiv => do writeQuotient ra rb (← readSigned rd) (← readSigned rc) address
  | .div => do writeQuotient ra rb (← readUnsigned rd).toNat (← readUnsigned rc).toNat address
  | .imac => do writeNumber ra ((← readSigned rd) * (← readSigned rc) + (← readSigned rb))
  | _ => mismatch opcode address

/-- The effect of an instruction that stands at an address. -/
def execute (instruction : Instruction) (address : UInt32) : Execution Unit :=
  match instruction.operands with
  | .imm value => executeImm instruction.opcode value address
  | .immReg value ra => executeImmReg instruction.opcode value ra address
  | .immRegReg value rb ra => executeImmRegReg instruction.opcode value rb ra address
  | .regRegReg rc rb ra => executeRegRegReg instruction.opcode rc rb ra address
  | .regRegRegReg rd rc rb ra => executeRegRegRegReg instruction.opcode rd rc rb ra address

end Core
end WordMachine
