import WordMachine.Numerals

/-!
# Operand formats

An instruction word spends its payload bits in one of five ways, named for the fields it holds
from the most significant end: an immediate, an immediate and registers, or registers alone.
Register fields are three bits wide and stand at the low end. What is left of the payload is the
immediate field, so its width and position follow from the number of registers
(`immediateBits`, `immediateShift`).

Only the low bits of a 16-bit immediate fit the word. The high bits travel in a prefix word of
their own.
-/

set_option autoImplicit false

namespace WordMachine

/-- How the payload bits of an instruction word are laid out. -/
inductive Format where
  | imm
  | immReg
  | immRegReg
  | regRegReg
  | regRegRegReg
  | prefixWord
  | reserved
  deriving DecidableEq, Repr

namespace Format

/-- The formats in the order of their payloads. -/
def all : List Format :=
  [imm, immReg, immRegReg, regRegReg, regRegRegReg, prefixWord, reserved]

/-- The name of a format in messages. -/
def name : Format → String
  | imm => "Imm"
  | immReg => "ImmReg"
  | immRegReg => "ImmRegReg"
  | regRegReg => "RegRegReg"
  | regRegRegReg => "RegRegRegReg"
  | prefixWord => "Prefix"
  | reserved => "Reserved"

/-- The number of immediate bits that fit the instruction word. -/
def immediateBits : Format → Nat
  | imm => 9
  | immReg => 6
  | immRegReg => 3
  | _ => 0

/-- The position of the immediate's lowest bit in the instruction word. -/
def immediateShift : Format → Nat
  | immReg => 3
  | immRegReg => 6
  | _ => 0

/-- The bits of the instruction word that hold the immediate. -/
def immediateMask (format : Format) : UInt16 :=
  UInt16.ofNat ((2 ^ format.immediateBits - 1) * 2 ^ format.immediateShift)

def hasImmediate (format : Format) : Bool :=
  decide (0 < format.immediateBits)

/-- The number of register operands. -/
def registerCount : Format → Nat
  | immReg => 1
  | immRegReg => 2
  | regRegReg => 3
  | regRegRegReg => 4
  | _ => 0

/-- The low bits of `value`, placed where the format keeps its immediate. -/
def placeImmediate (format : Format) (value : UInt16) : UInt16 :=
  UInt16.ofNat (value.toNat % 2 ^ format.immediateBits * 2 ^ format.immediateShift)

/-- The immediate field of an instruction word. -/
def readImmediate (format : Format) (word : UInt16) : UInt16 :=
  UInt16.ofNat (word.toNat / 2 ^ format.immediateShift % 2 ^ format.immediateBits)

/-- The instruction word with its immediate field replaced by the low bits of `value`. -/
def replaceImmediate (format : Format) (word value : UInt16) : UInt16 :=
  word - format.placeImmediate (format.readImmediate word) + format.placeImmediate value

/-- The bits of an immediate that do not fit the instruction word. -/
def overflow (format : Format) (value : UInt16) : UInt16 :=
  UInt16.ofNat (value.toNat / 2 ^ format.immediateBits)

/-- An immediate put together from the bits beyond the instruction word and the bits within. -/
def joinImmediate (format : Format) (high low : UInt16) : UInt16 :=
  UInt16.ofNat (high.toNat * 2 ^ format.immediateBits ||| low.toNat)

end Format
end WordMachine
