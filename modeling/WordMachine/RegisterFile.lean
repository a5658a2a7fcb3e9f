import WordMachine.Register

/-!
# The register file

Fifteen 32-bit registers and a sixteenth, of index zero, that always reads zero and ignores what
is written to it. A register operand reads and writes part of a register, its *view*: reading
extends the view with zeros or with its sign, writing replaces the view and keeps the bits around
it.
-/

set_option autoImplicit false

namespace WordMachine

/-- The lowest bits of a word, as many as a view has. -/
def Width.mask (width : Width) : UInt32 :=
  UInt32.ofNat (2 ^ width.bits - 1)

/-- The contents of the registers of index one to fifteen. -/
structure RegisterFile where
  slots : Vector UInt32 15
  deriving DecidableEq

namespace RegisterFile

/-- Every register holds zero. -/
def cleared : RegisterFile :=
  ⟨Vector.replicate 15 0⟩

/-- The contents of a register. -/
def get (file : RegisterFile) (index : Fin 16) : UInt32 :=
  if index = 0 then 0 else (file.slots[index.val - 1]?).getD 0

/-- The file with another value in a register. -/
def set (file : RegisterFile) (index : Fin 16) (value : UInt32) : RegisterFile :=
  if index = 0 then file else ⟨file.slots.setIfInBounds (index.val - 1) value⟩

/-- The view of a register, extended with zeros. -/
def readUnsigned (file : RegisterFile) (register : Register) : UInt32 :=
  file.get register.index >>> UInt32.ofNat register.width.offset &&& register.width.mask

/-- The view of a register as a number in two's complement. -/
def readSigned (file : RegisterFile) (register : Register) : Int :=
  Int.bmod (file.readUnsigned register).toNat (2 ^ register.width.bits)

/-- The file with the view of a register replaced by the low bits of a value. -/
def write (file : RegisterFile) (register : Register) (value : UInt32) : RegisterFile :=
  let offset := UInt32.ofNat register.width.offset
  let kept := file.get register.index &&& ~~~(register.width.mask <<< offset)
  file.set register.index (kept ||| (value &&& register.width.mask) <<< offset)

/-- The contents of all sixteen registers. -/
def contents (file : RegisterFile) : List UInt32 :=
  (List.finRange 16).map file.get

end RegisterFile
end WordMachine
