import WordMachine.Numerals

/-!
# Registers and their views

A register operand names one of sixteen 32-bit registers together with the part of it that the
instruction reads and writes: its low word, one of the two bytes of that word, or all of it.

An instruction word has three bits for each operand, enough for the low word of the first eight
registers. The fourth index bit and the view stand in a three-bit extension field of their own.
Taking an operand apart and putting it together again loses nothing (`ofParts_lowBits_extension`),
and no other pair of fields gives the same operand (`lowBits_ofParts`, `extension_ofParts`).
-/

set_option autoImplicit false

namespace WordMachine

/-- The part of a 32-bit register an operand refers to. -/
inductive Width where
  | word
  | lowByte
  | highByte
  | dword
  deriving DecidableEq, Repr

namespace Width

/-- The views in the order of their codes. -/
def all : List Width :=
  [word, lowByte, highByte, dword]

/-- The two-bit code of a view. -/
def code : Width → Fin 4
  | word => 0
  | lowByte => 1
  | highByte => 2
  | dword => 3

def ofCode : Fin 4 → Width
  | 0 => word
  | 1 => lowByte
  | 2 => highByte
  | 3 => dword

/-- The letter that ends the name of a register seen this way. -/
def letter : Width → Char
  | word => 'W'
  | lowByte => 'L'
  | highByte => 'H'
  | dword => 'D'

/-- The name of a view in messages. -/
def name : Width → String
  | word => "Word"
  | lowByte => "LowByte"
  | highByte => "HighByte"
  | dword => "Dword"

/-- The number of bits of a view. -/
def bits : Width → Nat
  | word => 16
  | lowByte => 8
  | highByte => 8
  | dword => 32

/-- The position of a view's lowest bit in its register. -/
def offset : Width → Nat
  | highByte => 8
  | _ => 0

theorem ofCode_code (width : Width) : ofCode width.code = width := by
  cases width <;> rfl

theorem code_ofCode (code : Fin 4) : (ofCode code).code = code := by
  revert code
  decide

end Width

/-- A register index with the view taken of that register. -/
structure Register where
  index : Fin 16
  width : Width
  deriving DecidableEq, Repr

namespace Register

/-- The register of an index, of which only the low four bits count. -/
def ofIndex (index : Nat) (width : Width) : Register :=
  ⟨Fin.ofNat 16 index, width⟩

/-- The stack pointer. -/
def stackPointer : Register := ⟨8, .dword⟩

/-- The base pointer of the current frame. -/
def basePointer : Register := ⟨9, .dword⟩

/-- The part of the index that stands in the instruction word. -/
def lowBits (register : Register) : Fin 8 :=
  Fin.ofNat 8 register.index.val

/-- The field with the view and the high bit of the index. -/
def extension (register : Register) : Fin 8 :=
  Fin.ofNat 8 (register.width.code.val * 2 + register.index.val / 8)

/-- The operand with the given low index bits and extension field. -/
def ofParts (lowBits extension : Fin 8) : Register where
  index := Fin.ofNat 16 (lowBits.val + extension.val % 2 * 8)
  width := Width.ofCode (Fin.ofNat 4 (extension.val / 2))

/-- Whether the instruction word alone cannot name the operand. -/
def needsExtension (register : Register) : Bool :=
  register.extension != 0

theorem ofParts_lowBits_extension (register : Register) :
    ofParts register.lowBits register.extension = register := by
  rcases register with ⟨index, width⟩
  revert index
  cases width <;> decide

theorem lowBits_ofParts (lowBits extension : Fin 8) :
    (ofParts lowBits extension).lowBits = lowBits := by
  revert lowBits extension
  decide

theorem extension_ofParts (lowBits extension : Fin 8) :
    (ofParts lowBits extension).extension = extension := by
  revert lowBits extension
  decide

end Register
end WordMachine
