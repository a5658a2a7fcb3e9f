import WordMachine.Fetch

/-!
# Code buffers

An instruction is encoded as one to three words: the immediate extension if the immediate
overflows its field, the register extension if some operand needs it, and the instruction word.
An operation with the wrong operands, a prefix or the reserved operation has no encoding.

A code buffer is the sequence of bytes emitted so far. Instructions and raw bytes are appended;
`Layout` remembers at which offsets the words of an instruction went, so that its immediate can
be patched in place later. Patching needs the immediate extension to be there already, and changes
that word and the immediate field of the instruction word only. The two words are written one after
the other; that there is room for the second is known before the first is written.
-/

set_option autoImplicit false

namespace WordMachine

/-- Why an instruction cannot be encoded or patched. -/
inductive EncodeError where
  | illegalOpcode (opcode : Opcode)
  | formatMismatch (opcode : Opcode) (expected found : Format)
  | missingExtension (offset : Nat)
  deriving DecidableEq, Repr

def EncodeError.message : EncodeError → String
  | illegalOpcode opcode => opcode.mnemonic ++ " cannot be encoded as an instruction"
  | formatMismatch opcode expected found =>
      opcode.mnemonic ++ " uses the " ++ expected.name ++ " format but was given " ++ found.name ++
        " operands"
  | missingExtension offset =>
      "instruction at offset " ++ toString offset ++ " has no extension word to patch"

/-- The words of one instruction. -/
structure Encoding where
  immediate : Option UInt16
  registers : Option UInt16
  word : UInt16
  deriving DecidableEq, Repr

/-- The words in the order in which they are emitted. -/
def Encoding.words (encoding : Encoding) : List UInt16 :=
  encoding.immediate.toList ++ encoding.registers.toList ++ [encoding.word]

/-- The bytes of a word. -/
def wordBytes (word : UInt16) : List UInt8 :=
  BigEndian.encode 2 word.toNat

def Encoding.bytes (encoding : Encoding) : List UInt8 :=
  encoding.words.flatMap wordBytes

namespace Operands

/-- The extension field of a slot, zero where there is no operand. -/
def extensionField (operands : Operands) (slot : Slot) : Fin 8 :=
  match operands.registers.lookup slot with
  | some register => register.extension
  | none => 0

/-- The extension fields of the register operands. -/
def extension (operands : Operands) : RegisterExtension :=
  ⟨operands.extensionField .d, operands.extensionField .c, operands.extensionField .b,
    operands.extensionField .a⟩

/-- The low bits of the register operands, each at its place in the payload. -/
def registerPayload (operands : Operands) : Nat :=
  operands.registers.foldr (fun entry others => entry.2.lowBits.val * entry.1.weight + others) 0

/-- The payload bits of the register operands. -/
def registerBits (operands : Operands) : UInt16 :=
  UInt16.ofNat operands.registerPayload

/-- The payload bits of the immediate. -/
def immediateBits (operands : Operands) : UInt16 :=
  match operands.immediate? with
  | some value => operands.format.placeImmediate value
  | none => 0

/-- The word that extends the immediate, if it overflows its field. -/
def immediateWord? (operands : Operands) : Option UInt16 :=
  match operands.immediate? with
  | some value =>
      let high := operands.format.overflow value
      if high = 0 then none else some (Prefix.immediate high).word
  | none => none

/-- The word that extends the registers, if some register needs it. -/
def registerWord? (operands : Operands) : Option UInt16 :=
  if operands.registers.any fun entry => entry.2.needsExtension then
    some (Prefix.registers operands.extension).word
  else
    none

end Operands

/-- The encoding of an instruction. -/
def Instruction.encoding (instruction : Instruction) : Except EncodeError Encoding :=
  let expected := instruction.opcode.format
  let found := instruction.operands.format
  if expected = .prefixWord ∨ expected = .reserved then
    .error (.illegalOpcode instruction.opcode)
  else if expected ≠ found then
    .error (.formatMismatch instruction.opcode expected found)
  else
    .ok
      { immediate := instruction.operands.immediateWord?
        registers := instruction.operands.registerWord?
        word :=
          instruction.opcode.baseWord + instruction.operands.immediateBits +
            instruction.operands.registerBits }

/-- The bytes of a single instruction. -/
def Instruction.bytes (instruction : Instruction) : Except EncodeError (List UInt8) :=
  instruction.encoding.map Encoding.bytes

/-- The offsets of the words emitted for one instruction. -/
structure Layout where
  immediate : Option Nat
  registers : Option Nat
  word : Nat
  deriving DecidableEq, Repr

namespace Layout

/-- The offset of the first word. -/
def start (layout : Layout) : Nat :=
  match layout.immediate, layout.registers with
  | some offset, _ => offset
  | none, some offset => offset
  | none, none => layout.word

/-- The offset past the last word. -/
def finish (layout : Layout) : Nat :=
  layout.word + 2

/-- The layout of an encoding emitted from an offset on. -/
def ofEncoding (offset : Nat) (encoding : Encoding) : Layout :=
  let afterImmediate := if encoding.immediate.isSome then offset + 2 else offset
  let afterRegisters := if encoding.registers.isSome then afterImmediate + 2 else afterImmediate
  { immediate := encoding.immediate.map fun _ => offset
    registers := encoding.registers.map fun _ => afterImmediate
    word := afterRegisters }

end Layout

/-- The bytes emitted so far. -/
structure Code where
  bytes : Array UInt8
  deriving DecidableEq

namespace Code

def empty : Code := ⟨#[]⟩

def size (code : Code) : Nat :=
  code.bytes.size

def isEmpty (code : Code) : Bool :=
  code.bytes.isEmpty

/-- The code with bytes appended. -/
def append (code : Code) (bytes : List UInt8) : Code :=
  ⟨code.bytes ++ bytes⟩

def emitByte (code : Code) (byte : UInt8) : Code :=
  ⟨code.bytes.push byte⟩

/-- The code with a byte appended a number of times. -/
def emitFill (code : Code) (byte : UInt8) (times : Nat) : Code :=
  ⟨code.bytes ++ Array.replicate times byte⟩

/-- The word at an offset, if both its bytes are there. -/
def wordAt? (code : Code) (offset : Nat) : Option UInt16 :=
  ByteReader.wordAt? code.bytes offset

/-- The code with the word at an offset replaced, if both its bytes are there. -/
def patchWord? (code : Code) (offset : Nat) (word : UInt16) : Option Code :=
  if inside : offset + 1 < code.bytes.size then
    let high := UInt8.ofNat (word.toNat / 256)
    let low := UInt8.ofNat word.toNat
    some ⟨(code.bytes.set offset high).set (offset + 1) low (by simpa using inside)⟩
  else
    none

/-- The code with an instruction appended, and where its words went. -/
def encode (code : Code) (instruction : Instruction) : Except EncodeError (Layout × Code) :=
  instruction.encoding.map fun encoding =>
    (Layout.ofEncoding code.size encoding, code.append encoding.bytes)

/-- Replaces the word at an offset in place and says whether both its bytes were there. -/
def replaceWord (offset : Nat) (word : UInt16) : EStateM EncodeError Code Bool := fun code =>
  match code.patchWord? offset word with
  | some patched => .ok true patched
  | none => .ok false code

/-- Replaces the immediate of an emitted instruction in place, the extension before the field. -/
def rewriteImmediate (layout : Layout) (format : Format) (value : UInt16) :
    EStateM EncodeError Code Unit := do
  match layout.immediate, (← get).wordAt? layout.word with
  | some extension, some word =>
      unless ← replaceWord extension (Prefix.immediate (format.overflow value)).word do
        throw (.missingExtension layout.word)
      unless ← replaceWord layout.word (format.replaceImmediate word value) do
        throw (.missingExtension layout.word)
  | _, _ => throw (.missingExtension layout.word)

/-- The code with the immediate of an emitted instruction replaced. -/
def patchImmediate (code : Code) (layout : Layout) (format : Format) (value : UInt16) :
    Except EncodeError Code :=
  match rewriteImmediate layout format value code with
  | .ok () patched => .ok patched
  | .error failure _ => .error failure

end Code
end WordMachine
