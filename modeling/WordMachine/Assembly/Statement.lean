import WordMachine.Assembly.Operand

/-!
# Instruction statements

A mnemonic is one of three *forms*. Stack transfers, `PUSH.W` and the like, take a list of
registers. Multiple transfers, `LDM.W` and the like, take a list and a base register; a final `S`
asks for the write-back of the base. Every other operation is written with its own mnemonic and
takes one operand for each field of its format, the destination first. Prefix words and the
reserved operation cannot be written.

Reading a statement changes nothing. It gives an `Emission`: the instruction, and the label that
its immediate waits for. Until the label's address is known the immediate is the *placeholder*, in
which every bit is set, so that the words emitted for it have room for any address.
-/

set_option autoImplicit false

namespace WordMachine.Assembly

/-- What a mnemonic asks for. -/
inductive Form where
  | stack (opcode : Opcode) (width : Width)
  | transfer (opcode : Opcode) (width : Width) (writeBack : Bool)
  | plain (opcode : Opcode)
  deriving DecidableEq, Repr

namespace Form

/-- The mnemonics of the stack transfers. -/
def stackForms : List (String × Form) :=
  [Opcode.push, Opcode.pop].flatMap fun opcode =>
    [Width.word, Width.dword].map fun width =>
      (opcode.mnemonic ++ "." ++ String.singleton width.letter, stack opcode width)

/-- The mnemonics of the multiple transfers. -/
def transferForms : List (String × Form) :=
  Width.all.flatMap fun width =>
    [Opcode.ldm width, Opcode.stm width].flatMap fun opcode =>
      [(opcode.mnemonic, transfer opcode width false),
        (opcode.mnemonic ++ "S", transfer opcode width true)]

/-- Whether an operation is written with its own mnemonic. -/
def isPlain (opcode : Opcode) : Bool :=
  !(opcode.isExtension || opcode.isTransferMultiple || opcode == .reserved || opcode == .push ||
    opcode == .pop)

/-- What a mnemonic in capitals asks for. -/
def ofMnemonic? (mnemonic : String) : Option Form :=
  match (stackForms ++ transferForms).lookup mnemonic with
  | some form => some form
  | none => ((Opcode.ofMnemonic? mnemonic).filter isPlain).map plain

end Form

/-- The immediate that stands for an address not known yet. -/
def placeholder : UInt16 := 0xFFFF

/-- An instruction to be emitted, and the label whose address its immediate waits for. -/
structure Emission where
  instruction : Instruction
  forward : Option String
  deriving DecidableEq, Repr

namespace Emission

/-- An instruction that waits for nothing. -/
def ofOperands (opcode : Opcode) (operands : Operands) : Emission :=
  ⟨⟨opcode, operands⟩, none⟩

/-- An instruction with an immediate that may wait for a label. -/
def ofImmediate (opcode : Opcode) (operands : UInt16 → Operands) : Immediate → Emission
  | .value value => ⟨⟨opcode, operands value⟩, none⟩
  | .forward label => ⟨⟨opcode, operands placeholder⟩, some label⟩

/-- Whether an operation shifts by its immediate. -/
def shiftsByImmediate : Opcode → Bool
  | .shlI | .shrI | .sarI => true
  | _ => false

/-- The warning about a shift that leaves no bit of the register in place. -/
def warning? (emission : Emission) : Option String :=
  let opcode := emission.instruction.opcode
  match emission.forward, emission.instruction.immediate? with
  | none, some value =>
      if shiftsByImmediate opcode && decide (31 < value.toNat) then
        some (opcode.mnemonic ++ " by " ++ toString value.toNat ++ " exceeds the register width")
      else
        none
  | _, _ => none

end Emission

/-- Refuses a statement with another number of operands than expected. -/
def expectOperands (mnemonic : String) (operands : List (List Char)) (expected : Nat) :
    Except StatementError Unit :=
  if operands.length = expected then
    .ok ()
  else
    .error (.operandCount mnemonic expected operands.length)

namespace Scope

/-- A stack transfer. -/
def stackStatement (scope : Scope) (mnemonic : String) (opcode : Opcode) (width : Width)
    (operands : List (List Char)) : Except StatementError Emission := do
  let mask ← scope.registerMask mnemonic width operands
  let flag := if width = .dword then 1 else 0
  return .ofOperands opcode (.imm (mask ||| flag))

/-- A multiple transfer. The last operand is the base. -/
def transferStatement (scope : Scope) (mnemonic : String) (opcode : Opcode) (width : Width)
    (writeBack : Bool) (operands : List (List Char)) : Except StatementError Emission := do
  if operands.length < 2 then
    throw (.operandCount mnemonic 2 operands.length)
  let mask ← scope.registerMask mnemonic width operands.dropLast
  let flag := if writeBack then 1 else 0
  let base ← scope.register (operands.getLastD [])
  return .ofOperands opcode (.immReg (mask ||| flag) base)

/-- The number of operands an operation is written with. The end of a frame is written without its
immediate. -/
def writtenOperands (opcode : Opcode) : Nat :=
  if opcode = .leave then 0
  else opcode.format.registerCount + if opcode.format.hasImmediate then 1 else 0

/-- An operation written with its own mnemonic. -/
def plainStatement (scope : Scope) (mnemonic : String) (opcode : Opcode)
    (operands : List (List Char)) : Except StatementError Emission := do
  expectOperands mnemonic operands (writtenOperands opcode)
  match opcode.format, operands with
  | .imm, [] => return .ofOperands opcode (.imm 0)
  | .imm, [value] => return .ofImmediate opcode .imm (← scope.immediate value)
  | .immReg, [first, value] =>
      let ra ← scope.register first
      return .ofImmediate opcode (.immReg · ra) (← scope.immediate value)
  | .immRegReg, [first, value, second] =>
      let ra ← scope.register first
      let immediate ← scope.immediate value
      let rb ← scope.register second
      return .ofImmediate opcode (.immRegReg · rb ra) immediate
  | .regRegReg, [first, second, third] =>
      let ra ← scope.register first
      let rc ← scope.register second
      let rb ← scope.register third
      return .ofOperands opcode (.regRegReg rc rb ra)
  | .regRegRegReg, [first, second, third, fourth] =>
      let ra ← scope.register first
      let rb ← scope.register second
      let rd ← scope.register third
      let rc ← scope.register fourth
      return .ofOperands opcode (.regRegRegReg rd rc rb ra)
  | _, _ => throw (.unknownMnemonic mnemonic)

/-- The emission of an instruction statement with a mnemonic in capitals. A return may leave out
its immediate, which is then zero. -/
def statement (scope : Scope) (mnemonic : String) (operands : List (List Char)) :
    Except StatementError Emission :=
  match Form.ofMnemonic? mnemonic, operands with
  | some (.plain .ret), [] => .ok (.ofOperands .ret (.imm 0))
  | some (.stack opcode width), operands =>
      scope.stackStatement mnemonic opcode width operands
  | some (.transfer opcode width writeBack), operands =>
      scope.transferStatement mnemonic opcode width writeBack operands
  | some (.plain opcode), operands => scope.plainStatement mnemonic opcode operands
  | none, _ => .error (.unknownMnemonic mnemonic)

end Scope
end WordMachine.Assembly
