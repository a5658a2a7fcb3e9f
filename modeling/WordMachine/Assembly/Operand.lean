import WordMachine.Assembly.Error
import WordMachine.Assembly.Literal
import WordMachine.Assembly.Macro
import WordMachine.Instruction.RegisterList
import WordMachine.Register.Name
import WordMachine.SymbolTable

/-!
# Operands

Operands are read in a scope, the macros and labels known so far. Every operand is expanded first.
A register has to have a register's name. A constant is a literal or a label; in the immediate of
an instruction a label may also be one that is not defined yet, whose address is filled in later.
A register list is read from left to right and stops at the first operand that does not belong.
-/

set_option autoImplicit false

namespace WordMachine.Assembly

/-- The macros and labels known so far. -/
structure Scope where
  macros : MacroTable
  symbols : SymbolTable

/-- The immediate of a statement: a value, or a label that is not defined yet. -/
inductive Immediate where
  | value (value : UInt16)
  | forward (label : String)
  deriving DecidableEq, Repr

/-- A number, if it lies between two others. -/
def checkRange (value least greatest : Int) : Except StatementError Int :=
  if value < least ∨ greatest < value then
    .error (.constantOutOfRange value least greatest)
  else
    .ok value

namespace Scope

def empty : Scope := ⟨.empty, .empty⟩

/-- What an operand stands for. -/
def expand (scope : Scope) (text : List Char) : Except StatementError (List Char) :=
  match scope.macros.expand? text with
  | some expanded => .ok expanded
  | none => .error (.recursiveMacro (String.ofList (Text.trim text)))

/-- The register an operand names. -/
def register (scope : Scope) (text : List Char) : Except StatementError Register := do
  let expanded ← scope.expand text
  match Register.parse? expanded with
  | some register => return register
  | none => throw (.illegalRegister (String.ofList expanded))

/-- The number an operand stands for, which has to be known by now. -/
def constant (scope : Scope) (text : List Char) (least greatest : Int) :
    Except StatementError Int := do
  let expanded ← scope.expand text
  match integer? expanded with
  | some value => checkRange value least greatest
  | none =>
      if !isIdentifier expanded then
        throw (.illegalConstant (String.ofList expanded))
      else
        match scope.symbols.address? (String.ofList expanded) with
        | some address => checkRange address.toNat least greatest
        | none => throw (.unresolvedSymbol (String.ofList expanded))

/-- The least and the greatest number that can be written as an immediate. -/
def leastImmediate : Int := -0x8000

def greatestImmediate : Int := 0xFFFF

/-- The immediate an operand stands for. -/
def immediate (scope : Scope) (text : List Char) : Except StatementError Immediate := do
  let expanded ← scope.expand text
  match integer? expanded with
  | some value => return .value (UInt16.ofInt (← checkRange value leastImmediate greatestImmediate))
  | none =>
      if !isIdentifier expanded then
        throw (.illegalConstant (String.ofList expanded))
      else
        match scope.symbols.address? (String.ofList expanded) with
        | some address =>
            return .value (UInt16.ofInt (← checkRange address.toNat 0 greatestImmediate))
        | none => return .forward (String.ofList expanded)

/-- One register of a list, which has to have the width that the mnemonic asks for. -/
def listed (scope : Scope) (mnemonic : String) (width : Width) (text : List Char) :
    Except StatementError (Fin 16) := do
  let register ← scope.register text
  if register.index = 0 then
    throw .zeroRegisterInList
  else if register.width ≠ width then
    throw (.registerWidth mnemonic (String.ofList text) width)
  else
    return register.index

/-- The registers of a list. -/
def listedAll (scope : Scope) (mnemonic : String) (width : Width) :
    List (List Char) → Except StatementError (List (Fin 16))
  | [] => return []
  | text :: rest => do
      let index ← scope.listed mnemonic width text
      return index :: (← scope.listedAll mnemonic width rest)

/-- The mask of a register list, which has to name at least one register. -/
def registerMask (scope : Scope) (mnemonic : String) (width : Width)
    (operands : List (List Char)) : Except StatementError UInt16 := do
  if operands = [] then
    throw (.emptyRegisterList mnemonic)
  else
    return (← scope.listedAll mnemonic width operands).foldl
      (fun mask index => mask ||| RegisterList.bit index) 0

end Scope
end WordMachine.Assembly
