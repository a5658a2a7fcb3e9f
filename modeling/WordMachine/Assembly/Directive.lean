import WordMachine.Assembly.State

/-!
# Directives

A statement whose mnemonic starts with a dot tells the assembly what to do. `.SET` and `.UNSET`
define and drop macros, `.ORG` moves the origin, `.ZERO` and `.ALIGN` fill up with zeros, `.EMIT`
emits bytes, `.INCLUDE` and `.IMPORT` splice in other texts. Constants have to be known when the
directive is read, since directives are not patched.

`.EMIT` emits its operands one by one: those before a wrong one stay emitted.
-/

set_option autoImplicit false

namespace WordMachine

open Assembly

/-- What a directive does. -/
inductive Assembly.Directive where
  | define
  | drop
  | origin
  | fill
  | align
  | data
  | splice (once : Bool)
  deriving DecidableEq, Repr

namespace Assembly.Directive

/-- The directive with a name in capitals. -/
def ofName? : String → Option Directive
  | ".SET" => some define
  | ".UNSET" => some drop
  | ".ORG" => some origin
  | ".ZERO" => some fill
  | ".ALIGN" => some align
  | ".EMIT" => some data
  | ".INCLUDE" => some (splice false)
  | ".IMPORT" => some (splice true)
  | _ => none

/-- The greatest size and alignment. -/
def greatestSize : Int := 0x7FFFFFFF

/-- The greatest address. -/
def greatestAddress : Int := 0xFFFFFFFF

/-- The least number that is a byte. -/
def leastByte : Int := -0x80

/-- The greatest number that is a byte. -/
def greatestByte : Int := 0xFF

end Assembly.Directive

namespace Assembler

open Assembly.Directive

/-- The number an operand stands for in the scope of the state. -/
def constant (text : List Char) (least greatest : Int) : Reading Int := do
  ofExcept ((← get).scope.constant text least greatest)

/-- Defines a macro. -/
def defineMacro (name text : List Char) : Reading Unit := do
  let assembler ← get
  if !isIdentifier name then
    throw (.illegalLabel (String.ofList name))
  else if assembler.scope.macros.contains name then
    throw (.macroRedefinition (String.ofList name))
  else
    let macros := assembler.scope.macros.define name text
    set { assembler with scope := { assembler.scope with macros } }

/-- Drops a macro, if there is one of the name. -/
def dropMacro (name : List Char) : Reading Unit :=
  modify fun assembler =>
    let macros := assembler.scope.macros.erase name
    { assembler with scope := { assembler.scope with macros } }

/-- Emits zeros. -/
def emitZeros (count : Nat) : Reading Unit :=
  modify fun assembler => { assembler with code := assembler.code.emitFill 0 count }

/-- Fills up to a size. -/
def fillTo (target : Nat) : Reading Unit := do
  let size := (← get).code.size
  if target < size then
    throw (.paddingBehindCursor target size)
  else
    emitZeros (target - size)

/-- Fills up to the next multiple of an alignment. -/
def alignTo (alignment : Nat) : Reading Unit := do
  if alignment = 0 then
    throw .zeroAlignment
  else
    emitZeros ((alignment - (← get).code.size % alignment) % alignment)

/-- Emits the bytes that operands stand for, one by one. -/
def emitData : List (List Char) → Reading Unit
  | [] => pure ()
  | operand :: rest => do
      let byte ← constant operand leastByte greatestByte
      modify fun assembler =>
        { assembler with code := assembler.code.emitByte (UInt8.ofInt byte) }
      emitData rest

/-- A text without the quotation marks around it. -/
def unquote (text : List Char) : List Char :=
  ((text.dropWhile (· == '"')).reverse.dropWhile (· == '"')).reverse

/-- Carries out a directive with its operands. -/
def direct (source : Source) (name : String) (operands : List (List Char)) : Reading Unit := do
  match Directive.ofName? name, operands with
  | some .define, [label, text] => defineMacro label text
  | some .define, _ => throw (.operandCount name 2 operands.length)
  | some .data, [] => throw (.operandCount name 1 0)
  | some .data, _ => emitData operands
  | some .drop, [label] => dropMacro label
  | some .origin, [address] => do
      let origin ← constant address 0 greatestAddress
      modify fun assembler => { assembler with origin := UInt32.ofInt origin }
  | some .fill, [target] => do fillTo (← constant target 0 greatestSize).toNat
  | some .align, [alignment] => do alignTo (← constant alignment 0 greatestSize).toNat
  | some (.splice once), [file] => do
      let expanded ← ofExcept ((← get).scope.expand file)
      splice source (String.ofList (unquote expanded)) once
  | some _, _ => throw (.operandCount name 1 operands.length)
  | none, _ => throw (.unknownDirective name)

end Assembler
end WordMachine
