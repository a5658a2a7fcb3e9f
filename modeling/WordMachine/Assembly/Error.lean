import WordMachine.Assembly.Line
import WordMachine.Code
import WordMachine.Source

/-!
# Errors of an assembly

What can be wrong with a statement, and the wording of it. An error of an assembly also has the
place of the statement.
-/

set_option autoImplicit false

namespace WordMachine.Assembly

/-- What is wrong with a statement. -/
inductive StatementError where
  | unknownMnemonic (mnemonic : String)
  | unknownDirective (directive : String)
  | operandCount (mnemonic : String) (expected found : Nat)
  | illegalRegister (text : String)
  | registerWidth (mnemonic register : String) (expected : Width)
  | zeroRegisterInList
  | emptyRegisterList (mnemonic : String)
  | illegalLabel (label : String)
  | labelRedefinition (label : String)
  | macroRedefinition (name : String)
  | recursiveMacro (text : String)
  | illegalConstant (text : String)
  | constantOutOfRange (value least greatest : Int)
  | unresolvedSymbol (label : String)
  | paddingBehindCursor (target size : Nat)
  | zeroAlignment
  | sourceUnavailable (path : Path) (error : LoadError)
  | encode (error : EncodeError)
  deriving DecidableEq, Repr

/-- A text between the quotation marks of messages. -/
def quoted (text : String) : String :=
  "`" ++ text ++ "`"

def StatementError.message : StatementError → String
  | unknownMnemonic mnemonic => "unknown mnemonic " ++ quoted mnemonic
  | unknownDirective directive => "unknown directive " ++ quoted directive
  | operandCount mnemonic expected found =>
      mnemonic ++ " expects " ++ toString expected ++ " operand(s) but was given " ++ toString found
  | illegalRegister text => "illegal register " ++ quoted text
  | registerWidth mnemonic register expected =>
      mnemonic ++ " needs " ++ expected.name ++ " registers but was given " ++ quoted register
  | zeroRegisterInList => "%R0 cannot be transferred"
  | emptyRegisterList mnemonic => mnemonic ++ " needs at least one register"
  | illegalLabel label => "illegal label name " ++ quoted label
  | labelRedefinition label => "label " ++ quoted label ++ " is already defined"
  | macroRedefinition name => "macro " ++ quoted name ++ " is already defined"
  | recursiveMacro text => "macro " ++ quoted text ++ " expands into itself"
  | illegalConstant text => "illegal constant " ++ quoted text
  | constantOutOfRange value least greatest =>
      toString value ++ " is outside " ++ toString least ++ "..=" ++ toString greatest
  | unresolvedSymbol label => "unresolved symbol " ++ quoted label
  | paddingBehindCursor target size =>
      ".ZERO " ++ toString target ++ " is behind the current size " ++ toString size
  | zeroAlignment => ".ALIGN requires a positive alignment"
  | sourceUnavailable path error => "cannot load " ++ quoted path.text ++ ": " ++ error.message
  | encode error => error.message

/-- An error and the place of the statement it was found in. -/
structure AssemblyError where
  place : SourceLine
  error : StatementError
  deriving DecidableEq, Repr

def AssemblyError.message (failure : AssemblyError) : String :=
  failure.place.render ++ ": " ++ failure.error.message

end WordMachine.Assembly
