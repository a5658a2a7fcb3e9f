import WordMachine.Opcode

/-!
# Start-up configuration

What a machine starts with: the grant of each tick, and the first values of the instruction
pointer and the stack pointer. A grant that could not pay for the most expensive instruction is
refused, since a tick might then run nothing at all.
-/

set_option autoImplicit false

namespace WordMachine

/-- The parameters of a machine. -/
structure Configuration where
  grant : Nat
  initialPointer : UInt32
  initialStack : UInt32
  deriving DecidableEq, Repr

inductive ConfigurationError where
  | grantTooSmall (grant minimum : Nat)
  deriving DecidableEq, Repr

def ConfigurationError.message : ConfigurationError → String
  | grantTooSmall grant minimum =>
      "a quanta refill of " ++ toString grant ++
        " cannot pay for the most expensive instruction (" ++ toString minimum ++ ")"

namespace Configuration

/-- The smallest grant that pays for every instruction, and both pointers at zero. -/
def standard : Configuration := ⟨Opcode.maximalQuanta, 0, 0⟩

def validate (configuration : Configuration) : Except ConfigurationError Unit :=
  if configuration.grant < Opcode.maximalQuanta then
    .error (.grantTooSmall configuration.grant Opcode.maximalQuanta)
  else
    .ok ()

end Configuration
end WordMachine
