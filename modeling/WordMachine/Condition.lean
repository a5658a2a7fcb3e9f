/-!
# Branch conditions

The jump and call families each come in six forms, one for every way of comparing a signed flag
with zero. The order below is the order of their operation codes.
-/

set_option autoImplicit false

namespace WordMachine

/-- A comparison of a signed flag with zero. -/
inductive Condition where
  | zero
  | notZero
  | greaterOrEqual
  | greater
  | lessOrEqual
  | less
  deriving DecidableEq, Repr

namespace Condition

/-- The conditions in the order of their operation codes. -/
def all : List Condition :=
  [zero, notZero, greaterOrEqual, greater, lessOrEqual, less]

/-- The position of a condition within a family of operation codes. -/
def code : Condition → Nat
  | zero => 0
  | notZero => 1
  | greaterOrEqual => 2
  | greater => 3
  | lessOrEqual => 4
  | less => 5

/-- The ending of a mnemonic that asks for this condition. -/
def suffix : Condition → String
  | zero => "Z"
  | notZero => "NZ"
  | greaterOrEqual => "GE"
  | greater => "GT"
  | lessOrEqual => "LE"
  | less => "LT"

/-- Whether a flag meets the condition. -/
def holds : Condition → Int → Bool
  | zero, flag => flag == 0
  | notZero, flag => flag != 0
  | greaterOrEqual, flag => decide (0 ≤ flag)
  | greater, flag => decide (0 < flag)
  | lessOrEqual, flag => decide (flag ≤ 0)
  | less, flag => decide (flag < 0)

end Condition
end WordMachine
