import WordMachine.Numerals

/-!
# Literals and identifiers

A number is written in decimal, or after `0x`, `0b`, `0c` or `0d` in hexadecimal, binary, octal or
decimal, with at least one digit. Case does not matter and a minus sign may come first. Numbers
that do not fit 64 bits with a sign are no literals.

An identifier is a letter or underscore followed by letters, digits and underscores, all from
ASCII. No text is both.
-/

set_option autoImplicit false

namespace WordMachine.Assembly

/-- Whether a character can start an identifier. -/
def startsIdentifier (c : Char) : Bool :=
  c.isAlpha || c == '_'

/-- Whether a character can stand within an identifier. -/
def continuesIdentifier (c : Char) : Bool :=
  c.isAlphanum || c == '_'

def isIdentifier : List Char → Bool
  | [] => false
  | first :: rest => startsIdentifier first && rest.all continuesIdentifier

/-- The value of a digit, the letters counting on from ten. -/
def digitValue (c : Char) : Nat :=
  if c.isDigit then c.toNat - '0'.toNat else c.toLower.toNat - 'a'.toNat + 10

/-- Whether a character is a digit in a radix. -/
def isDigitOf (radix : Nat) (c : Char) : Bool :=
  c.isAlphanum && decide (digitValue c < radix)

/-- The number that digits stand for. -/
def digitsValue (radix : Nat) (digits : List Char) : Nat :=
  digits.foldl (fun value digit => value * radix + digitValue digit) 0

/-- The radix that a letter after a zero announces. -/
def radixOf? (letter : Char) : Option Nat :=
  match letter.toLower with
  | 'x' => some 16
  | 'b' => some 2
  | 'c' => some 8
  | 'd' => some 10
  | _ => none

/-- The radix of a number without sign, and what has to be its digits. -/
def splitRadix : List Char → Nat × List Char
  | '0' :: letter :: rest =>
      match radixOf? letter with
      | some radix => (radix, rest)
      | none => (10, '0' :: letter :: rest)
  | digits => (10, digits)

/-- The value of a number without sign. -/
def magnitude? (text : List Char) : Option Nat :=
  let (radix, digits) := splitRadix text
  let value := digitsValue radix digits
  if digits ≠ [] ∧ digits.all (isDigitOf radix) ∧ value < 2 ^ 63 then some value else none

/-- The value of a literal. -/
def integer? : List Char → Option Int
  | '-' :: rest => (magnitude? rest).map fun value => -(value : Int)
  | text => (magnitude? text).map fun value => (value : Int)

end WordMachine.Assembly
