/-!
# Numbers and columns

Texts of fixed shape: hexadecimal numbers, bare or filled up with zeros to a given number of
digits, and fields filled up with blanks to a given width. A field that is already wider stays as
it is.
-/

set_option autoImplicit false

namespace WordMachine.Text

/-- A number in hexadecimal, small letters, without leading zeros. -/
def hex (n : Nat) : String :=
  String.ofList (Nat.toDigits 16 n)

/-- A number in hexadecimal with at least `digits` digits. -/
def hexPadded (digits n : Nat) : String :=
  String.ofList (List.leftpad digits '0' (Nat.toDigits 16 n))

/-- A text filled up with blanks on its right. -/
def padRight (width : Nat) (text : String) : String :=
  text ++ String.ofList (List.replicate (width - text.length) ' ')

/-- A text filled up with blanks on its left. -/
def padLeft (width : Nat) (text : String) : String :=
  String.ofList (List.replicate (width - text.length) ' ') ++ text

end WordMachine.Text
