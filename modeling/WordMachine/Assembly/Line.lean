import WordMachine.Text.Blank

/-!
# Lines of assembly text

A text is read line by line. A line that ends in a backslash continues on the next line, unless
that one is blank; lines joined this way form one *logical line*, which is known by the number of
its first line. Blank lines produce nothing.

Within a logical line a semicolon starts a comment, unless a backslash stands before it. What
precedes the first colon is a label. The rest is a statement: a mnemonic up to the first blank,
and operands parted by commas.
-/

set_option autoImplicit false

namespace WordMachine.Assembly

open WordMachine.Text

/-- A line of a source text. -/
structure SourceLine where
  file : String
  number : Nat
  deriving DecidableEq, Repr

def SourceLine.render (place : SourceLine) : String :=
  place.file ++ ":" ++ toString place.number

/-- A line after continuations have been joined, with the place where it starts. -/
structure LogicalLine where
  place : SourceLine
  text : List Char
  deriving DecidableEq, Repr

/-! ## Logical lines -/

/-- A line without the carriage return it ends with. -/
def dropReturn (line : List Char) : List Char :=
  if line.getLast? = some '\r' then line.dropLast else line

/-- The lines of a text. Every line but the last is ended by a newline or by a carriage return and
a newline, and the last line may be. -/
def physicalLines (text : List Char) : List (List Char) :=
  let pieces := text.splitOn '\n'
  let last := pieces.getLast?.getD []
  pieces.dropLast.map dropReturn ++ if last = [] then [] else [last]

/-- A line without its final backslash, if it has one. -/
def continued? (line : List Char) : Option (List Char) :=
  if line.getLast? = some '\\' then some line.dropLast else none

/-- Joins lines from a number on. A line that asked for a continuation is pending. -/
def joinLines (file : String) (pending : Option LogicalLine) (number : Nat) :
    List (List Char) → List LogicalLine
  | [] => pending.toList
  | raw :: rest =>
      let line := trimEnd raw
      if line = [] then
        pending.toList ++ joinLines file none (number + 1) rest
      else
        let begun := pending.getD ⟨⟨file, number⟩, []⟩
        match continued? line with
        | some body =>
            joinLines file (some { begun with text := begun.text ++ body }) (number + 1) rest
        | none => { begun with text := begun.text ++ line } :: joinLines file none (number + 1) rest

/-- The logical lines of a text. -/
def logicalLines (file : String) (text : String) : List LogicalLine :=
  joinLines file none 1 (physicalLines text.toList)

/-! ## Parts of a line -/

/-- A line without its comment. A backslash before a semicolon makes it an ordinary character. -/
def stripComment : List Char → List Char
  | '\\' :: ';' :: rest => ';' :: stripComment rest
  | ';' :: _ => []
  | c :: rest => c :: stripComment rest
  | [] => []

/-- The label of a line, and the statement after it. -/
def splitLabel (line : List Char) : Option (List Char) × List Char :=
  match line.span (· != ':') with
  | (label, _ :: statement) => (some (trim label), statement)
  | (statement, []) => (none, statement)

/-- The mnemonic of a statement and its operands. -/
def splitStatement (statement : List Char) : List Char × List (List Char) :=
  match (trim statement).span (!isBlank ·) with
  | (mnemonic, []) => (mnemonic, [])
  | (mnemonic, operands) => (mnemonic, (operands.splitOn ',').map trim)

end WordMachine.Assembly
