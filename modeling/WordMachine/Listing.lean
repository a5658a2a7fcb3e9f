import WordMachine.Code
import WordMachine.Instruction.Text
import WordMachine.SymbolTable

/-!
# Listings

A listing shows code one instruction a line, prefixes folded in, with the offset of the first
word. What is no instruction is shown as the word that made it illegal, followed by `??`, and the
listing goes on after that word. If the bytes end inside an instruction, the last line shows the
last whole word, or the single byte that is left.

The lines are read off the bytes by recursion on what is left of them (`Listing.lines`). A line
covers at least one byte, and what it covers and what it leaves are all there is
(`Listing.size_add_length_rest`), so every byte is shown in exactly one line.
-/

set_option autoImplicit false

namespace WordMachine

open WordMachine.Text

namespace Listing

/-- One line: the offset of its first byte, and the text. -/
structure Line where
  offset : Nat
  text : String
  deriving DecidableEq, Repr

/-- A line with its offset in front. -/
def Line.render (line : Line) : String :=
  "+" ++ hexPadded 4 line.offset ++ "  " ++ line.text

/-- The text of something that is no instruction. -/
def unknownText (shown : String) : String :=
  Instruction.line shown "??"

/-- The text of an illegal word. -/
def illegalText (word : UInt16) : String :=
  unknownText ("0x" ++ hexPadded 4 word.toNat)

/-- The text of a byte that is no word. -/
def byteText (byte : UInt8) : String :=
  unknownText ("0x" ++ hexPadded 2 byte.toNat)

/-- The text of code that ends within an instruction, from its last whole word or the bytes left
over. -/
def truncatedText (last : Option UInt16) (rest : List UInt8) : String :=
  match last, rest with
  | some word, _ => illegalText word
  | none, byte :: _ => byteText byte
  | none, [] => ""

/-- What the front of some bytes shows: the text, the number of bytes it covers, and the bytes after
them. -/
structure Scan where
  text : String
  size : Nat
  rest : List UInt8

/-- The same text for more bytes. -/
def Scan.widen (scan : Scan) (more : Nat) : Scan :=
  { scan with size := more + scan.size }

/-- Shows the instruction at the front of the bytes, of which some prefixes have been read. -/
def scan (pending : Pending) (last : Option UInt16) : List UInt8 → Scan
  | high :: low :: rest =>
      let word := UInt16.ofNat (BigEndian.value [high, low])
      match Decoded.ofWord word with
      | .instruction raw => ⟨(pending.apply raw).text, 2, rest⟩
      | .illegal bad => ⟨illegalText bad, 2, rest⟩
      | .extension found =>
          match pending.accept found with
          | some extended => (scan extended (some word) rest).widen 2
          | none => ⟨illegalText found.word, 2, rest⟩
  | rest => ⟨truncatedText last rest, rest.length, []⟩

/-- **No byte is lost.** What is covered and what is left make up all bytes. -/
theorem size_add_length_rest (pending : Pending) (last : Option UInt16) (bytes : List UInt8) :
    (scan pending last bytes).size + (scan pending last bytes).rest.length = bytes.length := by
  fun_induction scan pending last bytes <;> simp_all [Scan.widen] <;> omega

theorem size_pos (pending : Pending) (last : Option UInt16) (byte : UInt8) (bytes : List UInt8) :
    0 < (scan pending last (byte :: bytes)).size := by
  cases bytes with
  | nil => exact Nat.zero_lt_one
  | cons low rest =>
      rw [scan]
      split
      · exact Nat.zero_lt_two
      · exact Nat.zero_lt_two
      · split
        · exact Nat.lt_of_lt_of_le Nat.zero_lt_two (Nat.le_add_right 2 _)
        · exact Nat.zero_lt_two

/-- The lines of code that starts at an offset. -/
def linesFrom (offset : Nat) : List UInt8 → List Line
  | [] => []
  | byte :: rest =>
      let front := scan .neutral none (byte :: rest)
      ⟨offset, front.text⟩ :: linesFrom (offset + front.size) front.rest
termination_by bytes => bytes.length
decreasing_by
  have := size_add_length_rest .neutral none (byte :: rest)
  have := size_pos .neutral none byte rest
  omega

/-- The lines of a byte string. -/
def lines (bytes : List UInt8) : List Line :=
  linesFrom 0 bytes

/-- The lines that name the labels at an address. -/
def labelLines (symbols : Option SymbolTable) (address : UInt32) : List String :=
  match symbols with
  | some table => (table.labelsAt address).map fun label => label ++ ":"
  | none => []

/-- The whole listing. The first byte stands at the address `origin`, and the labels at the
address of an instruction come before its line. -/
def render (bytes : List UInt8) (origin : UInt32) (symbols : Option SymbolTable) : String :=
  String.join <| (lines bytes).flatMap fun line =>
    (labelLines symbols (origin + UInt32.ofNat line.offset) ++ [line.render]).map fun text =>
      text ++ "\n"

end Listing
end WordMachine
