import WordMachine.Condition
import WordMachine.Format
import WordMachine.Register

/-!
# Operation codes

Every instruction word belongs to one of two classes, told apart by its highest bit. A word of
class zero has six bits of operation code and nine of payload, a word of class one has three and
twelve. Class and code together are the *number* of an operation code: numbers below 64 are class
zero, the next eight are class one, number 62 is unassigned.

The operand format, the price in quanta and the mnemonic are properties of the operation code.
`ofNumber?` is the exact inverse of `number` (`ofNumber?_number`, `number_of_ofNumber?`), and only
prefix words and the reserved operation are free of charge (`quanta_pos`).
-/

set_option autoImplicit false

namespace WordMachine

/-- The two classes of instruction words. -/
inductive WordClass where
  | zero
  | one
  deriving DecidableEq, Repr

namespace WordClass

/-- The name of a class in messages. -/
def name : WordClass → String
  | zero => "Op0"
  | one => "Op1"

/-- One more than the largest payload of the class. -/
def payloadSize : WordClass → Nat
  | zero => 512
  | one => 4096

/-- The number of operation codes the class has room for. -/
def codeCount : WordClass → Nat
  | zero => 64
  | one => 8

/-- The number of the class's first operation code. -/
def firstNumber : WordClass → Nat
  | zero => 0
  | one => 64

/-- The word of the class whose operation code and payload are zero. -/
def firstWord : WordClass → Nat
  | zero => 0
  | one => 32768

end WordClass

/-- The size of a memory operand. -/
inductive Size where
  | dword
  | word
  | byte
  deriving DecidableEq, Repr

namespace Size

/-- The number of bytes of an operand. -/
def bytes : Size → Nat
  | dword => 4
  | word => 2
  | byte => 1

def letter : Size → String
  | dword => "D"
  | word => "W"
  | byte => "B"

/-- The position of a size in the load and store family. -/
def code : Size → Nat
  | dword => 0
  | word => 1
  | byte => 2

end Size

/-- The operations of the machine. -/
inductive Opcode where
  | movI | addR | subR | andR | orR | xorR | andnR | ornR
  | addI | subI | rsubI
  | jabs (condition : Condition)
  | jrel (condition : Condition)
  | push | pop | ret | enter | leave
  | ld (size : Size)
  | st (size : Size)
  | shlR | shrR | sarR | shlI | shrI | sarI
  | cmovI | cmovR
  | paddW | paddB | psubW | psubB
  | call (condition : Condition)
  | movLo | movHi
  | ldm (width : Width)
  | stm (width : Width)
  | reserved
  | rex | imul | idiv | mul | div | imac | iex | iexHigh
  deriving DecidableEq, Repr

namespace Opcode

/-- The views of the multiple transfers in the order of their operation codes. -/
def transferOrder : Width → Nat
  | .dword => 0
  | .word => 1
  | .lowByte => 2
  | .highByte => 3

/-- The operation codes of class zero, from number 0 on without a gap. -/
def classZero : Array Opcode :=
  #[movI, addR, subR, andR, orR, xorR, andnR, ornR, addI, subI, rsubI,
    jabs .zero, jabs .notZero, jabs .greaterOrEqual, jabs .greater, jabs .lessOrEqual, jabs .less,
    jrel .zero, jrel .notZero, jrel .greaterOrEqual, jrel .greater, jrel .lessOrEqual, jrel .less,
    push, pop, ret, enter, leave,
    ld .dword, st .dword, ld .word, st .word, ld .byte, st .byte,
    shlR, shrR, sarR, shlI, shrI, sarI, cmovI, cmovR, paddW, paddB, psubW, psubB,
    call .zero, call .notZero, call .greaterOrEqual, call .greater, call .lessOrEqual, call .less,
    movLo, movHi,
    ldm .dword, stm .dword, ldm .word, stm .word, ldm .lowByte, stm .lowByte,
    ldm .highByte, stm .highByte]

/-- The operation codes of class one, from number 64 on. -/
def classOne : Array Opcode :=
  #[rex, imul, idiv, mul, div, imac, iex, iexHigh]

/-- Every operation code, by number. -/
def all : List Opcode :=
  classZero.toList ++ [reserved] ++ classOne.toList

/-- The class and code of an operation as one number. -/
def number : Opcode → Nat
  | movI => 0
  | addR => 1
  | subR => 2
  | andR => 3
  | orR => 4
  | xorR => 5
  | andnR => 6
  | ornR => 7
  | addI => 8
  | subI => 9
  | rsubI => 10
  | jabs condition => 11 + condition.code
  | jrel condition => 17 + condition.code
  | push => 23
  | pop => 24
  | ret => 25
  | enter => 26
  | leave => 27
  | ld size => 28 + 2 * size.code
  | st size => 29 + 2 * size.code
  | shlR => 34
  | shrR => 35
  | sarR => 36
  | shlI => 37
  | shrI => 38
  | sarI => 39
  | cmovI => 40
  | cmovR => 41
  | paddW => 42
  | paddB => 43
  | psubW => 44
  | psubB => 45
  | call condition => 46 + condition.code
  | movLo => 52
  | movHi => 53
  | ldm width => 54 + 2 * transferOrder width
  | stm width => 55 + 2 * transferOrder width
  | reserved => 63
  | rex => 64
  | imul => 65
  | idiv => 66
  | mul => 67
  | div => 68
  | imac => 69
  | iex => 70
  | iexHigh => 71

/-- The operation code with a number, if one is assigned. -/
def ofNumber? (number : Nat) : Option Opcode :=
  if number = 63 then some reserved
  else if number < 64 then classZero[number]?
  else classOne[number - 64]?

/-- The class of the words that hold an operation code. -/
def wordClass (opcode : Opcode) : WordClass :=
  if opcode.number < 64 then .zero else .one

/-- The operation code field of an instruction word. -/
def code (opcode : Opcode) : Nat :=
  opcode.number - opcode.wordClass.firstNumber

/-- The operation code of a class with the given field, of which only the class's bits count. -/
def ofCode? (wordClass : WordClass) (code : Nat) : Option Opcode :=
  ofNumber? (wordClass.firstNumber + code % wordClass.codeCount)

/-- The instruction word with an empty payload. -/
def baseWord (opcode : Opcode) : UInt16 :=
  UInt16.ofNat (opcode.wordClass.firstWord + opcode.code * opcode.wordClass.payloadSize)

/-- The canonical mnemonic. -/
def mnemonic : Opcode → String
  | movI => "MOV.I"
  | addR => "ADD.R"
  | subR => "SUB.R"
  | andR => "AND.R"
  | orR => "OR.R"
  | xorR => "XOR.R"
  | andnR => "ANDN.R"
  | ornR => "ORN.R"
  | addI => "ADD.I"
  | subI => "SUB.I"
  | rsubI => "RSUB.I"
  | jabs condition => "JABS." ++ condition.suffix
  | jrel condition => "JREL." ++ condition.suffix
  | push => "PUSH"
  | pop => "POP"
  | ret => "RET"
  | enter => "ENTER"
  | leave => "LEAVE"
  | ld size => "LD." ++ size.letter
  | st size => "ST." ++ size.letter
  | shlR => "SHL.R"
  | shrR => "SHR.R"
  | sarR => "SAR.R"
  | shlI => "SHL.I"
  | shrI => "SHR.I"
  | sarI => "SAR.I"
  | cmovI => "CMOV.I"
  | cmovR => "CMOV.R"
  | paddW => "PADD.W"
  | paddB => "PADD.B"
  | psubW => "PSUB.W"
  | psubB => "PSUB.B"
  | call condition => "CALL." ++ condition.suffix
  | movLo => "MOV.LO"
  | movHi => "MOV.HI"
  | ldm width => "LDM." ++ String.singleton width.letter
  | stm width => "STM." ++ String.singleton width.letter
  | reserved => "RESERVED"
  | rex => "REX"
  | imul => "IMUL"
  | idiv => "IDIV"
  | mul => "MUL"
  | div => "DIV"
  | imac => "IMAC"
  | iex => "IEX"
  | iexHigh => "IEX1"

/-- The second spelling of an operation that has one: an arithmetic left shift is a left shift. -/
def alias? : Opcode → Option String
  | shlR => some "SAL.R"
  | shlI => some "SAL.I"
  | _ => none

/-- The operation code with a mnemonic, in capitals. -/
def ofMnemonic? (mnemonic : String) : Option Opcode :=
  all.find? fun opcode => opcode.mnemonic == mnemonic || opcode.alias? == some mnemonic

/-- Whether the words of an operation only extend the instruction that follows. -/
def isExtension : Opcode → Bool
  | rex | iex | iexHigh => true
  | _ => false

/-- Whether an operation transfers a list of registers by way of a base register. -/
def isTransferMultiple : Opcode → Bool
  | ldm _ | stm _ => true
  | _ => false

/-- How the payload of an operation's words is laid out. -/
def format : Opcode → Format
  | push | pop | ret | enter | leave => .imm
  | movI | addI | subI | rsubI | shlI | shrI | sarI | movLo | movHi
  | jrel _ | ldm _ | stm _ => .immReg
  | jabs _ | call _ | ld _ | st _ | cmovI => .immRegReg
  | addR | subR | andR | orR | xorR | andnR | ornR | shlR | shrR | sarR | cmovR
  | paddW | paddB | psubW | psubB => .regRegReg
  | imul | idiv | mul | div | imac => .regRegRegReg
  | rex | iex | iexHigh => .prefixWord
  | reserved => .reserved

/-- The price of one execution. -/
def quanta : Opcode → Nat
  | ld _ | st _ => 4
  | jabs _ | jrel _ | call _ | push | pop | ldm _ | stm _ => 6
  | ret | enter | leave => 5
  | imul | mul | imac => 2
  | idiv | div => 3
  | rex | iex | iexHigh | reserved => 0
  | _ => 1

/-- The highest price of any operation. -/
def maximalQuanta : Nat := 6

/-- The condition of a jump or call. -/
def condition? : Opcode → Option Condition
  | jabs condition | jrel condition | call condition => some condition
  | _ => none

/-! ## Numbers name operation codes -/

theorem ofNumber?_number (opcode : Opcode) : ofNumber? opcode.number = some opcode := by
  cases opcode with
  | jabs condition => cases condition <;> rfl
  | jrel condition => cases condition <;> rfl
  | call condition => cases condition <;> rfl
  | ld size => cases size <;> rfl
  | st size => cases size <;> rfl
  | ldm width => cases width <;> rfl
  | stm width => cases width <;> rfl
  | _ => rfl

theorem number_lt (opcode : Opcode) : opcode.number < 72 := by
  cases opcode with
  | jabs condition => cases condition <;> decide
  | jrel condition => cases condition <;> decide
  | call condition => cases condition <;> decide
  | ld size => cases size <;> decide
  | st size => cases size <;> decide
  | ldm width => cases width <;> decide
  | stm width => cases width <;> decide
  | _ => decide

theorem number_of_ofNumber? {number : Nat} {opcode : Opcode}
    (found : ofNumber? number = some opcode) : opcode.number = number := by
  have table : ∀ n : Fin 72, (ofNumber? n.val).all fun op => op.number == n.val := by
    decide +kernel
  by_cases bound : number < 72
  · have entry := table ⟨number, bound⟩
    rw [found] at entry
    simpa using entry
  · have absent : classOne[number - 64]? = none :=
      Array.getElem?_eq_none (by simp [classOne]; omega)
    rw [ofNumber?, if_neg (by omega), if_neg (by omega), absent] at found
    cases found

/-! ## Prices -/

/-- **Every operation but prefix words and the reserved one has a price.** -/
theorem quanta_pos {opcode : Opcode} (plain : opcode.isExtension = false)
    (defined : opcode ≠ reserved) : 0 < opcode.quanta := by
  cases opcode <;> simp_all [quanta, isExtension]

theorem quanta_le (opcode : Opcode) : opcode.quanta ≤ maximalQuanta := by
  cases opcode <;> simp [quanta, maximalQuanta]

end Opcode
end WordMachine
