import WordMachine.Machine.Run
import WordMachine.Text.Table

/-!
# The dump of a machine

The state of a machine as text: a table of the registers next to a table with the instruction
pointer, the balance of the quanta bank, and what the next step would execute or the fault it
would meet.
-/

set_option autoImplicit false

namespace WordMachine.Machine

open WordMachine.Text

/-- The name of a register in a dump. -/
def dumpName (index : Fin 16) : String :=
  let name := "%R" ++ toString index.val
  if index = Core.stackIndex then name ++ " (SP) ="
  else if index = Core.baseIndex then name ++ " (BP) ="
  else name ++ " ="

/-- The registers, each in a row. -/
def registerTable (machine : Machine) : Table where
  titles := [.right "Register", .left "Contents"]
  rows :=
    (List.finRange 16).map fun index =>
      [.right (dumpName index), .left (addressText (machine.core.registers.get index))]

/-- What the next step meets. -/
def nextText (machine : Machine) : String :=
  match machine.core.fetch with
  | .ok (.instruction found, _) => found.text
  | .ok (.illegal word, _) => "0x" ++ hexPadded 4 word.toNat ++ " ??"
  | .error error => error.message

/-- The rest of the state. -/
def stateTable (machine : Machine) : Table where
  titles := [.right "State", .left "Value"]
  rows :=
    [[.right "IP =", .left (addressText machine.core.pointer)],
      [.right "Quanta =", .left (toString machine.bank.balance)],
      [.right "Next =", .left machine.nextText]]

/-- The whole state. -/
def dump (machine : Machine) : String :=
  Table.render
    { titles := [.left "Registers", .left "Machine"]
      rows := [[machine.registerTable.toCell, machine.stateTable.toCell]] }

end WordMachine.Machine
