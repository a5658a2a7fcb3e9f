import WordMachine.Demo

/-!
# The command line

Without arguments the program runs the demonstration.
-/

set_option autoImplicit false

def main : IO Unit := do
  IO.print WordMachine.Demo.transcript.output
  IO.eprint WordMachine.Demo.transcript.error
