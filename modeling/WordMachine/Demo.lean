import WordMachine.Assembly.Run
import WordMachine.Listing
import WordMachine.Machine.Dump

/-!
# The demonstration

A small program that adds up the numbers from one to ten in a subroutine and then jumps onto
itself. It is assembled, listed, placed at the bottom of a small memory and run for a fixed number
of ticks; the dump of the machine ends the demonstration.
-/

set_option autoImplicit false

namespace WordMachine.Demo

/-- The name of the program. -/
def programName : String := "sum.asm"

/-- The program. -/
def program : String :=
  "\n" ++
  ".SET COUNT, 10\n" ++
  ".SET STACK_TOP, 0x1000\n" ++
  "\n" ++
  "start:  MOV.I   %SP, STACK_TOP\n" ++
  "        MOV.I   %R1D, COUNT\n" ++
  "        CALL.Z  %R0, sum, %R0\n" ++
  "halt:   JREL.Z  %R0, -4             ; jump onto itself\n" ++
  "\n" ++
  "sum:    ENTER   0\n" ++
  "        PUSH.D  %R3D\n" ++
  "        MOV.I   %R2D, 0\n" ++
  "        MOV.I   %R3D, 1\n" ++
  "loop:   ADD.R   %R2D, %R2D, %R1D\n" ++
  "        SUB.R   %R1D, %R1D, %R3D\n" ++
  "        JABS.NZ %R1D, loop, %R0\n" ++
  "        POP.D   %R3D\n" ++
  "        LEAVE\n" ++
  "        RET\n"

/-- The number of bytes of memory. -/
def memorySize : Nat := 0x1000

/-- The number of ticks. -/
def ticks : Nat := 64

/-- What is printed: to the standard output, and to the standard error. -/
structure Transcript where
  output : String
  error : String
  deriving DecidableEq, Repr

/-- The machine after at most a number of ticks, and the tick and fault that ended them. -/
def runTicks (machine : Machine) (tick : Nat) : Nat → Machine × Option (Nat × Fault)
  | 0 => (machine, none)
  | remaining + 1 =>
      let run := machine.tick
      let machine := machine.afterRun run
      match run.fault with
      | none => runTicks machine (tick + 1) remaining
      | some fault => (machine, some (tick, fault))

/-- Runs the code on a machine of its own. -/
def runCode (bytes : Array UInt8) : Transcript :=
  match AddressSpace.empty.map (Region.ofContents 0 memorySize bytes) with
  | .error error => ⟨"", error.message ++ "\n"⟩
  | .ok memory =>
      let (machine, ended) := runTicks (Machine.standard memory) 0 ticks
      let complaint :=
        match ended with
        | some (tick, fault) => "tick " ++ toString tick ++ ": " ++ fault.message ++ "\n"
        | none => ""
      ⟨machine.dump ++ "\n", complaint⟩

/-- The whole demonstration. -/
def transcript : Transcript :=
  let banner := "Computation Tracing ENABLED\n"
  let source := FileTree.empty.toSource []
  match Assembler.assembleAll source 0 (Assembler.initial.enqueue programName program) with
  | .error (.failed failure) _ => ⟨banner, failure.message ++ "\n"⟩
  | .error .lineLimit _ => ⟨banner, "too many lines\n"⟩
  | .ok bytes assembler =>
      let listing :=
        Listing.render bytes.toList assembler.origin (some assembler.scope.symbols)
      let run := runCode bytes
      ⟨banner ++ "Program:\n" ++ listing ++ "\n" ++ run.output, run.error⟩

end WordMachine.Demo
