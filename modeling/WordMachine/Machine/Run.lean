import WordMachine.Configuration
import WordMachine.Machine.Step
import WordMachine.QuantaBank

/-!
# Machines and their schedule

A machine is a core, a quanta bank and the configuration it starts from. It runs instructions as
long as the bank can pay for the next one (`Core.drain`). Each instruction is paid for before it
runs, so it is paid for even if it faults; an illegal operation is free, so a run never stops in
front of one.

Every instruction has a price, so the balance goes down with each and every run ends. A `Run`
holds where it ended: the core, what is left in the bank, what was dispatched, and the fault that
ended it, if it did not end for want of quanta.
-/

set_option autoImplicit false

namespace WordMachine

/-- How a run ended. -/
structure Run where
  core : Core
  balance : Nat
  /-- The dispatched instructions, the latest first. -/
  dispatches : List Dispatch
  fault : Option Fault

namespace Run

/-- The dispatched instructions in the order in which they ran. -/
def history (run : Run) : List Dispatch :=
  run.dispatches.reverse

/-- The number of instructions executed, or the fault that ended the run. -/
def executed (run : Run) : Except Fault Nat :=
  match run.fault with
  | none => .ok run.dispatches.length
  | some fault => .error fault

end Run

/-- Runs instructions while the balance covers the price of the next one. The instructions
dispatched before are given. -/
def Core.drain (core : Core) (balance : Nat) (dispatches : List Dispatch) : Run :=
  match _fetched : core.fetch with
  | .error error => ⟨core, balance, dispatches, some (.memory error)⟩
  | .ok (.illegal word, next) =>
      ⟨{ core with pointer := next }, balance, dispatches,
        some (.illegalOpcode word core.pointer)⟩
  | .ok (.instruction found, next) =>
      match _paid : QuantaBank.pay? balance found.quanta with
      | some rest =>
          let dispatches := ⟨core.pointer, found⟩ :: dispatches
          match Core.execute found core.pointer { core with pointer := next } with
          | .ok () core => core.drain rest dispatches
          | .error fault core => ⟨core, rest, dispatches, some fault⟩
      | none => ⟨core, balance, dispatches, none⟩
termination_by balance
decreasing_by
  have := Core.fetch_quanta_pos _fetched
  have := QuantaBank.pay?_eq_some_iff.mp _paid
  omega

/-- A core with a quanta bank and the configuration it starts from. -/
structure Machine where
  core : Core
  bank : QuantaBank
  configuration : Configuration

namespace Machine

/-- The machine in its start state: all registers zero but the stack pointer, nothing in the
bank. Memory stays as it is. -/
def reset (machine : Machine) : Machine :=
  { machine with
    core :=
      { machine.core with
        registers :=
          RegisterFile.cleared.set Core.stackIndex machine.configuration.initialStack
        pointer := machine.configuration.initialPointer }
    bank := machine.bank.clear }

/-- A machine on a memory, in its start state. -/
def start (memory : AddressSpace) (configuration : Configuration) : Machine :=
  reset
    { core := ⟨RegisterFile.cleared, configuration.initialPointer, memory⟩
      bank := QuantaBank.ofGrant configuration.grant
      configuration }

/-- A machine on a memory, if its configuration is valid. -/
def ofConfiguration (memory : AddressSpace) (configuration : Configuration) :
    Except ConfigurationError Machine := do
  configuration.validate
  return start memory configuration

/-- A machine on a memory in the standard configuration. -/
def standard (memory : AddressSpace) : Machine :=
  start memory Configuration.standard

/-- Applies an action to the core. The bank is not touched. -/
def perform {α : Type} (action : Execution α) (machine : Machine) : Except Fault α × Machine :=
  match action machine.core with
  | .ok value core => (.ok value, { machine with core })
  | .error fault core => (.error fault, { machine with core })

/-- Executes one instruction without asking the bank. -/
def step (machine : Machine) : Except Fault Unit × Machine :=
  machine.perform Core.step

/-- What the next instruction costs. -/
def peekCost (machine : Machine) : Except MemoryError Nat :=
  machine.core.fetch.map fun outcome => outcome.1.quanta

/-- Runs on what is in the bank. -/
def drain (machine : Machine) : Run :=
  machine.core.drain machine.bank.balance []

/-- The machine at the end of one of its runs. -/
def afterRun (machine : Machine) (run : Run) : Machine :=
  { machine with core := run.core, bank := { machine.bank with balance := run.balance } }

/-- Grants a tick and runs on what is in the bank. -/
def tick (machine : Machine) : Run :=
  { machine with bank := machine.bank.refill }.drain

/-- Deposits a budget and runs on what is in the bank. -/
def runQuanta (machine : Machine) (budget : Nat) : Run :=
  { machine with bank := machine.bank.deposit budget }.drain

end Machine
end WordMachine
