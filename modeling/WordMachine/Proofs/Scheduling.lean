import Mathlib.Algebra.GroupWithZero.Nat
import WordMachine.Machine.Run

/-!
# The schedule as repeated stepping

The loop of the scheduler pays for an instruction, executes it and looks at the next. Each turn of
it has one of five outcomes (`Core.drain_of_unreadable` to `Core.drain_of_faulty`), and only one of
them goes on. A turn that goes on is a step of the machine that took a price from the balance, and
so a whole run is a sequence of steps (`Machine.Steps`) whose prices add up to what has gone from
the balance (`Machine.steps_of_drain`). Every price is positive, so there are at most as many turns as
quanta, and one more that finds the run over (`Core.drainWithin_eq_drain`).

The main statement, `Machine.run_accounts`, says this of a call of the scheduler in terms of the
machine's own steps, which know nothing of the bank.
-/

set_option autoImplicit false

namespace WordMachine

/-! ## One turn of the loop -/

namespace Core

section Turn

variable {core between : Core} {balance rest : Nat} {dispatches : List Dispatch}
  {found : Instruction} {next : UInt32}

theorem drain_of_unreadable {error : MemoryError} (unread : core.fetch = .error error) :
    core.drain balance dispatches = ⟨core, balance, dispatches, some (.memory error)⟩ := by
  rw [drain]
  split <;> simp_all

theorem drain_of_illegal {word : UInt16} (fetched : core.fetch = .ok (.illegal word, next)) :
    core.drain balance dispatches =
      ⟨{ core with pointer := next }, balance, dispatches,
        some (.illegalOpcode word core.pointer)⟩ := by
  rw [drain]
  split <;> simp_all

/-- An instruction that has been fetched is paid for before anything else happens. -/
theorem drain_of_instruction (fetched : core.fetch = .ok (.instruction found, next)) :
    core.drain balance dispatches =
      match QuantaBank.pay? balance found.quanta with
      | some rest =>
          let longer := ⟨core.pointer, found⟩ :: dispatches
          match execute found core.pointer { core with pointer := next } with
          | .ok () between => between.drain rest longer
          | .error fault between => ⟨between, rest, longer, some fault⟩
      | none => ⟨core, balance, dispatches, none⟩ := by
  rw [drain]
  split
  case h_3 outcome =>
    rw [fetched] at outcome
    cases outcome
    split
    case h_1 paid => exact paid ▸ rfl
    case h_2 dear => exact dear ▸ rfl
  all_goals simp_all

theorem drain_of_unaffordable (fetched : core.fetch = .ok (.instruction found, next))
    (dear : QuantaBank.pay? balance found.quanta = none) :
    core.drain balance dispatches = ⟨core, balance, dispatches, none⟩ := by
  rw [drain_of_instruction fetched, dear]

theorem drain_of_executed (fetched : core.fetch = .ok (.instruction found, next))
    (paid : QuantaBank.pay? balance found.quanta = some rest)
    (executed : execute found core.pointer { core with pointer := next } = .ok () between) :
    core.drain balance dispatches = between.drain rest (⟨core.pointer, found⟩ :: dispatches) := by
  rw [drain_of_instruction fetched, paid]
  simp only [executed]

theorem drain_of_faulty {fault : Fault} (fetched : core.fetch = .ok (.instruction found, next))
    (paid : QuantaBank.pay? balance found.quanta = some rest)
    (faulty : execute found core.pointer { core with pointer := next } = .error fault between) :
    core.drain balance dispatches =
      ⟨between, rest, ⟨core.pointer, found⟩ :: dispatches, some fault⟩ := by
  rw [drain_of_instruction fetched, paid]
  simp only [faulty]

end Turn

theorem step_of_fetch {core : Core} {found : Instruction} {next : UInt32}
    (fetched : core.fetch = .ok (.instruction found, next)) :
    step core = execute found core.pointer { core with pointer := next } := by
  rw [step, fetched]
  rfl

/-- The sum of the prices of dispatched instructions. -/
def price (dispatches : List Dispatch) : Nat :=
  (dispatches.map fun dispatch => dispatch.instruction.quanta).sum

theorem price_cons (address : UInt32) (found : Instruction) (rest : List Dispatch) :
    price (⟨address, found⟩ :: rest) = found.quanta + price rest :=
  List.sum_cons

end Core

/-! ## Turns as steps -/

namespace Machine

/-- Steps of the machine in a row, none of which faults, with the instructions they execute. -/
inductive Steps : Machine → List Dispatch → Machine → Prop where
  | nil (machine : Machine) : Steps machine [] machine
  | cons {machine between final : Machine} {dispatch : Dispatch} {rest : List Dispatch}
      (upcoming : machine.core.upcoming? = some dispatch)
      (stepped : machine.step = (.ok (), between)) (more : Steps between rest final) :
      Steps machine (dispatch :: rest) final

/-- How a run ended, seen from the machine that steps have led to: the next instruction was too
dear, or the next step faults. -/
def EndsWith (machine : Machine) (run : Run) : Prop :=
  match run.fault with
  | none =>
      machine.core = run.core ∧ ∃ found next,
        run.core.fetch = .ok (.instruction found, next) ∧ run.balance < found.quanta
  | some fault => machine.step = (.error fault, { machine with core := run.core })

/-- What is left over does not pay for the dearest instruction. -/
theorem EndsWith.balance_lt {machine : Machine} {run : Run} (ends : machine.EndsWith run)
    (settled : run.fault = none) : run.balance < Opcode.maximalQuanta := by
  rw [EndsWith, settled] at ends
  obtain ⟨_, found, _, _, dear⟩ := ends
  exact Nat.lt_of_lt_of_le dear found.opcode.quanta_le

section Turn

variable {machine : Machine} {found : Instruction} {next : UInt32}

theorem step_of_unreadable {error : MemoryError} (unread : machine.core.fetch = .error error) :
    machine.step = (.error (.memory error), machine) := by
  rw [step, perform, Core.step, unread]

theorem step_of_illegal {word : UInt16}
    (fetched : machine.core.fetch = .ok (.illegal word, next)) :
    machine.step = (.error (.illegalOpcode word machine.core.pointer),
      { machine with core := { machine.core with pointer := next } }) := by
  rw [step, perform, Core.step, fetched]
  rfl

theorem step_of_executed {between : Core}
    (fetched : machine.core.fetch = .ok (.instruction found, next))
    (executed : Core.execute found machine.core.pointer { machine.core with pointer := next } =
      .ok () between) :
    machine.step = (.ok (), { machine with core := between }) := by
  rw [step, perform, Core.step_of_fetch fetched, executed]

theorem step_of_faulty {between : Core} {fault : Fault}
    (fetched : machine.core.fetch = .ok (.instruction found, next))
    (faulty : Core.execute found machine.core.pointer { machine.core with pointer := next } =
      .error fault between) :
    machine.step = (.error fault, { machine with core := between }) := by
  rw [step, perform, Core.step_of_fetch fetched, faulty]

theorem upcoming?_of_fetch (fetched : machine.core.fetch = .ok (.instruction found, next)) :
    machine.core.upcoming? = some ⟨machine.core.pointer, found⟩ := by
  rw [Core.upcoming?, fetched]

end Turn

/-- **A run is a sequence of steps**, whose prices have gone from the balance. -/
theorem steps_of_drain (machine : Machine) (balance : Nat) (dispatches : List Dispatch) :
    let run := machine.core.drain balance dispatches
    ∃ trace reached,
      machine.Steps trace { machine with core := reached } ∧
        EndsWith { machine with core := reached } run ∧
        (run.fault = none →
          run.dispatches = trace.reverse ++ dispatches ∧ balance = run.balance + Core.price trace) := by
  obtain ⟨core, bank, configuration⟩ := machine
  dsimp only
  fun_induction Core.drain core balance dispatches with
  | case1 core balance dispatches error unread =>
      exact ⟨[], core, .nil _, step_of_unreadable unread, fun settled => nomatch settled⟩
  | case2 core balance dispatches word next fetched =>
      exact ⟨[], core, .nil _, step_of_illegal fetched, fun settled => nomatch settled⟩
  | case3 core balance dispatches found next fetched rest paid _ between executed ih =>
      obtain ⟨trace, reached, steps, ends, settled⟩ := ih
      refine ⟨⟨core.pointer, found⟩ :: trace, reached, ?_, ends, fun fine => ?_⟩
      · exact .cons (upcoming?_of_fetch fetched) (step_of_executed fetched executed) steps
      · obtain ⟨history, spent⟩ := settled fine
        refine ⟨?_, ?_⟩
        · rw [history, List.reverse_cons, List.append_assoc, List.singleton_append]
        · have parts := QuantaBank.pay?_eq_some_iff.mp paid
          rw [Core.price_cons]
          omega
  | case4 core balance dispatches found next fetched rest _ _ fault between faulty =>
      exact ⟨[], core, .nil _, step_of_faulty fetched faulty, fun settled => nomatch settled⟩
  | case5 core balance dispatches found next fetched dear =>
      refine ⟨[], core, .nil _, ?_, fun _ => ⟨rfl, rfl⟩⟩
      exact ⟨rfl, found, next, fetched, QuantaBank.pay?_eq_none_iff.mp dear⟩

end Machine

/-! ## The number of turns -/

namespace Core

/-- The loop of a run, for at most a number of turns. Each turn fetches once. -/
def drainWithin : Nat → Core → Nat → List Dispatch → Option Run
  | 0, _, _, _ => none
  | turns + 1, core, balance, dispatches =>
      match core.fetch with
      | .error error => some ⟨core, balance, dispatches, some (.memory error)⟩
      | .ok (.illegal word, next) =>
          some ⟨{ core with pointer := next }, balance, dispatches,
            some (.illegalOpcode word core.pointer)⟩
      | .ok (.instruction found, next) =>
          match QuantaBank.pay? balance found.quanta with
          | some rest =>
              let dispatches := ⟨core.pointer, found⟩ :: dispatches
              match execute found core.pointer { core with pointer := next } with
              | .ok () core => drainWithin turns core rest dispatches
              | .error fault core => some ⟨core, rest, dispatches, some fault⟩
          | none => some ⟨core, balance, dispatches, none⟩

/-- A run pays for every instruction that it executes. -/
theorem length_dispatches_drain (core : Core) (balance : Nat) (dispatches : List Dispatch) :
    dispatches.length ≤ (core.drain balance dispatches).dispatches.length ∧
      (core.drain balance dispatches).dispatches.length ≤ dispatches.length + balance := by
  fun_induction drain core balance dispatches with
  | case1 | case2 | case5 => simp only [Nat.le_add_right, Nat.le_refl, and_self]
  | case3 core balance dispatches found next fetched rest paid longer between executed ih =>
      have price := fetch_quanta_pos fetched
      have parts := QuantaBank.pay?_eq_some_iff.mp paid
      have grown : longer.length = dispatches.length + 1 := rfl
      omega
  | case4 core balance dispatches found next fetched rest paid _ fault between faulty =>
      have price := fetch_quanta_pos fetched
      have parts := QuantaBank.pay?_eq_some_iff.mp paid
      rw [List.length_cons]
      omega

/-- A run only spends. -/
theorem balance_drain_le (core : Core) (balance : Nat) (dispatches : List Dispatch) :
    (core.drain balance dispatches).balance ≤ balance := by
  fun_induction drain core balance dispatches with
  | case1 | case2 | case5 => exact Nat.le_refl _
  | case3 core balance dispatches found next fetched rest paid _ between executed ih =>
      exact Nat.le_trans ih (QuantaBank.pay?_le paid)
  | case4 core balance dispatches found next fetched rest paid => exact QuantaBank.pay?_le paid

/-- **One turn more than there are instructions ends a run.** -/
theorem drainWithin_eq_drain (core : Core) (balance : Nat) (dispatches : List Dispatch) :
    ∀ turns, (core.drain balance dispatches).dispatches.length ≤ dispatches.length + turns →
      drainWithin (turns + 1) core balance dispatches = some (core.drain balance dispatches) := by
  fun_induction drain core balance dispatches with
  | case1 core balance dispatches error unread =>
      intro turns _
      rw [drainWithin, unread]
  | case2 core balance dispatches word next fetched =>
      intro turns _
      rw [drainWithin, fetched]
  | case3 core balance dispatches found next fetched rest paid longer between executed ih =>
      intro turns enough
      have grown : longer.length = dispatches.length + 1 := rfl
      -- What has been dispatched stays in the record, so this turn is counted.
      have counted := (between.length_dispatches_drain rest longer).1
      obtain ⟨others, rfl⟩ : ∃ others, turns = others + 1 := ⟨turns - 1, by omega⟩
      rw [drainWithin, fetched]
      simp only [paid, executed]
      exact ih others (by omega)
  | case4 core balance dispatches found next fetched rest paid _ fault between faulty =>
      intro turns _
      rw [drainWithin, fetched]
      simp only [paid, faulty]
      rfl
  | case5 core balance dispatches found next fetched dear =>
      intro turns _
      rw [drainWithin, fetched]
      simp only [dear]

end Core

/-! ## Calls of the scheduler -/

/-- What a call of the scheduler grants: a tick, or a budget. -/
inductive Grant where
  | tick
  | budget (amount : Nat)
  deriving DecidableEq, Repr

namespace Machine

/-- The machine right after a grant. -/
def granted (machine : Machine) : Grant → Machine
  | .tick => { machine with bank := machine.bank.refill }
  | .budget amount => { machine with bank := machine.bank.deposit amount }

/-- Calls the scheduler. -/
def run (machine : Machine) : Grant → Run
  | .tick => machine.tick
  | .budget amount => machine.runQuanta amount

theorem run_eq_drain (machine : Machine) (grant : Grant) :
    machine.run grant =
      machine.core.drain (machine.granted grant).bank.balance [] := by
  cases grant <;> rfl

/-- After a grant the balance is a number of 32 bits. -/
theorem balance_granted_le (machine : Machine) (grant : Grant) :
    (machine.granted grant).bank.balance ≤ QuantaBank.ceiling := by
  cases grant with
  | tick => exact machine.bank.balance_refill_le
  | budget amount => exact machine.bank.balance_deposit_le amount

/-- A tick has its whole grant on hand, if two of them have room in 32 bits. -/
theorem le_balance_granted_tick {machine : Machine} (positive : 0 < machine.bank.grant)
    (half : machine.bank.grant ≤ 2 ^ 31) :
    machine.bank.grant ≤ (machine.granted .tick).bank.balance := by
  have carried := Nat.mod_lt machine.bank.balance positive
  have whole : (machine.granted .tick).bank.balance =
      machine.bank.balance % machine.bank.grant + machine.bank.grant :=
    machine.bank.balance_refill (by omega)
  omega

/-- **The schedule is repeated stepping with exact accounting, and it always stops.** The balance
is the one right after the grant. -/
theorem run_accounts (machine : Machine) (grant : Grant)
    (valid : grant = .tick →
      Opcode.maximalQuanta ≤ machine.bank.grant ∧ machine.bank.grant ≤ 2 ^ 31) :
    let balance := (machine.granted grant).bank.balance
    let run := machine.run grant
    balance ≤ QuantaBank.ceiling ∧
      run.dispatches.length ≤ balance ∧
      machine.core.drainWithin (run.dispatches.length + 1) balance [] = some run ∧
      match run.executed with
      | .ok count =>
          ∃ trace,
            trace.length = count ∧
            machine.Steps trace { machine with core := run.core } ∧
            balance = run.balance + Core.price trace ∧
            (∃ found next, run.core.fetch = .ok (.instruction found, next) ∧
              run.balance < found.quanta) ∧
            run.balance ≤ 5 ∧
            (grant = .tick → 1 ≤ count)
      | .error fault =>
          ∃ trace reached,
            machine.Steps trace reached ∧
            reached.step = (.error fault, { machine with core := run.core }) := by
  intro balance run
  have whole : run = machine.core.drain balance [] := machine.run_eq_drain grant
  have few := (machine.core.length_dispatches_drain balance []).2
  have enough := machine.core.drainWithin_eq_drain balance [] run.dispatches.length
  obtain ⟨trace, reached, steps, ends, settled⟩ := machine.steps_of_drain balance []
  rw [← whole] at few enough ends settled
  rw [List.length_nil, Nat.zero_add] at few enough
  refine ⟨machine.balance_granted_le grant, few, enough (Nat.le_refl _), ?_⟩
  rw [Run.executed]
  cases outcome : run.fault with
  | some fault =>
      rw [EndsWith, outcome] at ends
      exact ⟨trace, _, steps, ends⟩
  | none =>
      have left : run.balance < 6 := ends.balance_lt outcome
      rw [EndsWith, outcome] at ends
      obtain ⟨rfl, found, next, fetched, dear⟩ := ends
      obtain ⟨history, paid⟩ := settled outcome
      have count : trace.length = run.dispatches.length := by
        rw [history, List.append_nil, List.length_reverse]
      refine ⟨trace, count, steps, paid, ⟨found, next, fetched, dear⟩, by omega, ?_⟩
      rintro rfl
      -- A tick can pay for any instruction, so it cannot have ended before the first.
      have low : 6 ≤ machine.bank.grant := (valid rfl).1
      have granted : machine.bank.grant ≤ balance :=
        le_balance_granted_tick (by omega) (valid rfl).2
      cases trace with
      | nil =>
          rw [Core.price, List.map_nil, List.sum_nil] at paid
          omega
      | cons dispatch rest =>
          rw [← count, List.length_cons]
          exact Nat.le_add_left _ _

/-- An addition and a jump back to it. A tick pays for the addition but not for the jump. -/
def countingMachine : Machine :=
  standard ⟨[Region.ofContents 0 16 #[0x10, 0x09, 0xE3, 0xFF, 0x23, 0xD0]]⟩

theorem run_accounts_countingMachine :
    (Grant.tick = .tick →
      Opcode.maximalQuanta ≤ countingMachine.bank.grant ∧ countingMachine.bank.grant ≤ 2 ^ 31) ∧
    let run := countingMachine.run .tick
    run.executed = .ok 1 ∧
      countingMachine.core.drainWithin 2 6 [] = some run ∧
      ∃ trace,
        trace.length = 1 ∧
        countingMachine.Steps trace { countingMachine with core := run.core } ∧
        6 = run.balance + Core.price trace ∧
        (∃ found next, run.core.fetch = .ok (.instruction found, next) ∧
          run.balance < found.quanta) ∧
        run.balance ≤ 5 := by
  have valid : Grant.tick = .tick →
      Opcode.maximalQuanta ≤ countingMachine.bank.grant ∧
        countingMachine.bank.grant ≤ 2 ^ 31 := fun _ => by decide
  have executed : (countingMachine.run .tick).executed = .ok 1 := by
    have evaluated : (countingMachine.run .tick).executed.toOption = some 1 := by decide +kernel
    cases outcome : (countingMachine.run .tick).executed with
    | ok count =>
        rw [outcome] at evaluated
        exact congrArg Except.ok (Option.some.inj evaluated)
    | error fault =>
        rw [outcome] at evaluated
        cases evaluated
  have count : (countingMachine.run .tick).dispatches.length = 1 := by decide +kernel
  obtain ⟨_, _, turns, accounts⟩ := run_accounts countingMachine .tick valid
  rw [executed] at accounts
  rw [count] at turns
  obtain ⟨trace, one, steps, paid, next, left, _⟩ := accounts
  exact ⟨valid, executed, turns, trace, one, steps, paid, next, left⟩

end Machine
end WordMachine
