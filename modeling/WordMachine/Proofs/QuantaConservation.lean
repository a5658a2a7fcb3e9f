import WordMachine.Proofs.Scheduling

/-!
# Conservation of quanta

It makes no difference in how many portions quanta are granted. A run that has come to rest goes on
with further quanta exactly as it would have gone on if it had had them from the start
(`Core.drain_add`), and a run that has faulted would have faulted in the same place.

A tick first reduces what is left over modulo its grant. Nothing is lost by that: a run that comes
to rest leaves less than the price of some instruction, and a tick grants at least that much.

The main statement, `Machine.runQuanta_total`, compares any sequence of calls of the scheduler with
a single call that grants their total.
-/

set_option autoImplicit false

namespace WordMachine

/-! ## Going on with a run -/

/-- A run with more quanta. It goes on, unless a fault has ended it. -/
def Run.resume (run : Run) (extra : Nat) : Run :=
  match run.fault with
  | none => run.core.drain (run.balance + extra) run.dispatches
  | some _ => { run with balance := run.balance + extra }

theorem Run.resume_of_settled {run : Run} (settled : run.fault = none) (extra : Nat) :
    run.resume extra = run.core.drain (run.balance + extra) run.dispatches := by
  rw [resume, settled]

theorem Run.resume_of_fault {run : Run} {fault : Fault} (ended : run.fault = some fault)
    (extra : Nat) : run.resume extra = { run with balance := run.balance + extra } := by
  rw [resume, ended]

theorem Run.executed_of_settled {run : Run} (settled : run.fault = none) :
    run.executed = .ok run.dispatches.length := by
  rw [executed, settled]

theorem Run.executed_of_fault {run : Run} {fault : Fault} (ended : run.fault = some fault) :
    run.executed = .error fault := by
  rw [executed, ended]

/-- A run with a record of what was dispatched before it. -/
def Run.after (run : Run) (earlier : List Dispatch) : Run :=
  { run with dispatches := run.dispatches ++ earlier }

theorem Run.executed_after (run : Run) (earlier : List Dispatch) :
    (run.after earlier).executed = run.executed.map (· + earlier.length) := by
  cases outcome : run.fault with
  | none =>
      rw [executed_of_settled outcome, executed_of_settled (show (run.after earlier).fault = none
        from outcome)]
      exact congrArg Except.ok List.length_append
  | some fault =>
      rw [executed_of_fault outcome, executed_of_fault (show (run.after earlier).fault = some fault
        from outcome)]
      rfl

namespace Core

/-- **More quanta at the start are as good as more quanta at the end.** -/
theorem drain_add (core : Core) (balance extra : Nat) (dispatches : List Dispatch) :
    core.drain (balance + extra) dispatches = (core.drain balance dispatches).resume extra := by
  fun_induction drain core balance dispatches with
  | case1 core balance dispatches error unread => exact drain_of_unreadable unread
  | case2 core balance dispatches word next fetched => exact drain_of_illegal fetched
  | case3 core balance dispatches found next fetched rest paid _ between executed ih =>
      rw [← ih, drain_of_executed fetched (QuantaBank.pay?_add paid) executed]
  | case4 core balance dispatches found next fetched rest paid _ fault between faulty =>
      rw [drain_of_faulty fetched (QuantaBank.pay?_add paid) faulty]
      rfl
  | case5 core balance dispatches found next fetched dear => rfl

/-- What was dispatched before is only recorded. -/
theorem drain_append (core : Core) (balance : Nat) (dispatches earlier : List Dispatch) :
    core.drain balance (dispatches ++ earlier) = (core.drain balance dispatches).after earlier := by
  fun_induction drain core balance dispatches with
  | case1 core balance dispatches error unread => exact drain_of_unreadable unread
  | case2 core balance dispatches word next fetched => exact drain_of_illegal fetched
  | case3 core balance dispatches found next fetched rest paid _ between executed ih =>
      rw [← ih, drain_of_executed fetched paid executed, List.cons_append]
  | case4 core balance dispatches found next fetched rest paid _ fault between faulty =>
      rw [drain_of_faulty fetched paid faulty]
      rfl
  | case5 core balance dispatches found next fetched dear =>
      exact drain_of_unaffordable fetched dear

end Core

/-! ## Calls in a row -/

namespace Grant

/-- The quanta that a call grants, a tick being worth so many. -/
def amount (tick : Nat) : Grant → Nat
  | .tick => tick
  | .budget amount => amount

/-- The quanta that calls grant together. -/
def total (tick : Nat) (grants : List Grant) : Nat :=
  (grants.map (amount tick)).sum

theorem total_cons (tick : Nat) (grant : Grant) (rest : List Grant) :
    total tick (grant :: rest) = grant.amount tick + total tick rest :=
  List.sum_cons

theorem total_ticks (tick count : Nat) :
    total tick (List.replicate count .tick) = count * tick := by
  rw [total, List.map_replicate, List.sum_replicate_nat]
  rfl

end Grant

namespace Machine

/-- Calls the scheduler several times, up to the first call that fails. The outcome is the number
of instructions that all calls have executed, or the fault. -/
def runAll : List Grant → Machine → Except Fault Nat × Machine
  | [], machine => (.ok 0, machine)
  | grant :: rest, machine =>
      let run := machine.run grant
      match run.executed with
      | .error fault => (.error fault, machine.afterRun run)
      | .ok count =>
          let (later, final) := runAll rest (machine.afterRun run)
          (later.map (count + ·), final)

/-- A single run of a machine comes to what several calls came to: as many instructions have been
executed and the machine is the same, or the fault is the same and so is the core. -/
def ComesTo (machine : Machine) (whole : Run) : Except Fault Nat × Machine → Prop
  | (.ok count, final) => whole.executed = .ok count ∧ machine.afterRun whole = final
  | (.error fault, final) => whole.executed = .error fault ∧ whole.core = final.core

/-- The balance does not pay for the next instruction. -/
def AtRest (machine : Machine) : Prop :=
  ∃ found next,
    machine.core.fetch = .ok (.instruction found, next) ∧ machine.bank.balance < found.quanta

/-- One call on its own: a tick loses nothing of a balance below its grant. -/
theorem run_eq_drain_amount {machine : Machine} {grant : Grant}
    (carried : machine.bank.balance < machine.bank.grant)
    (fits : machine.bank.balance + grant.amount machine.bank.grant < 2 ^ 32) :
    machine.run grant =
      machine.core.drain (machine.bank.balance + grant.amount machine.bank.grant) [] := by
  have balance : (machine.granted grant).bank.balance =
      machine.bank.balance + grant.amount machine.bank.grant := by
    cases grant with
    | tick =>
        have kept : machine.bank.balance % machine.bank.grant = machine.bank.balance :=
          Nat.mod_eq_of_lt carried
        have whole := machine.bank.balance_refill (by rw [kept]; exact fits)
        rw [kept] at whole
        exact whole
    | budget amount => exact Nat.min_eq_left (Nat.le_of_lt_succ fits)
  rw [run_eq_drain, balance]

/-- A run that comes to rest leaves a machine at rest, with less than a tick grants. -/
theorem atRest_afterRun {machine : Machine} {grant : Grant}
    (settled : (machine.run grant).fault = none) :
    (machine.afterRun (machine.run grant)).AtRest ∧
      (machine.run grant).balance < Opcode.maximalQuanta := by
  obtain ⟨_, reached, _, ends, _⟩ :=
    machine.steps_of_drain (machine.granted grant).bank.balance []
  rw [← run_eq_drain] at ends
  refine ⟨?_, ends.balance_lt settled⟩
  rw [EndsWith, settled] at ends
  exact ends.2

/-- What later calls came to, seen from before a first one. -/
theorem comesTo_after {machine : Machine} {first later : Run} {outcome : Except Fault Nat}
    {final : Machine} (comes : (machine.afterRun first).ComesTo later (outcome, final)) :
    machine.ComesTo (later.after first.dispatches)
      (outcome.map (first.dispatches.length + ·), final) := by
  cases outcome with
  | error fault =>
      obtain ⟨executed, core⟩ := comes
      refine ⟨?_, core⟩
      rw [Run.executed_after, executed]
      rfl
  | ok more =>
      obtain ⟨executed, reached⟩ := comes
      refine ⟨?_, reached⟩
      rw [Run.executed_after, executed]
      exact congrArg Except.ok (Nat.add_comm _ _)

/-- What `runQuanta_total` says, also of no calls at all if the machine is at rest. -/
theorem runAll_eq_drain {machine : Machine} {grants : List Grant}
    (enough : Opcode.maximalQuanta ≤ machine.bank.grant)
    (carried : machine.bank.balance < machine.bank.grant)
    (fits : machine.bank.balance + Grant.total machine.bank.grant grants < 2 ^ 32)
    (resting : grants = [] → machine.AtRest) :
    machine.ComesTo
      (machine.core.drain (machine.bank.balance + Grant.total machine.bank.grant grants) [])
      (runAll grants machine) := by
  induction grants generalizing machine with
  | nil =>
      obtain ⟨found, next, fetched, dear⟩ := resting rfl
      have still : machine.core.drain machine.bank.balance [] =
          ⟨machine.core, machine.bank.balance, [], none⟩ :=
        Core.drain_of_unaffordable fetched (QuantaBank.pay?_eq_none_iff.mpr dear)
      show machine.ComesTo (machine.core.drain machine.bank.balance []) _
      rw [still]
      exact ⟨rfl, rfl⟩
  | cons grant rest ih =>
      rw [Grant.total_cons, ← Nat.add_assoc] at fits ⊢
      have first : machine.run grant =
          machine.core.drain (machine.bank.balance + grant.amount machine.bank.grant) [] :=
        run_eq_drain_amount carried (Nat.lt_of_le_of_lt (Nat.le_add_right _ _) fits)
      rw [Core.drain_add, ← first, runAll]
      cases outcome : (machine.run grant).fault with
      | some fault =>
          rw [Run.resume_of_fault outcome, Run.executed_of_fault outcome]
          exact ⟨Run.executed_of_fault outcome, rfl⟩
      | none =>
          obtain ⟨resting, left⟩ := atRest_afterRun outcome
          have spent : (machine.run grant).balance ≤
              machine.bank.balance + grant.amount machine.bank.grant := by
            rw [first]
            exact Core.balance_drain_le _ _ _
          -- The later calls start from what this one leaves, which is less than a tick grants.
          have later : (machine.afterRun (machine.run grant)).ComesTo
              ((machine.run grant).core.drain
                ((machine.run grant).balance + Grant.total machine.bank.grant rest) [])
              (runAll rest (machine.afterRun (machine.run grant))) :=
            @ih (machine.afterRun (machine.run grant)) enough (Nat.lt_of_lt_of_le left enough)
              (Nat.lt_of_le_of_lt (Nat.add_le_add_right spent _) fits) (fun _ => resting)
          rw [Run.resume_of_settled outcome, ← List.nil_append (machine.run grant).dispatches,
            Core.drain_append, Run.executed_of_settled outcome]
          exact comesTo_after later

/-- **Quanta are conserved.** Calls of the scheduler in a row, at least one, come to what a single
call with their total comes to, provided that they start with less than a tick grants and that the
total fits 32 bits on top of it. Ticks alone total their number times the grant. -/
theorem runQuanta_total {machine : Machine} {grants : List Grant} (called : grants ≠ [])
    (enough : Opcode.maximalQuanta ≤ machine.bank.grant)
    (carried : machine.bank.balance < machine.bank.grant)
    (fits : machine.bank.balance + Grant.total machine.bank.grant grants < 2 ^ 32) :
    machine.ComesTo (machine.runQuanta (Grant.total machine.bank.grant grants))
        (runAll grants machine) ∧
      ∀ ticks, Grant.total machine.bank.grant (List.replicate ticks .tick) =
        ticks * machine.bank.grant := by
  refine ⟨?_, Grant.total_ticks _⟩
  have single := @run_eq_drain_amount machine (.budget (Grant.total machine.bank.grant grants))
    carried fits
  rw [Grant.amount] at single
  rw [show machine.runQuanta _ = _ from single]
  exact runAll_eq_drain enough carried fits fun none => absurd none called

/-- Ticks with a small budget in between. They pay for three rounds of the counting machine. -/
def portions : List Grant :=
  [.tick, .tick, .budget 3, .tick]

theorem runQuanta_total_portions :
    portions ≠ [] ∧ Opcode.maximalQuanta ≤ countingMachine.bank.grant ∧
      countingMachine.bank.balance < countingMachine.bank.grant ∧
      countingMachine.bank.balance + Grant.total countingMachine.bank.grant portions < 2 ^ 32 ∧
      (runAll portions countingMachine).1.toOption = some 6 ∧
      countingMachine.ComesTo (countingMachine.runQuanta 21) (runAll portions countingMachine) ∧
      ∀ ticks, Grant.total 6 (List.replicate ticks .tick) = ticks * 6 :=
  ⟨by decide, by decide, by decide, by decide, by decide +kernel,
    runQuanta_total (by decide) (by decide) (by decide) (by decide)⟩

end Machine
end WordMachine
