/-!
# Actions on a state

An action changes a state and may fail; what it has done by then stays done. The lemmas of the
first part run actions step by step.

Often it is enough to know how the state that an action leaves is related to the one it started
from, be it successful or not, and in what ways the action can fail (`Ends`). If the relation is
reflexive and transitive (`Chains`), actions in a row keep to it if each of them does
(`Ends.of_bind`).
-/

set_option autoImplicit false

namespace WordMachine

variable {ε σ α β : Type}

/-! ## Running actions -/

/-- The state that an action leaves, which it also does when it fails. -/
def finalState : EStateM.Result ε σ α → σ
  | .ok _ state => state
  | .error _ state => state

section Runs

variable {action : EStateM ε σ α} {next : α → EStateM ε σ β}

theorem run_bind_of_ok {start between : σ} {value : α} (step : action start = .ok value between) :
    (action >>= next) start = next value between := by
  simp only [bind, EStateM.bind, step]

theorem run_bind_of_error {start between : σ} {failure : ε}
    (step : action start = .error failure between) :
    (action >>= next) start = .error failure between := by
  simp only [bind, EStateM.bind, step]

/-- Two actions in a row succeed if both do. -/
theorem run_bind_eq_ok {start final : σ} {value : β} :
    (action >>= next) start = .ok value final ↔
      ∃ first between, action start = .ok first between ∧ next first between = .ok value final := by
  cases step : action start with
  | ok first between =>
      rw [run_bind_of_ok step]
      constructor
      · intro ran
        exact ⟨first, between, rfl, ran⟩
      · rintro ⟨_, _, same, ran⟩
        cases same
        exact ran
  | error failure between =>
      rw [run_bind_of_error step]
      constructor
      · intro ran
        cases ran
      · rintro ⟨_, _, same, _⟩
        cases same

theorem run_get_bind {next : σ → EStateM ε σ β} {start : σ} :
    (get >>= next) start = next start start :=
  rfl

end Runs

/-- Whether an action succeeded with a value and a state that pass a check. -/
def passes (check : α → σ → Bool) : EStateM.Result ε σ α → Bool
  | .ok value final => check value final
  | .error _ _ => false

theorem exists_of_passes {check : α → σ → Bool} {outcome : EStateM.Result ε σ α}
    (passed : passes check outcome = true) :
    ∃ value final, outcome = .ok value final ∧ check value final = true := by
  cases outcome with
  | ok value final => exact ⟨value, final, rfl, passed⟩
  | error failure final => cases passed

/-- How an action failed, if it did. -/
def failure? : EStateM.Result ε σ α → Option ε
  | .ok _ _ => none
  | .error failure _ => some failure

theorem exists_of_failure? {outcome : EStateM.Result ε σ α} {failure : ε}
    (failed : failure? outcome = some failure) : ∃ final, outcome = .error failure final := by
  cases outcome with
  | ok value final => cases failed
  | error other final =>
      cases failed
      exact ⟨final, rfl⟩

/-! ## Actions that lead to related states -/

section Relations

variable {related : σ → σ → Prop}

/-- From a state the action leads to a related one. -/
def Leads (related : σ → σ → Prop) (start : σ) (action : EStateM ε σ α) : Prop :=
  related start (finalState (action start))

/-- What several actions in a row keep to if each of them does. -/
structure Chains (related : σ → σ → Prop) : Prop where
  refl : ∀ state, related state state
  trans : ∀ {first second third}, related first second → related second third →
    related first third

/-- From a state the action leads to a related one, and it fails only in ways that are admitted. -/
structure Ends (related : σ → σ → Prop) (admitted : ε → Prop) (start : σ)
    (action : EStateM ε σ α) : Prop where
  leads : Leads related start action
  fails : ∀ {failure final}, action start = .error failure final → admitted failure

namespace Ends

variable {admitted : ε → Prop} {start : σ} {action : EStateM ε σ α}

theorem of_ok {value : α} {final : σ} (run : action start = .ok value final)
    (step : related start final) : Ends related admitted start action where
  leads := by
    rw [Leads, run]
    exact step
  fails failed := by
    rw [run] at failed
    cases failed

theorem of_error {failure : ε} {final : σ} (run : action start = .error failure final)
    (step : related start final) (admits : admitted failure) :
    Ends related admitted start action where
  leads := by
    rw [Leads, run]
    exact step
  fails failed := by
    rw [run] at failed
    cases failed
    exact admits

theorem step_of_ok (ends : Ends related admitted start action) {value : α} {final : σ}
    (run : action start = .ok value final) : related start final := by
  have leads := ends.leads
  rwa [Leads, run] at leads

theorem step_of_error (ends : Ends related admitted start action) {failure : ε} {final : σ}
    (run : action start = .error failure final) : related start final := by
  have leads := ends.leads
  rwa [Leads, run] at leads

/-- Less may be said of the states. -/
theorem mono {other : σ → σ → Prop} (ends : Ends related admitted start action)
    (weaker : ∀ {after}, related start after → other start after) :
    Ends other admitted start action :=
  ⟨weaker ends.leads, ends.fails⟩

theorem of_modify {change : σ → σ} (step : related start (change start)) :
    Ends related admitted start (modify change : EStateM ε σ PUnit) :=
  .of_ok rfl step

theorem of_set {state : σ} (step : related start state) :
    Ends related admitted start (set state : EStateM ε σ PUnit) :=
  .of_ok rfl step

theorem of_pure (chains : Chains related) (value : α) :
    Ends related admitted start (pure value : EStateM ε σ α) :=
  .of_ok rfl (chains.refl start)

theorem of_throw (chains : Chains related) {failure : ε} (admits : admitted failure) :
    Ends related admitted start (throw failure : EStateM ε σ α) :=
  .of_error rfl (chains.refl start) admits

theorem of_get {next : σ → EStateM ε σ β} (later : Ends related admitted start (next start)) :
    Ends related admitted start (get >>= next) :=
  ⟨later.leads, later.fails⟩

theorem of_bind (chains : Chains related) {next : α → EStateM ε σ β}
    (first : Ends related admitted start action)
    (later : ∀ value between, Ends related admitted between (next value)) :
    Ends related admitted start (action >>= next) := by
  cases step : action start with
  | error failure between =>
      exact .of_error (run_bind_of_error step) (first.step_of_error step) (first.fails step)
  | ok value between =>
      have whole : (action >>= next) start = next value between := run_bind_of_ok step
      have before := first.step_of_ok step
      have after := later value between
      cases rest : next value between with
      | ok result final =>
          exact .of_ok (whole.trans rest) (chains.trans before (after.step_of_ok rest))
      | error failure final =>
          exact .of_error (whole.trans rest) (chains.trans before (after.step_of_error rest))
            (after.fails rest)

end Ends

end Relations

end WordMachine
