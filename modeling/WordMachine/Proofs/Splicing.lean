import WordMachine.Proofs.EmittedStatements

/-!
# Lines that splice in other texts

Only two directives look at the lines that wait or at the imported paths, `.INCLUDE` and `.IMPORT`.
Everything else an assembly does is the same whatever waits and whatever has been imported, and
leaves both as they are (`Assembler.IgnoresQueue`).

A line that asks for a text (`LogicalLine.splicing?`) first defines its label. Then its operand is
expanded and resolved to a path. An import of a path that has been imported before ends here.
Otherwise the text is loaded, and its lines are put in front of those that wait.
-/

set_option autoImplicit false

namespace WordMachine

open Assembly

namespace Assembler

/-! ## Actions that have nothing to do with the queue -/

/-- The state with other lines that wait and other imported paths. -/
def requeue (state : Assembler) (queue : List LogicalLine) (imported : List Path.Key) :
    Assembler :=
  { state with queue, imported }

section Fields

variable (state : Assembler) (queue : List LogicalLine) (imported : List Path.Key)

@[simp]
theorem requeue_code : (state.requeue queue imported).code = state.code :=
  rfl

@[simp]
theorem requeue_scope : (state.requeue queue imported).scope = state.scope :=
  rfl

@[simp]
theorem requeue_cursor : (state.requeue queue imported).cursor = state.cursor :=
  rfl

end Fields

section Ignoring

variable {ε α β : Type}

/-- An outcome with other lines that wait and other imported paths. -/
def requeued (queue : List LogicalLine) (imported : List Path.Key) :
    EStateM.Result ε Assembler α → EStateM.Result ε Assembler α
  | .ok value final => .ok value (final.requeue queue imported)
  | .error failure final => .error failure (final.requeue queue imported)

/-- The lines that wait and the imported paths make no difference to an action, and stay. -/
def IgnoresQueue (action : EStateM ε Assembler α) : Prop :=
  ∀ state queue imported,
    action (state.requeue queue imported) = requeued queue imported (action state)

namespace IgnoresQueue

variable {action : EStateM ε Assembler α} {next : α → EStateM ε Assembler β} {state : Assembler}

theorem keeps (ignores : IgnoresQueue action) (state : Assembler) :
    (finalState (action state)).queue = state.queue ∧
      (finalState (action state)).imported = state.imported := by
  have same : action state = requeued state.queue state.imported (action state) :=
    ignores state state.queue state.imported
  rw [same]
  cases action state <;> exact ⟨rfl, rfl⟩

theorem keeps_ok (ignores : IgnoresQueue action) {value : α} {after : Assembler}
    (done : action state = .ok value after) :
    after.queue = state.queue ∧ after.imported = state.imported := by
  have kept := ignores.keeps state
  rwa [done] at kept

theorem pure (value : α) : IgnoresQueue (pure value : EStateM ε Assembler α) :=
  fun _ _ _ => rfl

theorem throw (failure : ε) : IgnoresQueue (throw failure : EStateM ε Assembler α) :=
  fun _ _ _ => rfl

theorem bind (first : IgnoresQueue action) (later : ∀ value, IgnoresQueue (next value)) :
    IgnoresQueue (action >>= next) := by
  intro state queue imported
  have moved := first state queue imported
  cases step : action state with
  | ok value between =>
      rw [step] at moved
      rw [run_bind_of_ok moved, run_bind_of_ok step]
      exact later value between queue imported
  | error failure between =>
      rw [step] at moved
      rw [run_bind_of_error moved, run_bind_of_error step]
      rfl

/-- After an action the queue stays if what comes next ignores it. -/
theorem keeps_bind (later : ∀ value, IgnoresQueue (next value)) (state : Assembler) :
    (finalState ((action >>= next) state)).queue = (finalState (action state)).queue ∧
      (finalState ((action >>= next) state)).imported = (finalState (action state)).imported := by
  cases step : action state with
  | ok value between =>
      rw [run_bind_of_ok step]
      exact (later value).keeps between
  | error failure between =>
      rw [run_bind_of_error step]
      exact ⟨rfl, rfl⟩

end IgnoresQueue

theorem ignoresQueue_readAt {place : SourceLine} {reading : Reading α}
    (ignores : IgnoresQueue reading) : IgnoresQueue (readAt place reading) := by
  intro state queue imported
  rw [readAt, readAt, ignores]
  cases reading state <;> rfl

end Ignoring

section Statements

variable (label name text : List Char) (count : Nat)

theorem ignoresQueue_defineLabel : IgnoresQueue (defineLabel label) := by
  intro state queue imported
  rw [defineLabel, run_get_bind, run_get_bind, requeue_scope, requeue_cursor]
  cases isIdentifier label with
  | false => rfl
  | true =>
      cases state.scope.symbols.define (String.ofList label) state.cursor <;> rfl

theorem ignoresQueue_defineMacro : IgnoresQueue (defineMacro name text) := by
  intro state queue imported
  rw [defineMacro, run_get_bind, run_get_bind, requeue_scope]
  cases isIdentifier name with
  | false => rfl
  | true => cases state.scope.macros.contains name <;> rfl

theorem ignoresQueue_dropMacro : IgnoresQueue (dropMacro name) :=
  fun _ _ _ => rfl

theorem ignoresQueue_emitZeros : IgnoresQueue (emitZeros count) :=
  fun _ _ _ => rfl

theorem ignoresQueue_fillTo : IgnoresQueue (fillTo count) := by
  intro state queue imported
  rw [fillTo, run_get_bind, run_get_bind, requeue_code]
  by_cases behind : count < state.code.size
  · rw [if_pos behind]
    rfl
  · rw [if_neg behind]
    exact ignoresQueue_emitZeros _ state queue imported

theorem ignoresQueue_alignTo : IgnoresQueue (alignTo count) := by
  intro state queue imported
  rw [alignTo]
  split <;> rfl

/-- Reading an operand in the scope of the state. -/
theorem ignoresQueue_scoped {α : Type} (read : Scope → Except StatementError α) :
    IgnoresQueue (do ofExcept (read (← get).scope)) := by
  intro state queue imported
  rw [run_get_bind, run_get_bind, requeue_scope]
  cases read state.scope <;> rfl

theorem ignoresQueue_constant (least greatest : Int) :
    IgnoresQueue (constant text least greatest) :=
  ignoresQueue_scoped fun scope => scope.constant text least greatest

theorem ignoresQueue_emitData (operands : List (List Char)) : IgnoresQueue (emitData operands) := by
  induction operands with
  | nil => exact .pure _
  | cons operand rest ih =>
      exact (ignoresQueue_constant operand _ _).bind fun byte =>
        IgnoresQueue.bind (fun _ _ _ => rfl) fun _ => ih

theorem ignoresQueue_emit (place : SourceLine) (emission : Emission) :
    IgnoresQueue (emit place emission) := by
  intro state queue imported
  rw [emit]
  cases emission.instruction.encoding <;> rfl

end Statements

/-! ## Lines -/

/-- Defines the label of a line, if it has one. -/
def readLabel (line : LogicalLine) : Reading Unit :=
  match (splitLabel (stripComment line.text)).1 with
  | some label => defineLabel label
  | none => pure ()

theorem ignoresQueue_readLabel (line : LogicalLine) : IgnoresQueue (readLabel line) := by
  rw [readLabel]
  split
  · exact ignoresQueue_defineLabel _
  · exact .pure _

theorem readLabel_ok {line : LogicalLine} {state labelled : Assembler}
    (done : readLabel line state = .ok () labelled) :
    ∃ symbols, labelled = state.withSymbols symbols := by
  cases label : (splitLabel (stripComment line.text)).1 with
  | none =>
      rw [readLabel, label] at done
      cases done
      exact ⟨state.scope.symbols, rfl⟩
  | some name =>
      rw [readLabel, label] at done
      obtain ⟨symbols, -, same⟩ := defineLabel_ok done
      exact ⟨symbols, same⟩

/-- A line is its label and then its statement. -/
theorem readLine_eq (source : Source) (line : LogicalLine) :
    readLine source line = (do
      readLabel line
      readStatement source line.place (splitLabel (stripComment line.text)).2) := by
  rw [readLine, readLabel]
  rcases splitLabel (stripComment line.text) with ⟨_ | label, statement⟩ <;> rfl

end Assembler

/-- What a line asks to be spliced in: whether only once, and the operand that names it. -/
def Assembly.LogicalLine.splicing? (line : LogicalLine) : Option (Bool × List Char) :=
  match line.words with
  | (mnemonic, [operand]) =>
      match Directive.ofName? (String.ofList (Text.upper mnemonic)) with
      | some (.splice once) => some (once, operand)
      | _ => none
  | _ => none

namespace Assembler

variable {source : Source} {line : LogicalLine}

theorem ignoresQueue_direct {name : String} {operands : List (List Char)}
    (other : ∀ once operand,
      ¬ (Directive.ofName? name = some (.splice once) ∧ operands = [operand])) :
    IgnoresQueue (direct source name operands) := by
  unfold direct
  split
  · exact ignoresQueue_defineMacro _ _
  · exact .throw _
  · exact .throw _
  · exact ignoresQueue_emitData _
  · exact ignoresQueue_dropMacro _
  · exact (ignoresQueue_constant _ _ _).bind fun _ _ _ _ => rfl
  · exact (ignoresQueue_constant _ _ _).bind fun _ => ignoresQueue_fillTo _
  · exact (ignoresQueue_constant _ _ _).bind fun _ => ignoresQueue_alignTo _
  · rename_i once operand directive
    exact absurd ⟨directive, rfl⟩ (other once operand)
  · exact .throw _
  · exact .throw _

/-- The names of directives start with a dot. -/
theorem head?_of_ofName? {name : String} {directive : Directive}
    (named : Directive.ofName? name = some directive) : name.toList.head? = some '.' := by
  unfold Directive.ofName? at named
  split at named <;> first | rfl | cases named

/-- **A line that asks for no text has nothing to do with the queue.** -/
theorem ignoresQueue_readLine (plain : line.splicing? = none) :
    IgnoresQueue (readLine source line) := by
  rw [readLine_eq]
  refine (ignoresQueue_readLabel line).bind fun _ => ?_
  rw [LogicalLine.splicing?, LogicalLine.words] at plain
  rw [readStatement]
  rcases words : splitStatement (splitLabel (stripComment line.text)).2 with ⟨mnemonic, operands⟩
  rw [words] at plain
  dsimp only
  split
  · exact .pure _
  · split
    · refine ignoresQueue_direct fun once operand splices => ?_
      rw [splices.2] at plain
      simp only [splices.1] at plain
      cases plain
    · exact (ignoresQueue_scoped fun scope => scope.statement _ _).bind fun emission =>
        ignoresQueue_emit line.place emission

/-- A statement that asks for a directive carries it out. -/
theorem readStatement_of_directive {place : SourceLine} {statement : List Char}
    {directive : Directive}
    (asks : Directive.ofName? (String.ofList (Text.upper (splitStatement statement).1)) =
      some directive) :
    readStatement source place statement =
      direct source (String.ofList (Text.upper (splitStatement statement).1))
        (splitStatement statement).2 := by
  have dotted := head?_of_ofName? asks
  rw [String.toList_ofList] at dotted
  have named : (splitStatement statement).1 ≠ [] := by
    intro nothing
    rw [nothing] at dotted
    cases dotted
  rw [readStatement]
  dsimp only
  rw [if_neg named, if_pos dotted]

/-- A line that asks for a text defines its label, expands its operand and splices. -/
theorem readLine_of_splicing {once : Bool} {operand : List Char}
    (asks : line.splicing? = some (once, operand)) :
    readLine source line = (do
      readLabel line
      let expanded ← ofExcept ((← get).scope.expand operand)
      splice source (String.ofList (unquote expanded)) once) := by
  rw [readLine_eq]
  rw [LogicalLine.splicing?, LogicalLine.words] at asks
  split at asks
  · rename_i mnemonic found words
    split at asks
    · rename_i directive
      cases asks
      have named : Directive.ofName? (String.ofList (Text.upper
          (splitStatement (splitLabel (stripComment line.text)).2).1)) = some (.splice once) := by
        rw [words]
        exact directive
      rw [readStatement_of_directive named, words]
      simp only [direct, directive]
    · cases asks
  · cases asks

/-! ## Splicing -/

/-- The state in which a path counts as imported if its text is to be read only once. -/
def noted (state : Assembler) (once : Bool) (key : Path.Key) : Assembler :=
  { state with imported := if once then key :: state.imported else state.imported }

/-- What comes of splicing in the text at a path. -/
def spliced (state : Assembler) (source : Source) (path : Path) (once : Bool) :
    EStateM.Result StatementError Assembler Unit :=
  if once && state.imported.contains path.key then
    .ok () state
  else
    match source.load path with
    | .ok text => .ok () ((state.noted once path.key).enqueue path.text text)
    | .error error => .error (.sourceUnavailable path error) (state.noted once path.key)

theorem splice_eq (source : Source) (name : String) (once : Bool) (state : Assembler) :
    splice source name once state = state.spliced source (source.resolve name) once := by
  rw [splice, run_get_bind, spliced]
  cases once with
  | false =>
      simp only [Bool.false_and, Bool.false_eq_true, if_false]
      cases source.load (source.resolve name) <;> rfl
  | true =>
      simp only [Bool.true_and, if_true]
      split
      · rfl
      · show (match source.load (source.resolve name) with
          | .ok _ => _
          | .error _ => _ : Reading Unit) _ = _
        cases source.load (source.resolve name) <;> rfl

section Spliced

variable {state : Assembler} {path : Path} {once : Bool}

theorem spliced_again (before : path.key ∈ state.imported) :
    state.spliced source path true = .ok () state := by
  rw [spliced, Bool.true_and, if_pos (List.contains_iff_mem.mpr before)]

variable (fresh : once = true → path.key ∉ state.imported)
include fresh

theorem spliced_of_fresh : state.spliced source path once =
    match source.load path with
    | .ok text => .ok () ((state.noted once path.key).enqueue path.text text)
    | .error error => .error (.sourceUnavailable path error) (state.noted once path.key) := by
  rw [spliced, if_neg]
  intro again
  obtain ⟨only, listed⟩ := Bool.and_eq_true_iff.mp again
  exact fresh only (List.contains_iff_mem.mp listed)

end Spliced

/-! ## Turns -/

/-- A line that is taken off the queue and read, and the state in which this happens. -/
structure Turn where
  source : Source
  line : LogicalLine
  state : Assembler

namespace Turn

/-- The turn of a line that is taken off the queue. -/
abbrev next (source : Source) (start : Assembler) (line : LogicalLine) (rest : List LogicalLine) :
    Turn :=
  ⟨source, line, { start with queue := rest }⟩

/-- What reading the line comes to. -/
def outcome (turn : Turn) : EStateM.Result StatementError Assembler Unit :=
  readLine turn.source turn.line turn.state

/-- What the line asks to be spliced in, if reading gets that far: whether only once, and the path
of the text. -/
def asks? (turn : Turn) : Option (Bool × Path) :=
  match turn.line.splicing?, readLabel turn.line turn.state with
  | some (once, operand), .ok _ labelled =>
      (labelled.scope.expand operand).toOption.map fun expanded =>
        (once, turn.source.resolve (String.ofList (unquote expanded)))
  | _, _ => none

variable {turn : Turn}

theorem asks?_of_label {once : Bool} {operand : List Char} {labelled : Assembler}
    (splicing : turn.line.splicing? = some (once, operand))
    (defined : readLabel turn.line turn.state = .ok () labelled) :
    turn.asks? = (labelled.scope.expand operand).toOption.map fun expanded =>
      (once, turn.source.resolve (String.ofList (unquote expanded))) := by
  rw [asks?, splicing, defined]

theorem splicing?_of_asks? {once : Bool} {path : Path} (asks : turn.asks? = some (once, path)) :
    ∃ operand, turn.line.splicing? = some (once, operand) := by
  rw [asks?] at asks
  split at asks
  · rename_i found operand label labelled splicing defined
    obtain ⟨expanded, known, same⟩ := Option.map_eq_some_iff.mp asks
    cases same
    exact ⟨operand, splicing⟩
  · cases asks

/-- **A line that gets as far as asking for a text splices it in.** -/
theorem outcome_of_asks {once : Bool} {path : Path} (asks : turn.asks? = some (once, path)) :
    ∃ labelled, readLabel turn.line turn.state = .ok () labelled ∧
      turn.outcome = labelled.spliced turn.source path once := by
  rw [asks?] at asks
  split at asks
  · rename_i found operand label labelled splicing defined
    obtain ⟨expanded, known, same⟩ := Option.map_eq_some_iff.mp asks
    cases same
    refine ⟨labelled, defined, ?_⟩
    rw [outcome, readLine_of_splicing splicing, run_bind_of_ok defined, run_get_bind]
    cases expands : labelled.scope.expand operand with
    | error failure =>
        rw [expands] at known
        cases known
    | ok text =>
        rw [expands] at known
        cases known
        exact splice_eq _ _ _ _
  · cases asks

/-- A line that does not get so far changes nothing about the queue. -/
theorem keeps_of_asks_none (asks : turn.asks? = none) :
    (finalState turn.outcome).queue = turn.state.queue ∧
      (finalState turn.outcome).imported = turn.state.imported := by
  cases splicing : turn.line.splicing? with
  | none => exact (ignoresQueue_readLine splicing).keeps turn.state
  | some found =>
      obtain ⟨once, operand⟩ := found
      have kept := (ignoresQueue_readLabel turn.line).keeps turn.state
      rw [outcome, readLine_of_splicing splicing]
      cases defined : readLabel turn.line turn.state with
      | error failure labelled =>
          rw [run_bind_of_error defined]
          rwa [defined] at kept
      | ok label labelled =>
          rw [asks?_of_label splicing defined] at asks
          rw [run_bind_of_ok defined, run_get_bind]
          rw [defined] at kept
          cases expands : labelled.scope.expand operand with
          | error failure => exact kept
          | ok text =>
              rw [expands] at asks
              cases asks

end Turn

/-- The lines that are read one after the other, at most a number of them. -/
def turns (source : Source) : Nat → Assembler → List Turn
  | 0, _ => []
  | limit + 1, start =>
      match start.queue with
      | [] => []
      | line :: rest =>
          let turn := Turn.next source start line rest
          match turn.outcome with
          | .ok _ after => turn :: turns source limit after
          | .error _ _ => [turn]

theorem readQueue_nil {start : Assembler} (limit : Nat) (done : start.queue = []) :
    readQueue source limit start = .ok () start := by
  cases limit with
  | zero =>
      rw [readQueue, run_get_bind, done]
      rfl
  | succ limit =>
      rw [readQueue, run_get_bind, done]
      rfl

section Turns

variable {limit : Nat} {start : Assembler} {rest : List LogicalLine}
  (waiting : start.queue = line :: rest)
include waiting

theorem readQueue_succ : readQueue source (limit + 1) start =
    match (Turn.next source start line rest).outcome with
    | .ok _ after => readQueue source limit after
    | .error error after => .error (.failed ⟨line.place, error⟩) after := by
  rw [readQueue, run_get_bind, waiting]
  cases read : (Turn.next source start line rest).outcome with
  | ok value after =>
      have step : readNext source line rest start = .ok () after := readAt_eq_ok.mpr read
      exact run_bind_of_ok step
  | error failure after =>
      have step : readNext source line rest start = .error (.failed ⟨line.place, failure⟩) after := by
        show readAt line.place (readLine source line) { start with queue := rest } = _
        rw [readAt, show readLine source line { start with queue := rest } = _ from read]
      exact run_bind_of_error step

theorem turns_succ : turns source (limit + 1) start =
    let turn := Turn.next source start line rest
    match turn.outcome with
    | .ok _ after => turn :: turns source limit after
    | .error _ _ => [turn] := by
  rw [turns, waiting]

end Turns

/-! ## Runs -/

/-- An assembly is decided by what reading the queue comes to. -/
theorem assembleAll_congr {source : Source} {start other : Assembler} {allowance more : Nat}
    (same : readQueue source (start.queue.length + allowance) start =
      readQueue source (other.queue.length + more) other) :
    assembleAll source allowance start = assembleAll source more other := by
  rw [assembleAll, assembleAll, run_get_bind, run_get_bind]
  simp only [bind, EStateM.bind, same]

/-- An action is never stopped for reading too many lines. -/
def Unlimited {α : Type} (action : Running α) : Prop :=
  ∀ state after, action state ≠ .error .lineLimit after

theorem unlimited_readAt {α : Type} (place : SourceLine) (reading : Reading α) :
    Unlimited (readAt place reading) := by
  intro state after stopped
  rw [readAt] at stopped
  split at stopped <;> cases stopped

theorem Unlimited.bind {α β : Type} {action : Running α} {next : α → Running β}
    (first : Unlimited action) (later : ∀ value, Unlimited (next value)) :
    Unlimited (action >>= next) := by
  intro state after stopped
  cases step : action state with
  | ok value between =>
      rw [run_bind_of_ok step] at stopped
      exact later value between after stopped
  | error failure between =>
      rw [run_bind_of_error step] at stopped
      cases stopped
      exact first state after step

theorem ignoresQueue_resolvePatch (patch : Patch) : IgnoresQueue (resolvePatch patch) := by
  intro state queue imported
  rw [resolvePatch, run_get_bind, run_get_bind, requeue_scope, requeue_code]
  cases state.scope.symbols.address? patch.label with
  | none => rfl
  | some address =>
      dsimp only
      cases checkRange address.toNat 0 Scope.greatestImmediate with
      | error failure => rfl
      | ok value =>
          simp only [ofExcept, bind, EStateM.bind, pure, EStateM.pure]
          cases state.code.patchImmediate patch.layout patch.format (UInt16.ofInt value) <;> rfl

theorem ignoresQueue_resolvePatches (patches : List Patch) :
    IgnoresQueue (resolvePatches patches) := by
  induction patches with
  | nil => exact .pure _
  | cons patch rest ih =>
      exact (ignoresQueue_readAt (ignoresQueue_resolvePatch patch)).bind fun _ => ih

theorem ignoresQueue_resolveAll : IgnoresQueue resolveAll := by
  intro state queue imported
  exact ignoresQueue_resolvePatches state.patches.toList { state with patches := #[] } queue imported

theorem ignoresQueue_takeCode : IgnoresQueue takeCode :=
  fun _ _ _ => rfl

theorem unlimited_resolveAll : Unlimited resolveAll := by
  intro state after stopped
  have resolves : ∀ patches, Unlimited (resolvePatches patches) := by
    intro patches
    induction patches with
    | nil => exact fun _ _ => nofun
    | cons patch rest ih => exact (unlimited_readAt _ _).bind fun _ => ih
  exact resolves state.patches.toList _ _ stopped

theorem unlimited_takeCode : Unlimited takeCode :=
  fun _ _ => nofun

end Assembler
end WordMachine
