import WordMachine.Proofs.Flattening

/-!
# Lines that are wrong

A line that turns out to be wrong leaves almost nothing behind (`Assembler.Traceless`). Its label is
defined before its statement is read, so the label stays unless it was the label that was wrong.
Nearly every statement is checked as a whole before it changes anything (`Assembler.Atomic`). There
are two that are not: `.EMIT` has emitted the bytes before the wrong operand by then, and `.IMPORT`
has made its path count as imported.

So an assembly that failed can simply go on. Assembling what is left of the queue comes to the same
as if the line had held nothing but its label, or nothing at all if the label was wrong
(`Assembler.error_leaves_no_trace`).
-/

set_option autoImplicit false

namespace WordMachine

open Assembly

/-! ## Labels -/

namespace Assembly.LogicalLine

/-- The label of a line, if it has one. -/
def label? (line : LogicalLine) : Option (List Char) :=
  (splitLabel (stripComment line.text)).1

/-- The directive that a line carries out, if it asks for one. -/
def directive? (line : LogicalLine) : Option Directive :=
  Directive.ofName? (String.ofList (Text.upper line.words.1))

/-- What is wrong with the label of a line, given the labels so far. -/
def labelFault? (line : LogicalLine) (symbols : SymbolTable) : Option StatementError :=
  line.label?.bind fun label =>
    if isIdentifier label then
      (symbols.address? (String.ofList label)).map fun _ => .labelRedefinition (String.ofList label)
    else
      some (.illegalLabel (String.ofList label))

/-- What a line adds to the labels: its label, unless something is wrong with that. -/
def entry? (line : LogicalLine) (state : Assembler) : Option (String × UInt32) :=
  match line.labelFault? state.scope.symbols with
  | none => line.label?.map fun label => (String.ofList label, state.cursor)
  | some _ => none

end Assembly.LogicalLine

namespace Assembler

variable {source : Source} {line : LogicalLine} {state after : Assembler}
  {failure : StatementError}

/-- The state with the label of a line among the symbols. -/
def labelled (state : Assembler) (line : LogicalLine) : Assembler :=
  state.withSymbols ⟨(line.entry? state).toList ++ state.scope.symbols.definitions⟩

theorem labelled_of_fault (fault : line.labelFault? state.scope.symbols = some failure) :
    state.labelled line = state := by
  rw [labelled, LogicalLine.entry?, fault]
  rfl

/-- **A label is defined unless something is wrong with it**, and then nothing changes. -/
theorem readLabel_eq (line : LogicalLine) (state : Assembler) :
    readLabel line state =
      match line.labelFault? state.scope.symbols with
      | none => .ok () (state.labelled line)
      | some failure => .error failure state := by
  rw [labelled, LogicalLine.entry?, LogicalLine.labelFault?]
  cases named : line.label? with
  | none =>
      rw [readLabel, show (splitLabel (stripComment line.text)).1 = none from named]
      rfl
  | some label =>
      rw [readLabel, show (splitLabel (stripComment line.text)).1 = some label from named]
      show defineLabel label state = _
      rw [defineLabel, run_get_bind, Option.bind_some]
      cases isIdentifier label with
      | false => rfl
      | true =>
          cases known : state.scope.symbols.address? (String.ofList label) with
          | none =>
              simp only [SymbolTable.define, known]
              rfl
          | some address =>
              simp only [SymbolTable.define, known]
              rfl

theorem readLabel_of_clear (clear : line.labelFault? state.scope.symbols = none) :
    readLabel line state = .ok () (state.labelled line) := by
  rw [readLabel_eq, clear]

theorem readLine_of_fault (fault : line.labelFault? state.scope.symbols = some failure) :
    readLine source line state = .error failure state := by
  rw [readLine_eq]
  apply run_bind_of_error
  rw [readLabel_eq, fault]

/-- If nothing is wrong with the label, what is left is the statement. -/
theorem readLine_of_clear (clear : line.labelFault? state.scope.symbols = none) :
    readLine source line state =
      readStatement source line.place (splitLabel (stripComment line.text)).2
        (state.labelled line) := by
  rw [readLine_eq]
  exact run_bind_of_ok (readLabel_of_clear clear)

/-! ## Statements that are checked first -/

/-- An error leaves the state as it was. -/
def Atomic {α : Type} (action : Reading α) : Prop :=
  ∀ state failure after, action state = .error failure after → after = state

namespace Atomic

variable {α β : Type}

theorem pure (value : α) : Atomic (pure value : Reading α) := by
  intro state failure after failed
  cases failed

theorem throw (failure : StatementError) : Atomic (throw failure : Reading α) := by
  intro state other after failed
  cases failed
  rfl

theorem modify (change : Assembler → Assembler) : Atomic (modify change : Reading Unit) := by
  intro state failure after failed
  cases failed

/-- Reading the state changes nothing. -/
theorem get_bind {next : Assembler → Reading β} (later : ∀ state, Atomic (next state)) :
    Atomic (get >>= next) := by
  intro state failure after failed
  rw [run_get_bind] at failed
  exact later state state failure after failed

/-- Interpreting operands changes nothing. -/
theorem scoped_bind (read : Scope → Except StatementError α) {next : α → Reading β}
    (later : ∀ value, Atomic (next value)) :
    Atomic (do
      let value ← ofExcept (read (← get).scope)
      next value) := by
  refine get_bind fun assembler => ?_
  intro state failure after failed
  cases interpreted : read assembler.scope with
  | error other =>
      rw [interpreted] at failed
      cases failed
      rfl
  | ok value =>
      rw [interpreted] at failed
      exact later value state failure after failed

theorem constant_bind {text : List Char} {least greatest : Int} {next : Int → Reading β}
    (later : ∀ value, Atomic (next value)) : Atomic (constant text least greatest >>= next) :=
  scoped_bind (fun scope => scope.constant text least greatest) later

end Atomic

theorem atomic_defineMacro (name text : List Char) : Atomic (defineMacro name text) := by
  refine .get_bind fun state => ?_
  split
  · exact .throw _
  · split
    · exact .throw _
    · exact .modify fun _ => _

theorem atomic_fillTo (target : Nat) : Atomic (fillTo target) := by
  refine .get_bind fun state => ?_
  dsimp only
  split
  · exact .throw _
  · exact .modify _

theorem atomic_alignTo (alignment : Nat) : Atomic (alignTo alignment) := by
  rw [alignTo]
  split
  · exact .throw _
  · exact .get_bind fun state => .modify _

/-- Including a text leaves no mark if the text is not there. -/
theorem atomic_splice_false (source : Source) (name : String) :
    Atomic (splice source name false) := by
  intro state failure after failed
  rw [splice_eq, spliced] at failed
  simp only [Bool.false_and, Bool.false_eq_true, if_false] at failed
  split at failed
  · cases failed
  · cases failed
    rfl

theorem atomic_direct {source : Source} {name : String} {operands : List (List Char)}
    (emits : Directive.ofName? name ≠ some .data)
    (imports : Directive.ofName? name ≠ some (.splice true)) :
    Atomic (direct source name operands) := by
  unfold direct
  split
  · exact atomic_defineMacro _ _
  · exact .throw _
  · exact .throw _
  · rename_i directive _
    exact absurd directive emits
  · exact .modify _
  · exact .constant_bind fun origin => .modify _
  · exact .constant_bind fun target => atomic_fillTo _
  · exact .constant_bind fun alignment => atomic_alignTo _
  · rename_i once file directive
    cases once with
    | false =>
        exact .scoped_bind (fun scope => scope.expand file) fun expanded =>
          atomic_splice_false source _
    | true => exact absurd directive imports
  · exact .throw _
  · exact .throw _

theorem atomic_emit (place : SourceLine) (emission : Emission) : Atomic (emit place emission) := by
  rw [emit]
  cases emission.instruction.encoding with
  | error failure => exact .throw _
  | ok encoding => exact .modify _

/-- **A statement that is neither `.EMIT` nor `.IMPORT` is all or nothing.** -/
theorem atomic_readStatement {place : SourceLine} {statement : List Char}
    (emits : Directive.ofName? (String.ofList (Text.upper (splitStatement statement).1)) ≠
      some .data)
    (imports : Directive.ofName? (String.ofList (Text.upper (splitStatement statement).1)) ≠
      some (.splice true)) :
    Atomic (readStatement source place statement) := by
  rw [readStatement]
  rcases words : splitStatement statement with ⟨mnemonic, operands⟩
  rw [words] at emits imports
  dsimp only
  split
  · exact .pure _
  · split
    · exact atomic_direct emits imports
    · exact .scoped_bind (fun scope => scope.statement _ _) fun emission =>
        atomic_emit place emission

/-! ## Statements that are carried out bit by bit -/

end Assembler

/-- The bytes that operands stand for, up to the first that is no byte. -/
def Assembly.Scope.leadingBytes (scope : Scope) : List (List Char) → List UInt8
  | [] => []
  | operand :: rest =>
      match scope.constant operand Directive.leastByte Directive.greatestByte with
      | .ok value => UInt8.ofInt value :: scope.leadingBytes rest
      | .error _ => []

namespace Assembler

variable {source : Source} {line : LogicalLine} {state after : Assembler}
  {failure : StatementError} {operands : List (List Char)}

/-- Data is emitted up to the first operand that is no byte. -/
theorem emitData_error (failed : emitData operands state = .error failure after) :
    after = { state with code := state.code.append (state.scope.leadingBytes operands) } := by
  induction operands generalizing state with
  | nil => cases failed
  | cons operand rest ih =>
      rw [Scope.leadingBytes]
      have first : constant operand Directive.leastByte Directive.greatestByte state =
          ofExcept (state.scope.constant operand Directive.leastByte Directive.greatestByte)
            state := rfl
      cases read : state.scope.constant operand Directive.leastByte Directive.greatestByte with
      | error other =>
          rw [read] at first
          rw [emitData, run_bind_of_error first] at failed
          cases failed
          simp only [Code.append_nil]
      | ok value =>
          rw [read] at first
          rw [emitData, run_bind_of_ok first] at failed
          have emitted := @ih { state with code := state.code.emitByte (UInt8.ofInt value) } failed
          rw [emitted]
          simp only [Code.emitByte_eq_append, Code.append_append, List.singleton_append]

/-- An import that fails may leave its path among the imported ones. -/
theorem import_error {name : String} (imports : Directive.ofName? name = some (.splice true))
    (failed : direct source name operands state = .error failure after) :
    ∃ imported, after = { state with imported } := by
  rcases operands with _ | ⟨file, _ | ⟨second, rest⟩⟩
  · simp only [direct, imports] at failed
    cases failed
    exact ⟨state.imported, rfl⟩
  · simp only [direct, imports] at failed
    rw [run_get_bind] at failed
    cases expands : state.scope.expand file with
    | error other =>
        rw [expands] at failed
        cases failed
        exact ⟨state.imported, rfl⟩
    | ok expanded =>
        rw [expands] at failed
        have splices : state.spliced source (source.resolve (String.ofList (unquote expanded))) true =
            .error failure after := (splice_eq _ _ _ _).symm.trans failed
        rw [spliced] at splices
        split at splices
        · cases splices
        · split at splices
          · cases splices
          · cases splices
            exact ⟨_, rfl⟩
  · simp only [direct, imports] at failed
    cases failed
    exact ⟨state.imported, rfl⟩

theorem data_error {name : String} (emits : Directive.ofName? name = some .data)
    (failed : direct source name operands state = .error failure after) :
    after = { state with code := state.code.append (state.scope.leadingBytes operands) } := by
  cases operands with
  | nil =>
      simp only [direct, emits] at failed
      cases failed
      simp only [Scope.leadingBytes, Code.append_nil]
  | cons operand rest =>
      simp only [direct, emits] at failed
      exact emitData_error failed

end Assembler

/-! ## What an error leaves -/

/-- The bytes that a line has emitted when it turns out to be wrong. Only `.EMIT` has emitted any. -/
def Assembly.LogicalLine.leadingBytes (line : LogicalLine) (state : Assembler) : List UInt8 :=
  match line.directive?, line.labelFault? state.scope.symbols with
  | some .data, none => (state.labelled line).scope.leadingBytes line.words.2
  | _, _ => []

namespace Assembler

/-- All that a wrong line leaves is its label, the bytes before a wrong operand of `.EMIT`, and
perhaps the path of an `.IMPORT`. -/
structure Traceless (line : LogicalLine) (before after : Assembler) : Prop where
  origin : after.origin = before.origin
  macros : after.scope.macros = before.scope.macros
  patches : after.patches = before.patches
  queue : after.queue = before.queue
  warnings : after.warnings = before.warnings
  symbols : after.scope.symbols.definitions =
    (line.entry? before).toList ++ before.scope.symbols.definitions
  imported : line.directive? ≠ some (.splice true) → after.imported = before.imported
  code : after.code = before.code.append (line.leadingBytes before)

section Errors

variable {source : Source} {line : LogicalLine} {state after : Assembler}
  {failure : StatementError} (failed : readLine source line state = .error failure after)
include failed

/-- **Other lines leave nothing but their label.** -/
theorem eq_labelled_of_error (emits : line.directive? ≠ some .data)
    (imports : line.directive? ≠ some (.splice true)) : after = state.labelled line := by
  cases fault : line.labelFault? state.scope.symbols with
  | some other =>
      rw [readLine_of_fault fault] at failed
      cases failed
      exact (labelled_of_fault fault).symm
  | none =>
      rw [readLine_of_clear fault] at failed
      exact atomic_readStatement emits imports _ _ _ failed

theorem traceless_of_error : Traceless line state after := by
  cases fault : line.labelFault? state.scope.symbols with
  | some other =>
      have nothing : line.leadingBytes state = [] := by
        rw [LogicalLine.leadingBytes, fault]
        cases line.directive? with
        | none => rfl
        | some directive => cases directive <;> rfl
      rw [readLine_of_fault fault] at failed
      cases failed
      refine ⟨rfl, rfl, rfl, rfl, rfl, ?_, fun _ => rfl, ?_⟩
      · rw [LogicalLine.entry?, fault]
        rfl
      · rw [nothing, Code.append_nil]
  | none =>
      by_cases emits : line.directive? = some .data
      · rw [readLine_of_clear fault, readStatement_of_directive emits] at failed
        rw [data_error emits failed]
        refine ⟨rfl, rfl, rfl, rfl, rfl, rfl, fun _ => rfl, ?_⟩
        rw [LogicalLine.leadingBytes, emits, fault]
        rfl
      · have nothing : line.leadingBytes state = [] := by
          rw [LogicalLine.leadingBytes]
          split
          · rename_i data _
            exact absurd data emits
          · rfl
        by_cases imports : line.directive? = some (.splice true)
        · rw [readLine_of_clear fault, readStatement_of_directive imports] at failed
          obtain ⟨imported, rfl⟩ := import_error imports failed
          refine ⟨rfl, rfl, rfl, rfl, rfl, rfl, fun other => absurd imports other, ?_⟩
          rw [nothing, Code.append_nil]
          rfl
        · rw [eq_labelled_of_error failed emits imports]
          refine ⟨rfl, rfl, rfl, rfl, rfl, rfl, fun _ => rfl, ?_⟩
          rw [nothing, Code.append_nil]
          rfl

end Errors

/-! ## Going on after an error -/

/-- The state with more lines behind those that wait. -/
def followedBy (state : Assembler) (tail : List LogicalLine) : Assembler :=
  { state with queue := state.queue ++ tail }

section Behind

variable {α : Type} {source : Source} {line : LogicalLine} {state after : Assembler}
  {tail : List LogicalLine}

theorem IgnoresQueue.followedBy {action : Reading α} {value : α} (ignores : IgnoresQueue action)
    (done : action state = .ok value after) :
    action (state.followedBy tail) = .ok value (after.followedBy tail) := by
  obtain ⟨queue, imported⟩ := ignores.keeps_ok done
  have moved := ignores state (state.queue ++ tail) state.imported
  rw [done] at moved
  rw [Assembler.followedBy, Assembler.followedBy, queue]
  exact moved.trans (by rw [requeued, requeue, imported])

theorem spliced_followedBy {path : Path} {once : Bool}
    (done : state.spliced source path once = .ok () after) :
    (state.followedBy tail).spliced source path once = .ok () (after.followedBy tail) := by
  have imported : (state.followedBy tail).imported = state.imported := rfl
  rw [spliced, imported]
  rw [spliced] at done
  split
  · rename_i again
    rw [if_pos again] at done
    cases done
    rfl
  · rename_i fresh
    rw [if_neg fresh] at done
    cases loads : source.load path with
    | error failure =>
        rw [loads] at done
        cases done
    | ok text =>
        rw [loads] at done
        cases done
        simp only [noted, enqueue, Assembler.followedBy, List.append_assoc]

/-- What waits at the end of the queue makes no difference to a line. -/
theorem readLine_followedBy (done : readLine source line state = .ok () after) :
    readLine source line (state.followedBy tail) = .ok () (after.followedBy tail) := by
  cases splicing : line.splicing? with
  | none => exact (ignoresQueue_readLine splicing).followedBy done
  | some asked =>
      obtain ⟨once, operand⟩ := asked
      rw [readLine_of_splicing splicing] at done ⊢
      obtain ⟨_, labelled, defined, splices⟩ := run_bind_eq_ok.mp done
      have scope : (labelled.followedBy tail).scope = labelled.scope := rfl
      rw [run_bind_of_ok ((ignoresQueue_readLabel line).followedBy defined), run_get_bind, scope]
      rw [run_get_bind] at splices
      cases expands : labelled.scope.expand operand with
      | error failure =>
          rw [expands] at splices
          cases splices
      | ok expanded =>
          rw [expands] at splices
          have spliced := (splice_eq _ _ _ _).symm.trans splices
          exact (splice_eq _ _ _ _).trans (spliced_followedBy spliced)

/-- The lines that wait stay, behind those that a line splices in. -/
theorem suffix_queue (done : readLine source line state = .ok () after) :
    state.queue <:+ after.queue := by
  let turn : Turn := ⟨source, line, state⟩
  have outcome : turn.outcome = .ok () after := done
  cases asks : turn.asks? with
  | none =>
      have kept := (Turn.keeps_of_asks_none asks).1
      rw [outcome] at kept
      exact kept ▸ List.suffix_refl _
  | some asked =>
      obtain ⟨labelled, defined, splices⟩ := Turn.outcome_of_asks asks
      have kept := ((ignoresQueue_readLabel line).keeps_ok defined).1
      rw [outcome, spliced] at splices
      rw [← kept]
      split at splices
      · cases splices
        exact List.suffix_refl _
      · split at splices
        · cases splices
          exact List.suffix_append _ _
        · cases splices

/-- **Lines are read in the same way whatever waits behind them.** It takes as many lines of the
limit as there are, those that they splice in included. -/
theorem readQueue_followedBy {limit : Nat} {start final : Assembler}
    (run : readQueue source limit start = .ok () final) :
    ∃ spliced, ∀ tail more,
      readQueue source (start.queue.length + spliced + more) (start.followedBy tail) =
        readQueue source more (final.followedBy tail) := by
  induction limit generalizing start with
  | zero =>
      have done : start.queue = [] := by
        by_contra left
        rw [readQueue, run_get_bind, if_pos left] at run
        cases run
      rw [readQueue_nil _ done] at run
      cases run
      exact ⟨0, fun tail more => by rw [done, List.length_nil, Nat.zero_add]⟩
  | succ limit ih =>
      cases waiting : start.queue with
      | nil =>
          rw [readQueue_nil _ waiting] at run
          cases run
          exact ⟨0, fun tail more => by rw [List.length_nil, Nat.zero_add]⟩
      | cons line rest =>
          rw [readQueue_succ waiting] at run
          cases outcome : (Turn.next source start line rest).outcome with
          | error failure after =>
              rw [outcome] at run
              cases run
          | ok value between =>
              rw [outcome] at run
              obtain ⟨later, behind⟩ := ih run
              obtain ⟨lines, grown⟩ := suffix_queue outcome
              refine ⟨lines.length + later, fun tail more => ?_⟩
              have next : (start.followedBy tail).queue = line :: (rest ++ tail) :=
                congrArg (· ++ tail) waiting
              have same : (Turn.next source (start.followedBy tail) line (rest ++ tail)).outcome =
                  .ok () (between.followedBy tail) := readLine_followedBy outcome
              have count : (line :: rest).length + (lines.length + later) + more =
                  between.queue.length + later + more + 1 := by
                rw [← grown, List.length_cons, List.length_append]
                show rest.length + 1 + (lines.length + later) + more =
                  lines.length + rest.length + later + more + 1
                omega
              rw [count, readQueue_succ next, same]
              exact behind tail more

end Behind

end Assembler

/-! ## Assembling again -/

/-- What may stay of a wrong line: its label, or nothing if the label was wrong. -/
def Assembly.LogicalLine.repaired (line : LogicalLine) (symbols : SymbolTable) : LogicalLine :=
  match line.labelFault? symbols with
  | none => line.labelOnly
  | some _ => { line with text := [] }

namespace Assembler

variable {source : Source} {line : LogicalLine} {state after : Assembler}
  {failure : StatementError}

theorem readLine_repaired (source : Source) (line : LogicalLine) (state : Assembler) :
    readLine source (line.repaired state.scope.symbols) state = .ok () (state.labelled line) := by
  rw [LogicalLine.repaired]
  cases fault : line.labelFault? state.scope.symbols with
  | none =>
      dsimp only
      rw [readLine_labelOnly, readLabel_of_clear fault]
  | some failure =>
      rw [labelled_of_fault fault]
      rfl

/-- An assembly goes on after a line that is right. -/
theorem assembleAll_of_readLine {allowance : Nat}
    (done : readLine source line state = .ok () after) (kept : after.queue = state.queue) :
    assembleAll source allowance { state with queue := line :: state.queue } =
      assembleAll source allowance after := by
  let start : Assembler := { state with queue := line :: state.queue }
  have waiting : start.queue = line :: state.queue := rfl
  have outcome : (Turn.next source start line state.queue).outcome = .ok () after := done
  have count : start.queue.length + allowance = after.queue.length + allowance + 1 := by
    rw [kept, waiting, List.length_cons]
    omega
  apply assembleAll_congr
  rw [count, readQueue_succ waiting, outcome]

/-- **An error leaves no trace.** A wrong line leaves its label, unless the label was wrong, and
`.EMIT` leaves the bytes of the operands before the wrong one. An `.IMPORT` may leave its path.

After any other line it makes no difference that there was an error: assembling again comes to the
same as assembling the line with nothing but its label where it stood. This is so seen from where
the line was read, and also from the start of the call that came to the line: there the call fails,
and what assembling again comes to is what it would have come to at once. -/
theorem error_leaves_no_trace (failed : readLine source line state = .error failure after) :
    Traceless line state after ∧
      (line.directive? ≠ some .data → line.directive? ≠ some (.splice true) →
        let repaired := line.repaired state.scope.symbols
        (∀ (again : Source) (allowance : Nat),
          assembleAll again allowance after =
            assembleAll again allowance { state with queue := repaired :: state.queue }) ∧
        ∀ (start : Assembler) (limit : Nat),
          readQueue source limit start = .ok () { state with queue := [] } →
          ∃ spliced, ∀ allowance,
            assembleAll source (spliced + allowance) (start.followedBy (line :: state.queue)) =
                .error (.failed ⟨line.place, failure⟩) after ∧
              assembleAll source (spliced + allowance)
                  (start.followedBy (repaired :: state.queue)) =
                assembleAll source allowance after) := by
  refine ⟨traceless_of_error failed, fun emits imports => ?_⟩
  have left := eq_labelled_of_error failed emits imports
  have repairs : ∀ (again : Source) (allowance : Nat),
      assembleAll again allowance after =
        assembleAll again allowance
          { state with queue := line.repaired state.scope.symbols :: state.queue } := by
    intro again allowance
    rw [left]
    exact (assembleAll_of_readLine (readLine_repaired again line state) rfl).symm
  refine ⟨repairs, fun start limit ahead => ?_⟩
  obtain ⟨spliced, behind⟩ := readQueue_followedBy ahead
  -- Of the limit there is left, where the line is read, what waits there and the allowance.
  have reaches : ∀ (first : LogicalLine) (allowance : Nat),
      readQueue source
          ((start.followedBy (first :: state.queue)).queue.length + (spliced + allowance))
          (start.followedBy (first :: state.queue)) =
        readQueue source (state.queue.length + allowance + 1)
          { state with queue := first :: state.queue } := by
    intro first allowance
    have count : (start.followedBy (first :: state.queue)).queue.length + (spliced + allowance) =
        start.queue.length + spliced + (state.queue.length + allowance + 1) := by
      rw [followedBy, List.length_append, List.length_cons]
      omega
    rw [count, behind]
    rfl
  refine ⟨spliced, fun allowance => ⟨?_, ?_⟩⟩
  · let here : Assembler := { state with queue := line :: state.queue }
    have outcome : (Turn.next source here line state.queue).outcome = .error failure after := failed
    have waiting : here.queue = line :: state.queue := rfl
    have stopped : readQueue source
        ((start.followedBy (line :: state.queue)).queue.length + (spliced + allowance))
        (start.followedBy (line :: state.queue)) = .error (.failed ⟨line.place, failure⟩) after := by
      rw [reaches, readQueue_succ waiting, outcome]
    rw [assembleAll, run_get_bind]
    exact run_bind_of_error stopped
  · rw [repairs source allowance]
    apply assembleAll_congr
    rw [reaches, List.length_cons]
    congr 1
    omega

/-- A text that includes another one and then goes wrong. -/
def alignedToNothing : Assembler :=
  initial.enqueue "main" "first: .INCLUDE b"

/-- The line that goes wrong. -/
def wrongLine : LogicalLine :=
  ⟨⟨"main", 2⟩, "second: .ALIGN 0".toList⟩

/-- What waits behind the wrong line, and the state in which that is read. -/
def wrongState : Assembler :=
  { finalState (readQueue sharedTexts.toSource 2 alignedToNothing) with
    queue := [⟨⟨"main", 3⟩, "RET second".toList⟩] }

theorem error_leaves_no_trace_wrongLine :
    ∃ after, readLine sharedTexts.toSource wrongLine wrongState = .error .zeroAlignment after ∧
      Traceless wrongLine wrongState after ∧
      ∃ spliced, ∀ allowance,
        assembleAll sharedTexts.toSource (spliced + allowance)
            (alignedToNothing.followedBy (wrongLine :: wrongState.queue)) =
          .error (.failed ⟨⟨"main", 2⟩, .zeroAlignment⟩) after ∧
        assembleAll sharedTexts.toSource (spliced + allowance)
            (alignedToNothing.followedBy (wrongLine.labelOnly :: wrongState.queue)) =
          assembleAll sharedTexts.toSource allowance after := by
  have fails : failure? (readLine sharedTexts.toSource wrongLine wrongState) =
      some .zeroAlignment := by decide +kernel
  have arrives : passes (fun _ _ => true) (readQueue sharedTexts.toSource 2 alignedToNothing) =
      true := by decide +kernel
  obtain ⟨after, failed⟩ := exists_of_failure? fails
  obtain ⟨_, arrived, ahead, -⟩ := exists_of_passes arrives
  have there : { wrongState with queue := [] } = arrived := by
    have done := queue_of_readQueue ahead
    rw [wrongState, ahead]
    cases arrived
    cases done
    rfl
  have whole := error_leaves_no_trace failed
  have repaired : wrongLine.repaired wrongState.scope.symbols = wrongLine.labelOnly := by
    decide +kernel
  rw [repaired] at whole
  refine ⟨after, failed, whole.1, ?_⟩
  exact (whole.2 (by decide +kernel) (by decide +kernel)).2 alignedToNothing 2 (there ▸ ahead)

end Assembler
end WordMachine
