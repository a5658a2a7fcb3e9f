import WordMachine.Proofs.FailedLines

/-!
# What lines add

A line that is read without an error appends bytes to the code, and it may define a label, set the
origin and leave a patch (`Assembler.Turn.Adds`). Whatever else it does has no influence on what is
assembled from the lines before it.

Lines that are read one after the other (`Assembler.Runs`) add up: the code is what each of them has
emitted, the origin is the one that was set last, and no label changes its address.
-/

set_option autoImplicit false

namespace WordMachine

open Assembly

/-- The names of directives are no mnemonics. -/
theorem Assembly.LogicalLine.directive?_of_form {line : LogicalLine} {form : Form}
    (named : Form.ofMnemonic? (String.ofList (Text.upper line.words.1)) = some form) :
    line.directive? = none := by
  have undotted := Form.undotted_of_ofMnemonic? named
  cases asks : line.directive? with
  | none => rfl
  | some directive =>
      rw [Form.Undotted, Assembler.head?_of_ofName? asks] at undotted
      cases undotted

namespace Assembler

/-! ## One line -/

namespace Turn

/-- What the line states, if it states an instruction. -/
def emission? (turn : Turn) : Option Emission :=
  ((turn.state.labelled turn.line).scope.statement
    (String.ofList (Text.upper turn.line.words.1)) turn.line.words.2).toOption

/-- The bytes that reading the line appends to the code. -/
def emitted (turn : Turn) : List UInt8 :=
  (finalState turn.outcome).code.bytes.toList.drop turn.state.code.size

/-- The origin that the line sets, if it sets one. -/
def origin? (turn : Turn) : Option UInt32 :=
  match turn.line.directive?, turn.line.words.2 with
  | some .origin, [address] =>
      ((turn.state.labelled turn.line).scope.constant address 0
        Directive.greatestAddress).toOption.map UInt32.ofInt
  | _, _ => none

/-- The patch that the line leaves, if its instruction waits for a label. -/
def waiting? (turn : Turn) : Option Patch :=
  turn.emission?.bind fun emission => emission.forward.map fun label =>
    { label
      layout := Layout.ofEncoding turn.state.code.size emission.instruction.canonicalEncoding
      format := emission.instruction.opcode.format
      place := turn.line.place }

variable {turn : Turn} {after : Assembler}

theorem emitted_of_append (done : turn.outcome = .ok () after) {bytes : List UInt8}
    (code : after.code = turn.state.code.append bytes) : turn.emitted = bytes := by
  rw [emitted, done, finalState, code, Code.toList_append, Code.size, ← Array.length_toList,
    List.drop_left]

/-- What a line that is right adds to the state. -/
structure Adds (turn : Turn) (after : Assembler) : Prop where
  code : after.code = turn.state.code.append turn.emitted
  patches : after.patches.toList = turn.state.patches.toList ++ turn.waiting?.toList
  origin : after.origin = turn.origin?.getD turn.state.origin
  symbols : after.scope.symbols.definitions =
    (turn.line.entry? turn.state).toList ++ turn.state.scope.symbols.definitions

/-- A line that is right has a label that is right. -/
theorem labelFault?_of_ok (done : turn.outcome = .ok () after) :
    turn.line.labelFault? turn.state.scope.symbols = none := by
  cases fault : turn.line.labelFault? turn.state.scope.symbols with
  | none => rfl
  | some failure =>
      rw [outcome, readLine_of_fault fault] at done
      cases done

theorem readStatement_of_ok (done : turn.outcome = .ok () after) :
    readStatement turn.source turn.line.place (splitLabel (stripComment turn.line.text)).2
      (turn.state.labelled turn.line) = .ok () after := by
  rw [outcome, readLine_of_clear (labelFault?_of_ok done)] at done
  exact done

theorem statement_of_emission? {emission : Emission} (states : turn.emission? = some emission) :
    (turn.state.labelled turn.line).scope.statement
      (String.ofList (Text.upper turn.line.words.1)) turn.line.words.2 = .ok emission := by
  rw [emission?] at states
  generalize (turn.state.labelled turn.line).scope.statement _ _ = given at states ⊢
  cases given with
  | error failure => cases states
  | ok found =>
      cases states
      rfl

/-- An instruction has the mnemonic of one. -/
theorem form_of_emission? {emission : Emission} (states : turn.emission? = some emission) :
    ∃ form, Form.ofMnemonic? (String.ofList (Text.upper turn.line.words.1)) = some form := by
  cases named : Form.ofMnemonic? (String.ofList (Text.upper turn.line.words.1)) with
  | some form => exact ⟨form, rfl⟩
  | none =>
      simp only [emission?, Scope.statement, named] at states
      cases states

theorem directive?_of_emission? {emission : Emission} (states : turn.emission? = some emission) :
    turn.line.directive? = none := by
  obtain ⟨form, named⟩ := form_of_emission? states
  exact LogicalLine.directive?_of_form named

theorem origin?_of_directive? (stays : turn.line.directive? ≠ some .origin) :
    turn.origin? = none := by
  rw [origin?]
  split
  · rename_i sets _
    exact absurd sets stays
  · rfl

/-- **An instruction is emitted where the code ends.** -/
theorem append_of_emission? (done : turn.outcome = .ok () after) {emission : Emission}
    (states : turn.emission? = some emission) :
    after = (turn.state.labelled turn.line).append turn.line.place emission
      emission.instruction.canonicalEncoding := by
  obtain ⟨form, named⟩ := form_of_emission? states
  have words : turn.line.words = (turn.line.words.1, turn.line.words.2) := rfl
  obtain ⟨found, given, appended⟩ := readStatement_ok words named (readStatement_of_ok done)
  rw [statement_of_emission? states] at given
  cases given
  exact appended

/-- What is no instruction is a directive or nothing at all. -/
theorem direct_of_no_emission (done : turn.outcome = .ok () after) (none : turn.emission? = none) :
    after = turn.state.labelled turn.line ∧ turn.line.directive? = Option.none ∨
      direct turn.source (String.ofList (Text.upper turn.line.words.1)) turn.line.words.2
        (turn.state.labelled turn.line) = .ok () after := by
  have read := readStatement_of_ok done
  rw [readStatement] at read
  rw [emission?, LogicalLine.words] at none
  rw [LogicalLine.directive?, LogicalLine.words]
  rcases words : splitStatement (splitLabel (stripComment turn.line.text)).2 with
    ⟨mnemonic, operands⟩
  rw [words] at read none
  dsimp only at read none ⊢
  split at read
  · rename_i nothing
    cases read
    rw [nothing]
    exact .inl ⟨rfl, rfl⟩
  · split at read
    · exact .inr read
    · rw [run_get_bind] at read
      cases given : (turn.state.labelled turn.line).scope.statement
          (String.ofList (Text.upper mnemonic)) operands with
      | ok emission =>
          rw [given] at none
          cases none
      | error failure =>
          rw [given] at read
          cases read

/-- Setting the origin changes nothing else. -/
theorem direct_origin {source : Source} {name : String} {operands : List (List Char)}
    {state after : Assembler} (sets : Directive.ofName? name = some .origin)
    (done : direct source name operands state = .ok () after) :
    ∃ address value, operands = [address] ∧
      state.scope.constant address 0 Directive.greatestAddress = .ok value ∧
      after = { state with origin := UInt32.ofInt value } := by
  rcases operands with _ | ⟨address, _ | ⟨second, rest⟩⟩ <;> simp only [direct, sets] at done
  · cases done
  · obtain ⟨value, between, read, moved⟩ := run_bind_eq_ok.mp done
    have known : ofExcept (state.scope.constant address 0 Directive.greatestAddress) state =
        .ok value between := read
    cases found : state.scope.constant address 0 Directive.greatestAddress with
    | error failure =>
        rw [found] at known
        cases known
    | ok other =>
        rw [found] at known
        cases known
        cases moved
        exact ⟨address, value, rfl, found, rfl⟩
  · cases done

theorem adds_of_emission? (done : turn.outcome = .ok () after) {emission : Emission}
    (states : turn.emission? = some emission) : turn.Adds after := by
  have appended := append_of_emission? done states
  have code : after.code =
      turn.state.code.append emission.instruction.canonicalEncoding.bytes := by
    rw [appended]
    rfl
  have stays : turn.line.directive? ≠ some .origin := by
    rw [directive?_of_emission? states]
    exact nofun
  refine ⟨?_, ?_, ?_, ?_⟩
  · rw [emitted_of_append done code, code]
  · rw [appended, waiting?, states, Option.bind_some, append, Array.toList_appendList]
    rfl
  · rw [origin?_of_directive? stays, appended]
    rfl
  · rw [appended]
    rfl

/-- A line that is no instruction adds bytes, and beside them only its label and its origin. -/
theorem adds_of_filled (done : turn.outcome = .ok () after) (none : turn.emission? = none)
    {bytes : List UInt8} (code : after.code = turn.state.code.append bytes)
    (patches : after.patches = turn.state.patches)
    (origin : after.origin = turn.origin?.getD turn.state.origin)
    (symbols : after.scope.symbols = (turn.state.labelled turn.line).scope.symbols) :
    turn.Adds after where
  code := by rw [emitted_of_append done code, code]
  patches := by
    rw [waiting?, none, patches]
    exact (List.append_nil _).symm
  origin := origin
  symbols := by
    rw [symbols]
    rfl

/-- **What a line adds.** -/
theorem adds_of_ok (done : turn.outcome = .ok () after) : turn.Adds after := by
  cases states : turn.emission? with
  | some emission => exact adds_of_emission? done states
  | none =>
      have bare : (turn.state.labelled turn.line).code = turn.state.code.append [] :=
        (Code.append_nil _).symm
      rcases direct_of_no_emission done states with ⟨rfl, undirected⟩ | directs
      · have stays : turn.line.directive? ≠ some .origin := by
          rw [undirected]
          exact nofun
        refine adds_of_filled done states bare rfl ?_ rfl
        rw [origin?_of_directive? stays]
        rfl
      · by_cases sets : turn.line.directive? = some .origin
        · obtain ⟨address, value, single, known, rfl⟩ := direct_origin sets directs
          refine adds_of_filled done states bare rfl ?_ rfl
          rw [origin?, sets, single]
          dsimp only
          rw [known]
          rfl
        · have fills := (fills_direct _ turn.source turn.line.words.2 sets).step_of_ok directs
          obtain ⟨bytes, code⟩ := fills.code
          refine adds_of_filled done states code fills.patches ?_ fills.symbols
          rw [origin?_of_directive? sets]
          exact fills.origin

theorem emitted_of_emission? (done : turn.outcome = .ok () after) {emission : Emission}
    (states : turn.emission? = some emission) :
    turn.emitted = emission.instruction.canonicalEncoding.bytes := by
  refine emitted_of_append done ?_
  rw [append_of_emission? done states]
  rfl

/-- What an instruction states can be emitted. -/
theorem sound_of_emission? {emission : Emission} (states : turn.emission? = some emission) :
    emission.Sound :=
  Scope.sound_of_statement (statement_of_emission? states)

/-- A label gets the address at which the code ended when its line was read. -/
theorem address?_of_label? (done : turn.outcome = .ok () after) {label : List Char}
    (named : turn.line.label? = some label) :
    after.scope.symbols.address? (String.ofList label) = some turn.state.cursor := by
  have entry : turn.line.entry? turn.state = some (String.ofList label, turn.state.cursor) := by
    rw [LogicalLine.entry?, labelFault?_of_ok done, named]
    rfl
  rw [SymbolTable.address?, (adds_of_ok done).symbols, entry]
  exact List.lookup_cons_self

/-- A label that is known cannot be defined again, and the line changes nothing. -/
theorem outcome_of_known {label : List Char} {address : UInt32}
    (named : turn.line.label? = some label) (legal : isIdentifier label = true)
    (known : turn.state.scope.symbols.address? (String.ofList label) = some address) :
    turn.outcome = .error (.labelRedefinition (String.ofList label)) turn.state := by
  refine readLine_of_fault ?_
  rw [LogicalLine.labelFault?, named, Option.bind_some, if_pos legal, known]
  rfl

end Turn

/-! ## Lines one after the other -/

/-- Lines that wait are read without an error one after the other, from one state to another. -/
inductive Runs (source : Source) : Assembler → List Turn → Assembler → Prop where
  | nil (state : Assembler) : Runs source state [] state
  | cons {start between final : Assembler} {line : LogicalLine} {rest : List LogicalLine}
      {row : List Turn} (waiting : start.queue = line :: rest)
      (done : (Turn.next source start line rest).outcome = .ok () between)
      (more : Runs source between row final) :
      Runs source start (Turn.next source start line rest :: row) final

/-- The origin after some lines, the latest that they have set. -/
def originAfter (origin : UInt32) (row : List Turn) : UInt32 :=
  (row.filterMap Turn.origin?).getLast?.getD origin

section Queue

variable {source : Source} {limit : Nat} {start final : Assembler} {earlier later : List Turn}
  {turn : Turn}

theorem runs_of_readQueue (run : readQueue source limit start = .ok () final) :
    Runs source start (turns source limit start) final := by
  induction limit generalizing start with
  | zero =>
      cases waiting : start.queue with
      | nil =>
          rw [readQueue_nil _ waiting] at run
          cases run
          exact .nil _
      | cons line rest =>
          have left : start.queue ≠ [] := by
            rw [waiting]
            exact List.cons_ne_nil _ _
          rw [readQueue, run_get_bind, if_pos left] at run
          cases run
  | succ limit ih =>
      cases waiting : start.queue with
      | nil =>
          rw [readQueue_nil _ waiting] at run
          cases run
          rw [turns, waiting]
          exact .nil _
      | cons line rest =>
          rw [readQueue_succ waiting] at run
          rw [turns_succ waiting]
          dsimp only
          cases outcome : (Turn.next source start line rest).outcome with
          | error failure after =>
              rw [outcome] at run
              cases run
          | ok value after =>
              rw [outcome] at run
              exact .cons waiting outcome (ih run)

/-- The lines before a line that is read have been read without an error. If the line is wrong,
reading ends with its error. -/
theorem runs_of_turns (whole : turns source limit start = earlier ++ turn :: later) :
    (∃ between rest, Runs source start earlier between ∧ between.queue = turn.line :: rest ∧
      turn = Turn.next source between turn.line rest) ∧
    ∀ {failure after}, turn.outcome = .error failure after →
      readQueue source limit start = .error (.failed ⟨turn.line.place, failure⟩) after := by
  induction limit generalizing start earlier with
  | zero => cases earlier <;> cases whole
  | succ limit ih =>
      cases waiting : start.queue with
      | nil =>
          rw [turns, waiting] at whole
          cases earlier <;> cases whole
      | cons line rest =>
          rw [turns_succ waiting] at whole
          rw [readQueue_succ waiting]
          dsimp only at whole
          cases outcome : (Turn.next source start line rest).outcome with
          | error failure after =>
              rw [outcome] at whole
              have single : earlier = [] ∧ turn = Turn.next source start line rest := by
                cases earlier with
                | nil => exact ⟨rfl, (List.cons.inj whole).1.symm⟩
                | cons first more => cases more <;> cases (List.cons.inj whole).2
              obtain ⟨rfl, rfl⟩ := single
              refine ⟨⟨start, rest, .nil _, waiting, rfl⟩, fun failed => ?_⟩
              rw [outcome] at failed
              cases failed
              rfl
          | ok value after =>
              rw [outcome] at whole
              dsimp only at whole
              cases earlier with
              | nil =>
                  obtain ⟨rfl, -⟩ := List.cons.inj whole
                  refine ⟨⟨start, rest, .nil _, waiting, rfl⟩, fun failed => ?_⟩
                  rw [outcome] at failed
                  cases failed
              | cons first more =>
                  obtain ⟨rfl, tail⟩ := List.cons.inj whole
                  obtain ⟨⟨between, others, runs, next⟩, stops⟩ := ih tail
                  exact ⟨⟨between, others, .cons waiting outcome runs, next⟩, stops⟩

end Queue

namespace Runs

variable {source : Source} {start final : Assembler} {row earlier later : List Turn} {turn : Turn}

theorem split (runs : Runs source start (earlier ++ later) final) :
    ∃ between, Runs source start earlier between ∧ Runs source between later final := by
  induction earlier generalizing start with
  | nil => exact ⟨start, .nil _, runs⟩
  | cons first rest ih =>
      cases runs with
      | cons waiting done more =>
          obtain ⟨between, front, back⟩ := ih more
          exact ⟨between, .cons waiting done front, back⟩

/-- **The code is what the lines have emitted.** -/
theorem code (runs : Runs source start row final) :
    final.code = start.code.append (row.flatMap Turn.emitted) := by
  induction runs with
  | nil state => exact (Code.append_nil _).symm
  | cons waiting done more ih =>
      rw [ih, (Turn.adds_of_ok done).code, Code.append_append, List.flatMap_cons]

/-- **The origin is the one that was set last.** -/
theorem origin (runs : Runs source start row final) :
    final.origin = originAfter start.origin row := by
  induction runs with
  | nil state => rfl
  | @cons start between final line rest row waiting done more ih =>
      rw [ih, originAfter, originAfter, (Turn.adds_of_ok done).origin]
      cases sets : (Turn.next source start line rest).origin? with
      | none => rw [List.filterMap_cons_none sets, Option.getD_none]
      | some origin =>
          rw [List.filterMap_cons_some sets, Option.getD_some, List.getLast?_cons,
            Option.getD_some]

theorem reads (runs : Runs source start row final) : Reads start final := by
  induction runs with
  | nil state => exact Reads.chains.refl _
  | @cons start between final line rest row waiting done more ih =>
      have moved : Reads start { start with queue := rest } := Reads.of_same rfl rfl rfl
      have line_reads := (ends_readLine { start with queue := rest } source line).step_of_ok done
      exact Reads.chains.trans moved (Reads.chains.trans line_reads ih)

/-- The labels are those that there were and those of the lines. -/
theorem definitions (runs : Runs source start row final) :
    final.scope.symbols.definitions =
      row.reverse.filterMap (fun turn => turn.line.entry? turn.state) ++
        start.scope.symbols.definitions := by
  induction runs with
  | nil state => rfl
  | @cons start between final line rest row waiting done more ih =>
      rw [ih, (Turn.adds_of_ok done).symbols, List.reverse_cons, List.filterMap_append,
        List.append_assoc]
      congr 1

/-- A line among those that are read was right. What has been read before it led to its state. -/
theorem visit (runs : Runs source start (earlier ++ turn :: later) final) :
    ∃ between rest after, Runs source start earlier between ∧
      turn = Turn.next source between turn.line rest ∧ turn.outcome = .ok () after ∧
      Runs source after later final := by
  obtain ⟨between, front, back⟩ := runs.split
  cases back with
  | @cons _ after _ line rest _ waiting done more =>
      exact ⟨between, rest, after, front, rfl, done, more⟩

/-- Each line that is read was right, and reading goes on from what it left. -/
theorem ok_of_mem (runs : Runs source start row final) (listed : turn ∈ row) :
    ∃ after, turn.outcome = .ok () after ∧ Reads after final := by
  obtain ⟨earlier, later, rfl⟩ := List.append_of_mem listed
  obtain ⟨between, rest, after, -, -, done, back⟩ := runs.visit
  exact ⟨after, done, back.reads⟩

end Runs

end Assembler
end WordMachine
