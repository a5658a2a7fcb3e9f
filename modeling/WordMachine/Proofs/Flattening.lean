import WordMachine.Proofs.LineLexing
import WordMachine.Proofs.Splicing

/-!
# Splicing is textual

Lines that splice in texts can be carried out on the text itself, before any of it is assembled. Each
of them is replaced by what is left of it, its label (`LogicalLine.labelOnly`), and by the lines of
the text that it names, in which the same is done again. An import is so replaced only if it is the
first of its path; any later one leaves nothing but its label. This takes a list of lines to a *flat*
one (`Assembly.Flattens`), unless the texts splice in each other without end.

Assembling the flat lines comes to the same as assembling the lines themselves
(`Assembler.assembleAll_flat`). For this the names must mean in the text what they mean when the
line is read: an operand that is read must not be a macro by then, and there must be a text of this
name (`Assembler.NamesTexts`).
-/

set_option autoImplicit false

namespace WordMachine

open Assembly

/-! ## What is left of a line -/

namespace Assembly

/-- What stands before the first colon. -/
def beforeColon (line : List Char) : List Char :=
  line.takeWhile (· != ':')

theorem ne_of_mem_beforeColon {line : List Char} {c : Char} (stands : c ∈ beforeColon line) :
    c ≠ ':' := by
  have ahead : (c != ':') = true := @List.mem_takeWhile_imp _ (· != ':') _ _ stands
  exact bne_iff_ne.mp ahead

theorem beforeColon_cons {c : Char} (ahead : c ≠ ':') (rest : List Char) :
    beforeColon (c :: rest) = c :: beforeColon rest :=
  List.takeWhile_cons_of_pos (bne_iff_ne.mpr ahead)

/-- A label is written alike in a line and in the line without its comment. -/
theorem stripComment_beforeColon {line : List Char} (labelled : ':' ∈ stripComment line) :
    stripComment (beforeColon line ++ [':']) = beforeColon (stripComment line) ++ [':'] := by
  fun_induction stripComment line with
  | case1 rest ih =>
      have later : ':' ∈ stripComment rest := by simpa using labelled
      rw [beforeColon_cons (by decide), beforeColon_cons (by decide), beforeColon_cons (by decide)]
      exact congrArg (';' :: ·) (ih later)
  | case2 | case4 => cases labelled
  | case3 c rest unescaped code ih =>
      by_cases colon : c = ':'
      · subst colon
        rfl
      · have later : ':' ∈ stripComment rest := by simpa [Ne.symm colon] using labelled
        -- The colon after the label makes no escape of a backslash at its end.
        have still : ∀ tail, c = '\\' → beforeColon rest ++ [':'] = ';' :: tail → False := by
          intro tail backslash starts
          cases rest with
          | nil => cases starts
          | cons second rest =>
              by_cases ends : second = ':'
              · subst ends
                cases starts
              · rw [beforeColon_cons ends] at starts
                cases starts
                exact unescaped rest backslash rfl
        rw [beforeColon_cons colon, beforeColon_cons colon, List.cons_append, List.cons_append]
        exact (stripComment.eq_3 c _ still code).trans (congrArg (c :: ·) (ih later))

theorem splitLabel_append {label : List Char} (plain : ∀ c ∈ label, c ≠ ':')
    (statement : List Char) :
    splitLabel (label ++ ':' :: statement) = (some (Text.trim label), statement) := by
  have kept : ∀ c ∈ label, (c != ':') = true := fun c stands => bne_iff_ne.mpr (plain c stands)
  rw [splitLabel, List.span_eq_takeWhile_dropWhile, List.takeWhile_append_of_pos kept,
    List.dropWhile_append_of_pos kept]
  simp

theorem beforeColon_append {line : List Char} (colon : ':' ∈ line) :
    ∃ statement, beforeColon line ++ ':' :: statement = line := by
  induction line with
  | nil => cases colon
  | cons c rest ih =>
      by_cases ends : c = ':'
      · subst ends
        exact ⟨rest, rfl⟩
      · obtain ⟨statement, whole⟩ := ih (by simpa [Ne.symm ends] using colon)
        exact ⟨statement, by rw [beforeColon_cons ends, List.cons_append, whole]⟩

namespace LogicalLine

/-- The label of a line, if it has one, as a line. -/
def labelOnly (line : LogicalLine) : LogicalLine :=
  { line with
    text :=
      match (splitLabel (stripComment line.text)).1 with
      | some _ => beforeColon line.text ++ [':']
      | none => [] }

theorem splitLabel_labelOnly (line : LogicalLine) :
    splitLabel (stripComment line.labelOnly.text) =
      ((splitLabel (stripComment line.text)).1, []) := by
  by_cases labelled : ':' ∈ stripComment line.text
  · obtain ⟨statement, whole⟩ := beforeColon_append labelled
    have split := splitLabel_append
      (fun c => @ne_of_mem_beforeColon (stripComment line.text) c) statement
    rw [whole] at split
    rw [labelOnly, split]
    show splitLabel (stripComment (beforeColon line.text ++ [':'])) = _
    rw [stripComment_beforeColon labelled]
    exact splitLabel_append (fun c => ne_of_mem_beforeColon) []
  · have split := splitLabel_of_not_mem fun c stands same => labelled (same ▸ stands)
    rw [labelOnly, split]
    rfl

end LogicalLine

/-! ## Flat lines -/

/-- What an operand names if it is no macro. -/
def namedPath (source : Source) (operand : List Char) : Path :=
  source.resolve (String.ofList (Assembler.unquote (Text.trim operand)))

/-- After some paths have been imported, lines are made flat. -/
inductive Flattens (source : Source) :
    List Path.Key → List LogicalLine → List LogicalLine → Prop where
  | nil (imported : List Path.Key) : Flattens source imported [] []
  /-- A line that asks for no text stays. -/
  | plain {imported : List Path.Key} {line : LogicalLine} {rest flat : List LogicalLine}
      (asks : line.splicing? = none) (more : Flattens source imported rest flat) :
      Flattens source imported (line :: rest) (line :: flat)
  /-- A line that includes a text, or is the first to import it, gives way to its label and the
  lines of the text. -/
  | spliced {imported : List Path.Key} {line : LogicalLine} {rest flat : List LogicalLine}
      {once : Bool} {operand : List Char} {text : String}
      (asks : line.splicing? = some (once, operand))
      (fresh : once = true → (namedPath source operand).key ∉ imported)
      (loads : source.load (namedPath source operand) = .ok text)
      (more : Flattens source
        (if once then (namedPath source operand).key :: imported else imported)
        (logicalLines (namedPath source operand).text text ++ rest) flat) :
      Flattens source imported (line :: rest) (line.labelOnly :: flat)
  /-- A line that imports a text again gives way to its label. -/
  | again {imported : List Path.Key} {line : LogicalLine} {rest flat : List LogicalLine}
      {operand : List Char} (asks : line.splicing? = some (true, operand))
      (before : (namedPath source operand).key ∈ imported)
      (more : Flattens source imported rest flat) :
      Flattens source imported (line :: rest) (line.labelOnly :: flat)
  /-- A line that asks for a text that there is not stays. -/
  | missing {imported : List Path.Key} {line : LogicalLine} {rest flat : List LogicalLine}
      {once : Bool} {operand : List Char} {error : LoadError}
      (asks : line.splicing? = some (once, operand))
      (fresh : once = true → (namedPath source operand).key ∉ imported)
      (fails : source.load (namedPath source operand) = .error error)
      (more : Flattens source imported rest flat) :
      Flattens source imported (line :: rest) (line :: flat)

end Assembly

namespace Assembler

variable {source : Source}

/-- Every line that is read and asks for a text names one: its operand is no macro by then, and the
source has a text of this name. -/
def NamesTexts (source : Source) (limit : Nat) (start : Assembler) : Prop :=
  ∀ turn ∈ turns source limit start, ∀ asked ∈ turn.line.splicing?,
    turn.state.scope.macros.contains (Text.trim asked.2) = false ∧
      (source.load (namedPath source asked.2)).isOk = true

instance (source : Source) (limit : Nat) (start : Assembler) :
    Decidable (NamesTexts source limit start) :=
  inferInstanceAs (Decidable (∀ turn ∈ turns source limit start, ∀ asked ∈ turn.line.splicing?,
    turn.state.scope.macros.contains (Text.trim asked.2) = false ∧
      (source.load (namedPath source asked.2)).isOk = true))

/-! ## Outcomes that are the same -/

/-- Two states that differ at most in the lines that wait and in the imported paths. -/
structure Alike (first second : Assembler) : Prop where
  code : second.code = first.code
  scope : second.scope = first.scope
  patches : second.patches = first.patches
  origin : second.origin = first.origin
  warnings : second.warnings = first.warnings

theorem Alike.eq_requeue {first second : Assembler} (alike : Alike first second) :
    second = first.requeue second.queue second.imported := by
  obtain ⟨code, scope, patches, origin, warnings⟩ := alike
  cases second
  cases code
  cases scope
  cases patches
  cases origin
  cases warnings
  rfl

/-- Two runs give the same, or fail in the same way at the same place, and leave states that are
alike. Neither is stopped for reading too many lines. -/
inductive SameOutcome {α : Type} :
    EStateM.Result Stop Assembler α → EStateM.Result Stop Assembler α → Prop where
  | ok {value : α} {final other : Assembler} (alike : Alike final other) :
      SameOutcome (.ok value final) (.ok value other)
  | failed {failure : AssemblyError} {final other : Assembler} (alike : Alike final other) :
      SameOutcome (.error (.failed failure) final) (.error (.failed failure) other)

theorem alike_requeue (state : Assembler) (queue : List LogicalLine) (imported : List Path.Key) :
    Alike state (state.requeue queue imported) :=
  ⟨rfl, rfl, rfl, rfl, rfl⟩

theorem SameOutcome.of_ignores {α : Type} {action : Running α} (ignores : IgnoresQueue action)
    (unlimited : Unlimited action) {first second : Assembler} (alike : Alike first second) :
    SameOutcome (action first) (action second) := by
  rw [alike.eq_requeue, ignores]
  cases run : action first with
  | ok value final => exact .ok (alike_requeue _ _ _)
  | error stop final =>
      cases stop with
      | failed failure => exact .failed (alike_requeue _ _ _)
      | lineLimit => exact absurd run (unlimited first final)

theorem SameOutcome.bind {α β : Type} {action other : Running α} {next : α → Running β}
    {first second : Assembler} (same : SameOutcome (action first) (other second))
    (later : ∀ {value final final'}, Alike final final' →
      SameOutcome (next value final) (next value final')) :
    SameOutcome ((action >>= next) first) ((other >>= next) second) := by
  cases run : action first with
  | ok value final =>
      rw [run] at same
      cases run' : other second with
      | ok value' final' =>
          rw [run'] at same
          cases same with
          | ok alike =>
              rw [run_bind_of_ok run, run_bind_of_ok run']
              exact later alike
      | error stop final' =>
          rw [run'] at same
          cases same
  | error stop final =>
      rw [run] at same
      cases run' : other second with
      | ok value' final' =>
          rw [run'] at same
          cases same
      | error stop' final' =>
          rw [run'] at same
          rw [run_bind_of_error run, run_bind_of_error run']
          cases same with
          | failed alike => exact .failed alike

/-! ## Reading lines and flat lines -/

section Steps

variable {limit : Nat} {start : Assembler} {line other : LogicalLine} {rest flat : List LogicalLine}
  {held : List Path.Key}

/-- If a line and what it gives way to come to the same but for the queue, it is enough that what
comes after them does. -/
theorem sameOutcome_succ (place : other.place = line.place) (waiting : start.queue = line :: rest)
    (same : readLine source other ({ start with queue := rest }.requeue flat held) =
      requeued flat held (Turn.next source start line rest).outcome)
    (later : ∀ after,
      (Turn.next source start line rest).outcome = .ok () after →
        SameOutcome (readQueue source limit after)
          (readQueue source flat.length (after.requeue flat held))) :
    SameOutcome (readQueue source (limit + 1) start)
      (readQueue source (flat.length + 1) (start.requeue (other :: flat) held)) := by
  have flatWaiting : (start.requeue (other :: flat) held).queue = other :: flat := rfl
  rw [readQueue_succ waiting, readQueue_succ flatWaiting]
  rw [show (Turn.next source (start.requeue (other :: flat) held) other flat).outcome = _ from same]
  cases outcome : (Turn.next source start line rest).outcome with
  | ok value after => exact later after outcome
  | error failure after =>
      show SameOutcome (.error (.failed ⟨line.place, failure⟩) _)
        (.error (.failed ⟨other.place, failure⟩) _)
      rw [place]
      exact .failed (alike_requeue _ _ _)

end Steps

/-! ## Lines that ask for texts -/

theorem readLine_labelOnly (line : LogicalLine) :
    readLine source line.labelOnly = readLabel line := by
  have label : readLabel line.labelOnly = readLabel line := by
    rw [readLabel, LogicalLine.splitLabel_labelOnly, readLabel]
  have statement : (splitLabel (stripComment line.labelOnly.text)).2 = [] := by
    rw [LogicalLine.splitLabel_labelOnly]
  rw [readLine_eq, label, statement]
  exact bind_pure_unit

/-- An operand that is no macro stands for itself. -/
theorem expand_of_not_macro {scope : Scope} {operand : List Char}
    (literal : scope.macros.contains (Text.trim operand) = false) :
    scope.expand operand = .ok (Text.trim operand) := by
  have unknown : scope.macros.find? (Text.trim operand) = none := by
    simpa [MacroTable.contains] using literal
  have whole : scope.macros.expand? operand = some (Text.trim operand) := by
    rw [MacroTable.expand?]
    cases scope.macros.size with
    | zero => rw [MacroTable.follow?, if_neg (by simp [literal])]
    | succ budget => rw [MacroTable.follow?, unknown]
  rw [Scope.expand, whole]

/-- What a line comes to that asks for a text by its name. -/
theorem Turn.outcome_of_named (turn : Turn) {once : Bool} {operand : List Char}
    (asks : turn.line.splicing? = some (once, operand))
    (literal : turn.state.scope.macros.contains (Text.trim operand) = false) :
    turn.outcome =
      match readLabel turn.line turn.state with
      | .ok _ labelled => labelled.spliced turn.source (namedPath turn.source operand) once
      | .error failure labelled => .error failure labelled := by
  cases defined : readLabel turn.line turn.state with
  | error failure labelled => rw [outcome, readLine_of_splicing asks, run_bind_of_error defined]
  | ok label labelled =>
      obtain ⟨symbols, rfl⟩ := readLabel_ok defined
      have expands : (turn.state.withSymbols symbols).scope.expand operand =
          .ok (Text.trim operand) := expand_of_not_macro literal
      have path : turn.asks? = some (once, namedPath turn.source operand) := by
        rw [asks?_of_label asks defined, expands]
        rfl
      obtain ⟨same, again, outcome⟩ := outcome_of_asks path
      rw [defined] at again
      cases again
      exact outcome

/-- A line that asks for a text by its name splices it in where its label has been defined. -/
theorem Turn.spliced_of_named (turn : Turn) {once : Bool} {operand : List Char} {after : Assembler}
    (asks : turn.line.splicing? = some (once, operand))
    (literal : turn.state.scope.macros.contains (Text.trim operand) = false)
    (done : turn.outcome = .ok () after) :
    ∃ labelled : Assembler, labelled.queue = turn.state.queue ∧
      labelled.imported = turn.state.imported ∧
      labelled.spliced turn.source (namedPath turn.source operand) once = .ok () after := by
  rw [turn.outcome_of_named asks literal] at done
  cases defined : readLabel turn.line turn.state with
  | error failure labelled =>
      rw [defined] at done
      cases done
  | ok label labelled =>
      rw [defined] at done
      obtain ⟨queue, imported⟩ := (ignoresQueue_readLabel turn.line).keeps_ok defined
      exact ⟨labelled, queue, imported, done⟩

/-- A line that asks for a text by its name comes to the same as its label alone, but for the
queue. -/
theorem readLine_labelOnly_of_named {line : LogicalLine} {state : Assembler}
    {flat : List LogicalLine} {held : List Path.Key} {once : Bool} {operand : List Char}
    (asks : line.splicing? = some (once, operand))
    (literal : state.scope.macros.contains (Text.trim operand) = false)
    (loads : ∃ text, source.load (namedPath source operand) = .ok text) :
    readLine source line.labelOnly (state.requeue flat held) =
      requeued flat held (⟨source, line, state⟩ : Turn).outcome := by
  obtain ⟨text, loads⟩ := loads
  rw [readLine_labelOnly, ignoresQueue_readLabel,
    Turn.outcome_of_named ⟨source, line, state⟩ asks literal]
  cases readLabel line state with
  | error failure labelled => rfl
  | ok label labelled =>
      show _ = requeued flat held (labelled.spliced source (namedPath source operand) once)
      rw [spliced]
      split
      · rfl
      · rw [loads]
        rfl

/-! ## Whole runs -/

theorem namesTexts_tail {limit : Nat} {start after : Assembler} {line : LogicalLine}
    {rest : List LogicalLine} (waiting : start.queue = line :: rest)
    (outcome : (Turn.next source start line rest).outcome = .ok () after)
    (named : NamesTexts source (limit + 1) start) : NamesTexts source limit after := by
  intro turn listed
  refine named turn ?_
  rw [turns_succ waiting]
  dsimp only
  rw [outcome]
  exact List.mem_cons_of_mem _ listed

theorem namesTexts_head {limit : Nat} {start : Assembler} {line : LogicalLine}
    {rest : List LogicalLine} (waiting : start.queue = line :: rest)
    (named : NamesTexts source (limit + 1) start) {once : Bool} {operand : List Char}
    (asks : line.splicing? = some (once, operand)) :
    start.scope.macros.contains (Text.trim operand) = false ∧
      ∃ text, source.load (namedPath source operand) = .ok text := by
  have listed : Turn.next source start line rest ∈ turns source (limit + 1) start := by
    rw [turns_succ waiting]
    dsimp only
    split <;> exact List.mem_cons_self
  obtain ⟨literal, loads⟩ := named _ listed (once, operand) asks
  refine ⟨literal, ?_⟩
  cases found : source.load (namedPath source operand) with
  | ok text => exact ⟨text, rfl⟩
  | error error =>
      rw [found] at loads
      cases loads

/-- **Reading lines comes to the same as reading them flat.** -/
theorem sameOutcome_readQueue {imported : List Path.Key} {queue flat : List LogicalLine}
    (flattens : Flattens source imported queue flat) {limit : Nat} {start : Assembler}
    (held : List Path.Key) (waiting : start.queue = queue) (done : start.imported = imported)
    (enough : flat.length ≤ limit) (named : NamesTexts source limit start) :
    SameOutcome (readQueue source limit start)
      (readQueue source flat.length (start.requeue flat held)) := by
  induction flattens generalizing limit start with
  | nil imported =>
      rw [readQueue_nil limit waiting, readQueue_nil _ rfl]
      exact .ok (alike_requeue _ _ _)
  | @plain imported line rest flat asks more ih =>
      cases limit with
      | zero => cases enough
      | succ limit =>
          refine sameOutcome_succ rfl waiting (ignoresQueue_readLine asks _ flat held)
            fun after outcome => ?_
          obtain ⟨queue, kept⟩ := (ignoresQueue_readLine asks).keeps_ok outcome
          exact ih queue (kept.trans done) (Nat.le_of_succ_le_succ enough)
            (namesTexts_tail waiting outcome named)
  | @spliced imported line rest flat once operand text asks fresh loads more ih =>
      cases limit with
      | zero => cases enough
      | succ limit =>
          obtain ⟨literal, named_text⟩ := namesTexts_head waiting named asks
          refine @sameOutcome_succ _ _ _ line line.labelOnly _ _ _ rfl waiting
            (readLine_labelOnly_of_named asks literal named_text) fun after outcome => ?_
          obtain ⟨labelled, queue, kept, splices⟩ :=
            (Turn.next source start line rest).spliced_of_named asks literal outcome
          have same : labelled.imported = imported := kept.trans done
          rw [spliced_of_fresh (same ▸ fresh), loads] at splices
          cases splices
          refine ih ?_ ?_ (Nat.le_of_succ_le_succ enough) (namesTexts_tail waiting outcome named)
          · exact congrArg _ queue
          · rw [← same]
            rfl
  | @again imported line rest flat operand asks before more ih =>
      cases limit with
      | zero => cases enough
      | succ limit =>
          obtain ⟨literal, named_text⟩ := namesTexts_head waiting named asks
          refine @sameOutcome_succ _ _ _ line line.labelOnly _ _ _ rfl waiting
            (readLine_labelOnly_of_named asks literal named_text) fun after outcome => ?_
          obtain ⟨labelled, queue, kept, splices⟩ :=
            (Turn.next source start line rest).spliced_of_named asks literal outcome
          have same : labelled.imported = imported := kept.trans done
          rw [spliced_again (same ▸ before)] at splices
          cases splices
          exact ih queue same (Nat.le_of_succ_le_succ enough)
            (namesTexts_tail waiting outcome named)
  | @missing imported line rest flat once operand error asks fresh fails more ih =>
      cases limit with
      | zero => cases enough
      | succ limit =>
          -- The line is read next, and then it has to name a text.
          obtain ⟨-, text, loads⟩ := namesTexts_head waiting named asks
          rw [fails] at loads
          cases loads

/-- **Splicing is textual.** Assembling lines that ask for other texts comes to the same as
assembling the flat lines, which are all there is to read. -/
theorem assembleAll_flat {source : Source} {allowance : Nat} {start : Assembler}
    {flat : List LogicalLine} (flattens : Flattens source start.imported start.queue flat)
    (enough : flat.length ≤ start.queue.length + allowance)
    (named : NamesTexts source (start.queue.length + allowance) start) :
    SameOutcome (assembleAll source allowance start)
      (assembleAll source 0 { start with queue := flat }) := by
  have reading : SameOutcome (readQueue source (start.queue.length + allowance) start)
      (readQueue source flat.length (start.requeue flat start.imported)) :=
    sameOutcome_readQueue flattens start.imported rfl rfl enough named
  show SameOutcome
    ((readQueue source (start.queue.length + allowance) >>= fun _ => resolveAll >>= fun _ =>
      takeCode) start)
    ((readQueue source flat.length >>= fun _ => resolveAll >>= fun _ => takeCode)
      (start.requeue flat start.imported))
  refine reading.bind fun alike => ?_
  refine SameOutcome.bind (.of_ignores ignoresQueue_resolveAll unlimited_resolveAll alike) ?_
  exact fun alike => .of_ignores ignoresQueue_takeCode unlimited_takeCode alike

/-- Two texts, one of which imports the other. -/
def sharedTexts : Library :=
  (Library.empty.insert "b" ".EMIT 1").insert "a" ".IMPORT b\nLEAVE"

/-- The second text is imported by the first, imported again under another name, and included. -/
def splicingText : Assembler :=
  initial.enqueue "main" "start: .INCLUDE a\nend: .IMPORT \"b/\"\n.INCLUDE b"

/-- The same text with everything spliced in. -/
def flatText : List LogicalLine :=
  [⟨⟨"main", 1⟩, "start:".toList⟩, ⟨⟨"a", 1⟩, []⟩, ⟨⟨"b", 1⟩, ".EMIT 1".toList⟩,
    ⟨⟨"a", 2⟩, "LEAVE".toList⟩, ⟨⟨"main", 2⟩, "end:".toList⟩, ⟨⟨"main", 3⟩, []⟩,
    ⟨⟨"b", 1⟩, ".EMIT 1".toList⟩]

theorem flattens_splicingText :
    Flattens sharedTexts.toSource splicingText.imported splicingText.queue flatText := by
  have includes : LogicalLine.splicing? ⟨⟨"main", 1⟩, "start: .INCLUDE a".toList⟩ =
      some (false, "a".toList) := by decide +kernel
  have imports : LogicalLine.splicing? ⟨⟨"a", 1⟩, ".IMPORT b".toList⟩ =
      some (true, "b".toList) := by decide +kernel
  have repeats : LogicalLine.splicing? ⟨⟨"main", 2⟩, "end: .IMPORT \"b/\"".toList⟩ =
      some (true, "\"b/\"".toList) := by decide +kernel
  have includesAgain : LogicalLine.splicing? ⟨⟨"main", 3⟩, ".INCLUDE b".toList⟩ =
      some (false, "b".toList) := by decide +kernel
  refine .spliced includes nofun (by decide +kernel : _ = Except.ok ".IMPORT b\nLEAVE") ?_
  refine .spliced imports (by decide +kernel) (by decide +kernel : _ = Except.ok ".EMIT 1") ?_
  refine .plain (by decide +kernel) (.plain (by decide +kernel) ?_)
  refine .again repeats (by decide +kernel) ?_
  refine .spliced includesAgain nofun (by decide +kernel : _ = Except.ok ".EMIT 1") ?_
  exact .plain (by decide +kernel) (.nil _)

theorem assembleAll_flat_splicingText :
    flatText.length ≤ splicingText.queue.length + 4 ∧
    NamesTexts sharedTexts.toSource (splicingText.queue.length + 4) splicingText ∧
    (∃ final, assembleAll sharedTexts.toSource 4 splicingText = .ok #[1, 0x36, 0, 1] final) ∧
    SameOutcome (assembleAll sharedTexts.toSource 4 splicingText)
      (assembleAll sharedTexts.toSource 0 { splicingText with queue := flatText }) := by
  have enough : flatText.length ≤ splicingText.queue.length + 4 := by decide +kernel
  have named : NamesTexts sharedTexts.toSource (splicingText.queue.length + 4) splicingText := by
    decide +kernel
  have assembled : ∃ bytes final,
      assembleAll sharedTexts.toSource 4 splicingText = .ok bytes final ∧
        decide (bytes = #[1, 0x36, 0, 1]) = true := exists_of_passes (by decide +kernel)
  obtain ⟨bytes, final, ran, same⟩ := assembled
  rw [of_decide_eq_true same] at ran
  exact ⟨enough, named, ⟨final, ran⟩, assembleAll_flat flattens_splicingText enough named⟩

end Assembler
end WordMachine
