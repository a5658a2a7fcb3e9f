import Mathlib.Data.List.Basic
import WordMachine.Proofs.Splicing

/-!
# The first import of a path decides

A path counts as imported as soon as a line asks to import it, before its text has been loaded. So
of all the lines that import a path in a session, over any number of calls and through any sources,
only the first one looks for the text (`Assembler.imports_follow_first`). If it finds the text, its
lines are put in front of those that wait, once. If it does not, the line fails, and every later
line that imports the path passes as if the text had been read (`Assembler.import_passes_unread`),
also when the text has become available.
-/

set_option autoImplicit false

namespace WordMachine

open Assembly

namespace Assembler

/-! ## What a turn does for a path -/

namespace Turn

/-- The line is read without an error. -/
def Completes (turn : Turn) : Prop :=
  ∃ after, turn.outcome = .ok () after

/-- The line is wrong in this way. -/
def FailsWith (turn : Turn) (failure : StatementError) : Prop :=
  ∃ after, turn.outcome = .error failure after

/-- The lines that are put in front of those that wait. -/
def queued (turn : Turn) : List LogicalLine :=
  (finalState turn.outcome).queue.take
    ((finalState turn.outcome).queue.length - turn.state.queue.length)

/-- The line looks for the text at a path. Either the lines of the text are put in front, or the line
is wrong because there is no such text. -/
def Loads (turn : Turn) (path : Path) : Prop :=
  match turn.source.load path with
  | .ok text => turn.Completes ∧ turn.queued = logicalLines path.text text
  | .error error => turn.FailsWith (.sourceUnavailable path error) ∧ turn.queued = []

/-- The line is read without an error, and no text is looked for or put in front. -/
def Passes (turn : Turn) : Prop :=
  turn.Completes ∧ turn.queued = []

/-- The path that the line imports, if reading gets that far. -/
def imports? (turn : Turn) : Option Path :=
  match turn.asks? with
  | some (true, path) => some path
  | _ => none

/-- Whether the line imports a path. -/
def importsKey (turn : Turn) (key : Path.Key) : Bool :=
  decide (turn.imports?.map Path.key = some key)

variable {turn : Turn} {path : Path} {key : Path.Key}

theorem queued_of_append {lines : List LogicalLine}
    (grown : (finalState turn.outcome).queue = lines ++ turn.state.queue) : turn.queued = lines := by
  rw [queued, grown, List.length_append, Nat.add_sub_cancel, List.take_left]

theorem queued_of_kept (kept : (finalState turn.outcome).queue = turn.state.queue) :
    turn.queued = [] :=
  queued_of_append kept

theorem asks?_of_imports? (imports : turn.imports? = some path) :
    turn.asks? = some (true, path) := by
  rw [imports?] at imports
  split at imports
  · rename_i asks
    cases imports
    exact asks
  · cases imports

/-- A line that asks for a text finds the queue and the imported paths as they were. -/
theorem spliced_of_asks {once : Bool} (asks : turn.asks? = some (once, path)) :
    ∃ labelled : Assembler, labelled.queue = turn.state.queue ∧
      labelled.imported = turn.state.imported ∧
      turn.outcome = labelled.spliced turn.source path once := by
  obtain ⟨labelled, defined, outcome⟩ := outcome_of_asks asks
  obtain ⟨queue, imported⟩ := (ignoresQueue_readLabel turn.line).keeps_ok defined
  exact ⟨labelled, queue, imported, outcome⟩

/-- **An import of a path that has been imported passes.** -/
theorem passes_of_imported (imports : turn.imports? = some path)
    (before : path.key ∈ turn.state.imported) : turn.Passes := by
  obtain ⟨labelled, queue, imported, outcome⟩ := spliced_of_asks (asks?_of_imports? imports)
  rw [spliced_again (imported ▸ before)] at outcome
  refine ⟨⟨labelled, outcome⟩, queued_of_kept ?_⟩
  rw [outcome]
  exact queue

/-- **The first import of a path loads its text.** -/
theorem loads_of_fresh (imports : turn.imports? = some path)
    (fresh : path.key ∉ turn.state.imported) : turn.Loads path := by
  obtain ⟨labelled, queue, imported, outcome⟩ := spliced_of_asks (asks?_of_imports? imports)
  rw [spliced_of_fresh fun _ => imported ▸ fresh] at outcome
  rw [Loads]
  cases loads : turn.source.load path with
  | ok text =>
      rw [loads] at outcome
      refine ⟨⟨_, outcome⟩, queued_of_append ?_⟩
      rw [outcome, ← queue]
      rfl
  | error error =>
      rw [loads] at outcome
      refine ⟨⟨_, outcome⟩, queued_of_kept ?_⟩
      rw [outcome]
      exact queue

/-- Afterwards exactly the path that the line imports counts as imported too. -/
theorem mem_imported_iff (turn : Turn) (key : Path.Key) :
    key ∈ (finalState turn.outcome).imported ↔
      key ∈ turn.state.imported ∨ turn.importsKey key = true := by
  rw [importsKey, decide_eq_true_eq]
  cases asks : turn.asks? with
  | none =>
      rw [imports?, asks, (keeps_of_asks_none asks).2]
      simp
  | some asked =>
      obtain ⟨once, path⟩ := asked
      obtain ⟨labelled, queue, imported, outcome⟩ := spliced_of_asks asks
      rw [imports?, asks, outcome, ← imported, spliced]
      cases once with
      | false => cases turn.source.load path <;> simp [finalState, noted, enqueue]
      | true =>
          by_cases before : path.key ∈ labelled.imported
          · simp [finalState, before]
            rintro rfl
            exact before
          · cases turn.source.load path <;>
              simp [finalState, noted, enqueue, before, or_comm, eq_comm]

end Turn

/-! ## Turns in a row -/

/-- Turns of which each starts with the paths that count as imported after the one before. -/
inductive Chain : List Path.Key → List Turn → List Path.Key → Prop where
  | nil (imported : List Path.Key) : Chain imported [] imported
  | cons {imported final : List Path.Key} {turn : Turn} {rest : List Turn}
      (starts : turn.state.imported = imported)
      (more : Chain (finalState turn.outcome).imported rest final) :
      Chain imported (turn :: rest) final

namespace Chain

variable {imported between final : List Path.Key} {row later : List Turn} {key : Path.Key}

theorem append (first : Chain imported row between) (second : Chain between later final) :
    Chain imported (row ++ later) final := by
  induction first with
  | nil imported => exact second
  | cons starts more ih => exact .cons starts (ih second)

/-- Once a path counts as imported, every import of it passes. -/
theorem passes (chain : Chain imported row final) (before : key ∈ imported) {turn : Turn}
    (listed : turn ∈ row) (imports : turn.importsKey key = true) : turn.Passes := by
  induction chain with
  | nil imported => cases listed
  | @cons imported final first rest starts more ih =>
      rcases List.mem_cons.mp listed with rfl | further
      · rw [Turn.importsKey, decide_eq_true_eq] at imports
        obtain ⟨path, found, rfl⟩ := Option.map_eq_some_iff.mp imports
        exact Turn.passes_of_imported found (starts ▸ before)
      · exact ih ((first.mem_imported_iff key).mpr (.inl (starts ▸ before))) further

/-- Of two turns that import the same path, the later one passes. -/
theorem pairwise (chain : Chain imported row final) :
    row.Pairwise fun first second => ∀ key, first.importsKey key = true →
      second.importsKey key = true → second.Passes := by
  induction chain with
  | nil imported => exact .nil
  | cons starts more ih =>
      refine List.pairwise_cons.mpr ⟨fun second listed key imports again => ?_, ih⟩
      exact more.passes ((Turn.mem_imported_iff _ key).mpr (.inr imports)) listed again

/-- **Of all imports of a path only the first one loads its text.** -/
theorem follow_first (chain : Chain imported row final) (fresh : key ∉ imported) {first : Turn}
    {rest : List Turn} (imports : row.filter (·.importsKey key) = first :: rest) :
    (∃ path, first.imports? = some path ∧ path.key = key ∧ first.Loads path) ∧
      ∀ turn ∈ rest, turn.Passes := by
  induction chain with
  | nil imported => cases imports
  | @cons imported final turn later starts more ih =>
      by_cases here : turn.importsKey key = true
      · rw [List.filter_cons, if_pos here] at imports
        cases imports
        constructor
        · have named := here
          rw [Turn.importsKey, decide_eq_true_eq] at named
          obtain ⟨path, found, rfl⟩ := Option.map_eq_some_iff.mp named
          exact ⟨path, found, rfl, Turn.loads_of_fresh found (starts ▸ fresh)⟩
        · intro other listed
          obtain ⟨further, again⟩ := List.mem_filter.mp listed
          exact more.passes ((Turn.mem_imported_iff _ key).mpr (.inr here)) further again
      · rw [List.filter_cons, if_neg here] at imports
        refine ih ?_ imports
        rw [Turn.mem_imported_iff, starts]
        exact not_or.mpr ⟨fresh, here⟩

end Chain

theorem chain_turns (source : Source) (limit : Nat) (start : Assembler) :
    Chain start.imported (turns source limit start)
      (finalState (readQueue source limit start)).imported := by
  induction limit generalizing start with
  | zero =>
      have stays : finalState (readQueue source 0 start) = start := by
        rw [readQueue, run_get_bind]
        split <;> rfl
      rw [stays]
      exact .nil _
  | succ limit ih =>
      cases waiting : start.queue with
      | nil =>
          rw [readQueue_nil _ waiting, turns, waiting]
          exact .nil _
      | cons line rest =>
          rw [readQueue_succ waiting, turns_succ waiting]
          dsimp only
          cases outcome : (Turn.next source start line rest).outcome with
          | ok value after =>
              refine .cons rfl ?_
              rw [outcome]
              exact ih after
          | error failure after =>
              refine .cons rfl ?_
              rw [outcome]
              exact .nil _

/-! ## Sessions -/

/-- The turns of a call. -/
def Call.turns : Call → Assembler → List Turn
  | .assembleAll source allowance, start =>
      Assembler.turns source (start.queue.length + allowance) start
  | _, _ => []

/-- The turns of calls one after the other. -/
def callTurns : List Call → Assembler → List Turn
  | [], _ => []
  | call :: rest, start => call.turns start ++ callTurns rest (finalState (call.perform start))

theorem chain_call (call : Call) (start : Assembler) :
    Chain start.imported (call.turns start) (finalState (call.perform start)).imported := by
  cases call with
  | loadSource name text => exact .nil _
  | loadFile source name =>
      have kept : (finalState ((Call.loadFile source name).perform start)).imported =
          start.imported := by
        refine (IgnoresQueue.keeps_bind (fun _ => .pure _) start).2.trans ?_
        rw [loadFile, readAt, splice_eq, spliced]
        cases source.load (source.resolve name) <;> rfl
      rw [kept]
      exact .nil _
  | assembleAll source allowance =>
      -- Only reading looks at the queue, so what follows it keeps the imported paths.
      have kept : (finalState ((Call.assembleAll source allowance).perform start)).imported =
          (finalState (readQueue source (start.queue.length + allowance) start)).imported :=
        (IgnoresQueue.keeps_bind (fun bytes => .pure (some bytes)) start).2.trans
          (IgnoresQueue.keeps_bind (fun _ => ignoresQueue_resolveAll.bind fun _ =>
            ignoresQueue_takeCode) start).2
      rw [kept]
      exact chain_turns source (start.queue.length + allowance) start

theorem chain_calls (calls : List Call) (start : Assembler) :
    ∃ final, Chain start.imported (callTurns calls start) final := by
  induction calls generalizing start with
  | nil => exact ⟨_, .nil _⟩
  | cons call rest ih =>
      obtain ⟨final, later⟩ := ih (finalState (call.perform start))
      exact ⟨final, (chain_call call start).append later⟩


/-- **The first import of a path decides for the whole session.** It looks for the text and puts its
lines in front of those that wait, or it fails for want of the text. Every other import of the path
passes and puts nothing in front. -/
theorem imports_follow_first (calls : List Call) (key : Path.Key) {first : Turn} {rest : List Turn}
    (imports : (callTurns calls initial).filter (·.importsKey key) = first :: rest) :
    (∃ path, first.imports? = some path ∧ path.key = key ∧ first.Loads path) ∧
      ∀ turn ∈ rest, turn.Passes := by
  obtain ⟨final, chain⟩ := chain_calls calls initial
  exact chain.follow_first List.not_mem_nil imports

/-- A text is imported before it is there, and again when it is. -/
def importedTooEarly : List Call :=
  [.loadSource "m.asm" ".IMPORT gone.inc", .assembleAll Library.empty.toSource 0,
    .loadSource "m.asm" ".IMPORT gone.inc",
    .assembleAll (Library.empty.insert "gone.inc" ".EMIT 1").toSource 1]

/-- The path that is imported there. -/
def gonePath : Path := ⟨"gone.inc"⟩

/-- What can be seen of a turn: the path it imports, what loading this path gives, the lines it puts in
front, and whether it is read without an error. -/
def Turn.observed (turn : Turn) :
    Option Path × Option (Except LoadError String) × List LogicalLine × Bool :=
  (turn.imports?, turn.imports?.map turn.source.load, turn.queued,
    passes (fun _ _ => true) turn.outcome)

theorem turns_importedTooEarly :
    ∃ first second, callTurns importedTooEarly initial = [first, second] ∧
      first.observed = (some gonePath, some (.error (.unknownSource gonePath)), [], false) ∧
      second.observed = (some gonePath, some (.ok ".EMIT 1"), [], true) := by
  have evaluated : (callTurns importedTooEarly initial).map Turn.observed =
      [(some gonePath, some (.error (.unknownSource gonePath)), [], false),
        (some gonePath, some (.ok ".EMIT 1"), [], true)] := by
    decide +kernel
  obtain ⟨first, others, whole, seen, more⟩ := List.map_eq_cons_iff.mp evaluated
  obtain ⟨second, none, rfl, seenSecond, nothing⟩ := List.map_eq_cons_iff.mp more
  rw [List.map_eq_nil_iff] at nothing
  rw [nothing] at whole
  exact ⟨first, second, whole, seen, seenSecond⟩

theorem imports_follow_first_importedTooEarly :
    ∃ first second,
      (callTurns importedTooEarly initial).filter (·.importsKey gonePath.key) = [first, second] ∧
        first.FailsWith (.sourceUnavailable gonePath (.unknownSource gonePath)) ∧
        second.source.load gonePath = .ok ".EMIT 1" ∧ second.Passes := by
  obtain ⟨first, second, whole, seen, seenSecond⟩ := turns_importedTooEarly
  simp only [Turn.observed, Prod.mk.injEq] at seen seenSecond
  obtain ⟨imports, load, -⟩ := seen
  obtain ⟨importsSecond, loadSecond, -⟩ := seenSecond
  have listed : (callTurns importedTooEarly initial).filter (·.importsKey gonePath.key) =
      [first, second] := by
    rw [whole]
    simp [Turn.importsKey, imports, importsSecond]
  obtain ⟨⟨path, found, -, loads⟩, later⟩ :=
    imports_follow_first importedTooEarly gonePath.key listed
  rw [imports, Option.some.injEq] at found
  subst found
  rw [imports, Option.map_some, Option.some.injEq] at load
  rw [importsSecond, Option.map_some, Option.some.injEq] at loadSecond
  rw [Turn.Loads, load] at loads
  exact ⟨first, second, listed, loads.1, loadSecond, later second List.mem_cons_self⟩

/-- **An import can pass although its text has never been read**: what a session has imported of a
path need not have been put in front of the lines that wait. -/
theorem import_passes_unread :
    ¬ ∀ (calls : List Call) (earlier later : List Turn) (turn : Turn) (path : Path),
      callTurns calls initial = earlier ++ turn :: later → turn.imports? = some path →
      turn.Completes →
      ∃ one ∈ earlier ++ [turn], ∃ other text, one.imports? = some other ∧ other.key = path.key ∧
        one.source.load other = .ok text ∧ one.queued = logicalLines other.text text := by
  intro claimed
  obtain ⟨first, second, whole, seen, seenSecond⟩ := turns_importedTooEarly
  simp only [Turn.observed, Prod.mk.injEq] at seen seenSecond
  obtain ⟨imports, load, -⟩ := seen
  obtain ⟨importsSecond, loadSecond, queued, completes⟩ := seenSecond
  obtain ⟨_, after, done, -⟩ := exists_of_passes completes
  obtain ⟨one, listed, path, text, same, -, loads, lines⟩ :=
    claimed importedTooEarly [first] [] second gonePath whole importsSecond ⟨after, done⟩
  have either : one = first ∨ one = second := by simpa using listed
  rcases either with rfl | rfl
  · rw [same, Option.map_some, loads] at load
    cases load
  · rw [importsSecond, Option.some.injEq] at same
    subst same
    rw [importsSecond, Option.map_some, loads, Option.some.injEq, Except.ok.injEq] at loadSecond
    rw [queued, loadSecond] at lines
    exact absurd lines (by decide +kernel)

end Assembler
end WordMachine
