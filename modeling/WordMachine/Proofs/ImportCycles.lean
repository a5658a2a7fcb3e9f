import Mathlib.Algebra.Order.BigOperators.Group.Finset
import WordMachine.Proofs.Imports

/-!
# Imports that go around in circles

Texts that import each other, or themselves, do not keep an assembly busy for ever, as long as no
line includes a text. An import puts lines in front of those that wait only the first time that its
path comes up. So what is left to read is bounded by the lines that wait and the lines of all texts
whose paths have not been imported yet (`Assembler.remaining`): a line that is read takes one away,
and an import only moves lines from the second kind to the first.

Hence a library has only as many lines to offer as its texts have together, whatever the names by
which they import each other (`Assembler.assembleAll_terminates`). With at least this allowance, the
outcome is the same whatever the allowance is.
-/

set_option autoImplicit false

namespace WordMachine

open Assembly

/-! ## Lines of a text -/

namespace Assembly

/-- The name of a text and the numbers of its lines are no part of what the lines say. -/
theorem map_text_joinLines (file other : String) (raw : List (List Char))
    {pending waiting : Option LogicalLine} (number start : Nat)
    (same : pending.map LogicalLine.text = waiting.map LogicalLine.text) :
    (joinLines file pending number raw).map LogicalLine.text =
      (joinLines other waiting start raw).map LogicalLine.text := by
  induction raw generalizing pending waiting number start with
  | nil =>
      cases pending <;> cases waiting <;> simp_all [joinLines]
  | cons line rest ih =>
      have begun : (pending.getD ⟨⟨file, number⟩, []⟩).text =
          (waiting.getD ⟨⟨other, start⟩, []⟩).text := by
        cases pending <;> cases waiting <;> simp_all
      rw [joinLines, joinLines]
      split
      · have first : pending.toList.map LogicalLine.text = waiting.toList.map LogicalLine.text := by
          cases pending <;> cases waiting <;> simp_all
        rw [List.map_append, List.map_append, first, ih (number + 1) (start + 1) rfl]
      · cases continued? (Text.trimEnd line) with
        | some body =>
            refine ih (number + 1) (start + 1) ?_
            simp only [Option.map_some, begun]
        | none =>
            simp only [List.map_cons, begun]
            rw [ih (number + 1) (start + 1) rfl]

theorem map_text_logicalLines (file other text : String) :
    (logicalLines file text).map LogicalLine.text =
      (logicalLines other text).map LogicalLine.text :=
  map_text_joinLines file other _ 1 1 rfl

/-- No line asks to include a text. -/
def NoIncludes (lines : List LogicalLine) : Prop :=
  ∀ line ∈ lines, ∀ asked ∈ line.splicing?, asked.1 = true

instance (lines : List LogicalLine) : Decidable (NoIncludes lines) :=
  inferInstanceAs (Decidable (∀ line ∈ lines, ∀ asked ∈ line.splicing?, asked.1 = true))

theorem NoIncludes.append {first second : List LogicalLine} (left : NoIncludes first)
    (right : NoIncludes second) : NoIncludes (first ++ second) :=
  List.forall_mem_append.mpr ⟨left, right⟩

/-- What a text includes does not depend on its name. -/
theorem NoIncludes.rename {file text : String} (none : NoIncludes (logicalLines file text))
    (other : String) : NoIncludes (logicalLines other text) := by
  intro line listed
  have said : line.text ∈ (logicalLines file text).map LogicalLine.text := by
    rw [map_text_logicalLines file other]
    exact List.mem_map_of_mem listed
  obtain ⟨twin, there, same⟩ := List.mem_map.mp said
  have alike : line.splicing? = twin.splicing? := by
    rw [LogicalLine.splicing?, LogicalLine.words, ← same]
    rfl
  rw [alike]
  exact none twin there

end Assembly

/-! ## Lines of a library -/

namespace Library

/-- The paths that have texts. -/
def keys (library : Library) : Finset Path.Key :=
  (library.texts.map Prod.fst).toFinset

/-- The number of lines of the text at a path. -/
def lineCount (library : Library) (key : Path.Key) : Nat :=
  match library.texts.lookup key with
  | some text => (logicalLines unnamedText text).length
  | none => 0

/-- The number of lines of all texts but those at some paths. -/
def linesBeyond (library : Library) (imported : List Path.Key) : Nat :=
  ∑ key ∈ library.keys \ imported.toFinset, library.lineCount key

/-- The number of lines of all texts. -/
def lines (library : Library) : Nat :=
  ∑ key ∈ library.keys, library.lineCount key

/-- No text asks to include another one. -/
def NoIncludes (library : Library) : Prop :=
  ∀ key ∈ library.keys, ∀ text ∈ library.texts.lookup key,
    Assembly.NoIncludes (logicalLines unnamedText text)

instance (library : Library) : Decidable library.NoIncludes :=
  inferInstanceAs (Decidable (∀ key ∈ library.keys, ∀ text ∈ library.texts.lookup key,
    Assembly.NoIncludes (logicalLines unnamedText text)))

variable {library : Library} {key : Path.Key} {text : String} {imported : List Path.Key}

theorem mem_keys_of_lookup (stored : library.texts.lookup key = some text) :
    key ∈ library.keys := by
  obtain ⟨before, after, whole, -⟩ := List.lookup_eq_some_iff.mp stored
  rw [keys, whole]
  simp

theorem linesBeyond_le : library.linesBeyond imported ≤ library.lines :=
  Finset.sum_le_sum_of_subset Finset.sdiff_subset

/-- A path that is imported takes its lines away from the rest. -/
theorem linesBeyond_cons (stored : library.texts.lookup key = some text) (fresh : key ∉ imported)
    (file : String) :
    (logicalLines file text).length + library.linesBeyond (key :: imported) =
      library.linesBeyond imported := by
  have listed : key ∈ library.keys \ imported.toFinset :=
    Finset.mem_sdiff.mpr ⟨mem_keys_of_lookup stored, by simpa using fresh⟩
  have count : library.lineCount key = (logicalLines file text).length := by
    rw [lineCount, stored]
    simpa using congrArg List.length (map_text_logicalLines unnamedText file text)
  rw [linesBeyond, linesBeyond, List.toFinset_cons, Finset.sdiff_insert, ← count]
  exact Finset.add_sum_erase _ _ listed

end Library

namespace Assembler

variable {library : Library} {start after : Assembler} {line : LogicalLine}
  {rest : List LogicalLine}

/-! ## What is left to read -/

/-- The lines that wait, and those of all texts whose paths have not been imported. -/
def remaining (start : Assembler) (library : Library) : Nat :=
  start.queue.length + library.linesBeyond start.imported

/-- A line that includes no text leaves the queue alone, or it is the first to import a text. -/
theorem Turn.cases_of_plain (turn : Turn) (here : turn.source = library.toSource)
    (plain : ∀ asked ∈ turn.line.splicing?, asked.1 = true) (done : turn.outcome = .ok () after) :
    (after.queue = turn.state.queue ∧ after.imported = turn.state.imported) ∨
    ∃ (path : Path) (text : String), path.key ∉ turn.state.imported ∧
      library.texts.lookup path.key = some text ∧
      after.queue = logicalLines path.text text ++ turn.state.queue ∧
      after.imported = path.key :: turn.state.imported := by
  cases asks : turn.asks? with
  | none =>
      have kept := keeps_of_asks_none asks
      rw [done] at kept
      exact .inl kept
  | some asked =>
      obtain ⟨once, path⟩ := asked
      obtain ⟨operand, splicing⟩ := splicing?_of_asks? asks
      obtain rfl : once = true := plain _ splicing
      obtain ⟨labelled, queue, imported, outcome⟩ := spliced_of_asks asks
      rw [done] at outcome
      by_cases before : path.key ∈ labelled.imported
      · rw [spliced_again before] at outcome
        cases outcome
        exact .inl ⟨queue, imported⟩
      · rw [spliced_of_fresh fun _ => before, here, Library.toSource] at outcome
        cases stored : library.texts.lookup path.key with
        | none =>
            simp only [stored] at outcome
            cases outcome
        | some text =>
            simp only [stored] at outcome
            cases outcome
            refine .inr ⟨path, text, imported ▸ before, stored, ?_, ?_⟩
            · exact congrArg _ queue
            · exact congrArg _ imported

section Plain

variable (stored : library.NoIncludes)
include stored

/-- **A line that is read takes one away from what is left.** -/
theorem remaining_of_turn (plain : NoIncludes start.queue) (waiting : start.queue = line :: rest)
    (done : (Turn.next library.toSource start line rest).outcome = .ok () after) :
    NoIncludes after.queue ∧ after.remaining library + 1 = start.remaining library := by
  rw [waiting] at plain
  obtain ⟨first, others⟩ := List.forall_mem_cons.mp plain
  rcases (Turn.next library.toSource start line rest).cases_of_plain rfl first done with
    ⟨queue, imported⟩ | ⟨path, text, fresh, found, queue, imported⟩
  · refine ⟨by rw [queue]; exact others, ?_⟩
    rw [remaining, remaining, queue, imported, waiting, List.length_cons]
    exact Nat.add_right_comm _ _ _
  · have lines := stored path.key (Library.mem_keys_of_lookup found) text found
    refine ⟨by rw [queue]; exact (lines.rename path.text).append others, ?_⟩
    have taken := Library.linesBeyond_cons found fresh path.text
    rw [remaining, remaining, queue, imported, waiting, List.length_append, List.length_cons]
    dsimp only at taken ⊢
    omega

/-- There are no more turns than lines that are left. -/
theorem length_turns_le (plain : NoIncludes start.queue) (limit : Nat) :
    (turns library.toSource limit start).length ≤ start.remaining library := by
  induction limit generalizing start with
  | zero => exact Nat.zero_le _
  | succ limit ih =>
      cases waiting : start.queue with
      | nil =>
          rw [turns, waiting]
          exact Nat.zero_le _
      | cons line rest =>
          rw [turns_succ waiting]
          dsimp only
          cases outcome : (Turn.next library.toSource start line rest).outcome with
          | error failure after =>
              show 1 ≤ _
              rw [remaining, waiting, List.length_cons]
              omega
          | ok value after =>
              obtain ⟨others, less⟩ := remaining_of_turn stored plain waiting outcome
              have later := ih others
              show (turns library.toSource limit after).length + 1 ≤ _
              omega

/-- A limit that is not less than what is left makes no difference. -/
theorem readQueue_of_remaining (plain : NoIncludes start.queue) {limit more : Nat}
    (enough : start.remaining library ≤ limit) (plenty : start.remaining library ≤ more) :
    readQueue library.toSource more start = readQueue library.toSource limit start ∧
      ∀ final, readQueue library.toSource limit start ≠ .error .lineLimit final := by
  induction limit generalizing start more with
  | zero =>
      have done : start.queue = [] := by
        rw [remaining] at enough
        exact List.length_eq_zero_iff.mp (by omega)
      rw [readQueue_nil _ done, readQueue_nil _ done]
      exact ⟨rfl, nofun⟩
  | succ limit ih =>
      cases waiting : start.queue with
      | nil =>
          rw [readQueue_nil _ waiting, readQueue_nil _ waiting]
          exact ⟨rfl, nofun⟩
      | cons line rest =>
          obtain ⟨others, rfl⟩ : ∃ others, more = others + 1 := by
            rw [remaining, waiting, List.length_cons] at plenty
            exact ⟨more - 1, by omega⟩
          rw [readQueue_succ waiting, readQueue_succ waiting]
          cases outcome : (Turn.next library.toSource start line rest).outcome with
          | error failure after => exact ⟨rfl, nofun⟩
          | ok value after =>
              obtain ⟨later, less⟩ := remaining_of_turn stored plain waiting outcome
              exact ih later (by omega) (by omega)

/-- No line that is read includes a text. -/
theorem plain_of_mem_turns (plain : NoIncludes start.queue) {limit : Nat} {turn : Turn}
    (listed : turn ∈ turns library.toSource limit start) :
    turn.source = library.toSource ∧ ∀ asked ∈ turn.line.splicing?, asked.1 = true := by
  induction limit generalizing start with
  | zero => cases listed
  | succ limit ih =>
      cases waiting : start.queue with
      | nil =>
          rw [turns, waiting] at listed
          cases listed
      | cons line rest =>
          have here : (Turn.next library.toSource start line rest).source = library.toSource ∧
              ∀ asked ∈ line.splicing?, asked.1 = true := by
            rw [waiting] at plain
            exact ⟨rfl, plain line List.mem_cons_self⟩
          rw [turns_succ waiting] at listed
          dsimp only at listed
          cases outcome : (Turn.next library.toSource start line rest).outcome with
          | error failure after =>
              rw [outcome] at listed
              rw [List.mem_singleton.mp listed]
              exact here
          | ok value after =>
              rw [outcome] at listed
              rcases List.mem_cons.mp listed with rfl | further
              · exact here
              · exact ih (remaining_of_turn stored plain waiting outcome).1 further

end Plain

/-- A line that includes no text puts nothing in front, or the text of the path that it imports. -/
theorem Turn.queued_of_plain {turn : Turn} (here : turn.source = library.toSource)
    (plain : ∀ asked ∈ turn.line.splicing?, asked.1 = true) :
    turn.queued = [] ∨
    ∃ path text, turn.imports? = some path ∧ library.texts.lookup path.key = some text ∧
      turn.queued = logicalLines path.text text := by
  cases asks : turn.asks? with
  | none => exact .inl (queued_of_kept (keeps_of_asks_none asks).1)
  | some asked =>
      obtain ⟨once, path⟩ := asked
      obtain ⟨operand, splicing⟩ := splicing?_of_asks? asks
      obtain rfl : once = true := plain _ splicing
      have imports : turn.imports? = some path := by rw [imports?, asks]
      by_cases before : path.key ∈ turn.state.imported
      · exact .inl (passes_of_imported imports before).2
      · have loads := loads_of_fresh imports before
        rw [Loads, here, Library.toSource] at loads
        cases stored : library.texts.lookup path.key with
        | none =>
            simp only [stored] at loads
            exact .inl loads.2
        | some text =>
            simp only [stored] at loads
            exact .inr ⟨path, text, imports, stored, loads.2⟩

/-! ## Whole runs -/

/-- Only reading can be stopped for reading too many lines. -/
theorem assembleAll_ne_lineLimit {source : Source} {allowance : Nat}
    (settles : ∀ final, readQueue source (start.queue.length + allowance) start ≠
      .error .lineLimit final) (final : Assembler) :
    assembleAll source allowance start ≠ .error .lineLimit final := by
  intro stopped
  rw [assembleAll, run_get_bind] at stopped
  cases reading : readQueue source (start.queue.length + allowance) start with
  | ok value read =>
      rw [run_bind_of_ok reading] at stopped
      exact (unlimited_resolveAll.bind fun _ => unlimited_takeCode) read final stopped
  | error stop read =>
      rw [run_bind_of_error reading] at stopped
      cases stopped
      exact settles final reading

/-- **Imports that go around in circles come to an end.** If no line includes a text, an assembly
with an allowance for as many lines as the library has is never stopped for reading too many, and a
greater allowance changes nothing. However far it reads, it reads no more lines than wait and the
library has. A line puts nothing in front of those that wait or the text of the path that it
imports, and of two lines that import the same path the later one puts nothing in front. -/
theorem assembleAll_terminates {library : Library} {start : Assembler}
    (plain : NoIncludes start.queue) (stored : library.NoIncludes) :
    (∀ final, assembleAll library.toSource library.lines start ≠ .error .lineLimit final) ∧
    (∀ allowance, library.lines ≤ allowance →
      assembleAll library.toSource allowance start =
        assembleAll library.toSource library.lines start) ∧
    ∀ limit,
      (turns library.toSource limit start).length ≤ start.queue.length + library.lines ∧
      (∀ turn ∈ turns library.toSource limit start, turn.queued = [] ∨
        ∃ path text, turn.imports? = some path ∧ library.texts.lookup path.key = some text ∧
          turn.queued = logicalLines path.text text) ∧
      (turns library.toSource limit start).Pairwise fun first second =>
        ∀ key, first.importsKey key = true → second.importsKey key = true →
          second.queued = [] := by
  have most : start.remaining library ≤ start.queue.length + library.lines :=
    Nat.add_le_add_left Library.linesBeyond_le _
  refine ⟨?_, fun allowance plenty => ?_, fun limit => ⟨?_, ?_, ?_⟩⟩
  · exact assembleAll_ne_lineLimit (readQueue_of_remaining stored plain most most).2
  · have more := Nat.le_trans most (Nat.add_le_add_left plenty _)
    exact assembleAll_congr (readQueue_of_remaining stored plain most more).1
  · exact Nat.le_trans (length_turns_le stored plain limit) most
  · intro turn listed
    obtain ⟨here, first⟩ := plain_of_mem_turns stored plain listed
    exact Turn.queued_of_plain here first
  · refine (chain_turns library.toSource limit start).pairwise.imp ?_
    exact fun later key imports again => (later key imports again).2

/-- Two texts that import each other and themselves, one of them through a macro. -/
def circularTexts : Library :=
  (Library.empty.insert "a" ".IMPORT a/\n.IMPORT b\nLEAVE").insert "b"
    ".SET other, a\n.IMPORT other\nLEAVE"

/-- The texts are imported, and then one that there is not. -/
def circularImports : Assembler :=
  initial.enqueue "main" ".IMPORT a\n.IMPORT c"

theorem assembleAll_terminates_circularImports :
    NoIncludes circularImports.queue ∧ circularTexts.NoIncludes ∧
    circularImports.queue.length + circularTexts.lines = 8 ∧
    (turns circularTexts.toSource 100 circularImports).map (·.line.place.render) =
      ["main:1", "a:1", "a:2", "b:1", "b:2", "b:3", "a:3", "main:2"] ∧
    ((turns circularTexts.toSource 100 circularImports).Pairwise fun first second =>
      ∀ key, first.importsKey key = true → second.importsKey key = true → second.queued = []) ∧
    ∃ final, assembleAll circularTexts.toSource 1000 circularImports =
      .error (.failed ⟨⟨"main", 2⟩, .sourceUnavailable ⟨"c"⟩ (.unknownSource ⟨"c"⟩)⟩) final := by
  have plain : NoIncludes circularImports.queue := by decide +kernel
  have stored : circularTexts.NoIncludes := by decide +kernel
  obtain ⟨-, same, reading⟩ := assembleAll_terminates plain stored
  refine ⟨plain, stored, by decide +kernel, by decide +kernel, (reading 100).2.2, ?_⟩
  rw [same 1000 (by decide +kernel)]
  exact exists_of_failure? (by decide +kernel)

end Assembler
end WordMachine
