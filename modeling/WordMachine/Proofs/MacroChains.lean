import Mathlib.Data.Finset.Card
import Mathlib.Data.Finset.Dedup
import Mathlib.Data.Finset.Range
import WordMachine.Assembly.Operand

/-!
# Chains of macros

Replacing a macro's name by its text, and trimming that, gives the next text of a *chain*
(`Assembly.MacroTable.chain`). A chain ends with the first text that is not a macro's name. It need
not end: each text on it may be the name of another macro, round and round.

Expanding an operand follows the chain without any memory of the names that it has seen. It counts
the replacements, and gives up at the first one beyond the number of macros. That is neither too
early nor too late. Among more texts than there are macros, if all of them are names, some name
comes twice (`Assembly.MacroTable.exists_repetition`), and from the second time on the chain goes on
as it did from the first, so that it has no end (`Assembly.MacroTable.not_ends_of_repetition`). So
the outcome is the end of the chain if there is one, however far away, and the error if there is
none (`Assembly.Scope.expand_follows_chain`). Nothing is asked of the table.
-/

set_option autoImplicit false

namespace WordMachine.Assembly

open WordMachine.Text

namespace MacroTable

/-- The text after a number of replacements. There is none if a text before it is not the name of a
macro. -/
def chain (table : MacroTable) (text : List Char) : Nat → Option (List Char)
  | 0 => some text
  | count + 1 => ((table.chain text count).bind table.find?).map trim

/-- After a number of replacements the chain is at the name of a macro. -/
def GoesOn (table : MacroTable) (text : List Char) (count : Nat) : Prop :=
  ∃ name replacement, table.chain text count = some name ∧ table.find? name = some replacement

/-- After a number of replacements the chain is at a text that is not the name of a macro. -/
def Ends (table : MacroTable) (text : List Char) (count : Nat) (last : List Char) : Prop :=
  table.chain text count = some last ∧ table.find? last = none

/-- The names of the macros. -/
def names (table : MacroTable) : Finset (List Char) :=
  (table.definitions.map Prod.fst).toFinset

variable {table : MacroTable} {text last : List Char}

theorem mem_names_of_find? {name replacement : List Char}
    (found : table.find? name = some replacement) : name ∈ table.names := by
  obtain ⟨before, after, whole, -⟩ := List.lookup_eq_some_iff.mp found
  refine List.mem_toFinset.mpr (List.mem_map.mpr ⟨(name, replacement), ?_, rfl⟩)
  rw [whole]
  exact List.mem_append_right _ List.mem_cons_self

theorem card_names_le (table : MacroTable) : table.names.card ≤ table.size := by
  have bound := List.toFinset_card_le (table.definitions.map Prod.fst)
  rwa [List.length_map] at bound

/-! ## Steps of a chain -/

/-- After the first replacement the chain is that of the text put in. -/
theorem chain_succ_of_find? {replacement : List Char}
    (found : table.find? text = some replacement) (count : Nat) :
    table.chain text (count + 1) = table.chain (trim replacement) count := by
  induction count with
  | zero => rw [chain, chain, chain, Option.bind_some, found, Option.map_some]
  | succ count ih => rw [chain, ih, ← chain]

theorem chain_succ_of_none (settled : table.find? text = none) (count : Nat) :
    table.chain text (count + 1) = none := by
  induction count with
  | zero => rw [chain, chain, Option.bind_some, settled, Option.map_none]
  | succ count ih => rw [chain, ih, Option.bind_none, Option.map_none]

/-- After texts that are the same a chain goes on alike. -/
theorem chain_add_congr {first second : Nat}
    (same : table.chain text first = table.chain text second) (more : Nat) :
    table.chain text (first + more) = table.chain text (second + more) := by
  induction more with
  | zero => exact same
  | succ more ih => rw [← Nat.add_assoc, ← Nat.add_assoc, chain, ih, ← chain]

/-- Before any text on the chain there are only names of macros. -/
theorem goesOn_of_lt {count earlier : Nat} (before : earlier < count)
    (reached : (table.chain text count).isSome) : table.GoesOn text earlier := by
  obtain ⟨rest, rfl⟩ := Nat.exists_eq_add_of_lt before
  clear before
  induction rest with
  | zero =>
      rw [Nat.add_zero, chain, Option.isSome_map] at reached
      obtain ⟨replacement, whole⟩ := Option.isSome_iff_exists.mp reached
      obtain ⟨name, named, found⟩ := Option.bind_eq_some_iff.mp whole
      exact ⟨name, replacement, named, found⟩
  | succ rest ih =>
      refine ih ?_
      rw [← Nat.add_assoc, chain, Option.isSome_map] at reached
      exact Option.isSome_of_isSome_bind reached

theorem GoesOn.not_ends {count : Nat} (goesOn : table.GoesOn text count) :
    ¬ table.Ends text count last := by
  rintro ⟨reached, settled⟩
  obtain ⟨name, replacement, named, found⟩ := goesOn
  cases named.symm.trans reached
  cases found.symm.trans settled

/-- A chain ends, or it goes on for ever. -/
theorem ends_or_goesOn (table : MacroTable) (text : List Char) :
    (∃ count last, table.Ends text count last) ∨ ∀ count, table.GoesOn text count := by
  by_cases ended : ∃ count last, table.Ends text count last
  · exact .inl ended
  · have further {count : Nat} {name : List Char} (reached : table.chain text count = some name) :
        table.GoesOn text count := by
      cases found : table.find? name with
      | none => exact absurd ⟨count, name, reached, found⟩ ended
      | some replacement => exact ⟨name, replacement, reached, found⟩
    refine .inr fun count => ?_
    induction count with
    | zero => exact further rfl
    | succ count ih =>
        obtain ⟨name, replacement, reached, found⟩ := ih
        have next : table.chain text (count + 1) = some (trim replacement) := by
          rw [chain, reached, Option.bind_some, found, Option.map_some]
        exact further next

/-! ## Repetitions -/

/-- A chain on which a text comes twice has no end. -/
theorem not_ends_of_repetition {first second : Nat} (apart : first < second)
    (reached : (table.chain text second).isSome)
    (same : table.chain text first = table.chain text second) (count : Nat) :
    ¬ table.Ends text count last := by
  rcases Nat.lt_or_ge count second with before | behind
  · exact (goesOn_of_lt before reached).not_ends
  · intro ended
    -- One round earlier the chain is at the same text, and from there it goes on.
    have round := chain_add_congr same (count - second)
    rw [Nat.add_sub_cancel' behind] at round
    have earlier : first + (count - second) < count := by omega
    have goesOn := goesOn_of_lt earlier (Option.isSome_of_eq_some ended.1)
    exact goesOn.not_ends ⟨round.trans ended.1, ended.2⟩

/-- **Among more texts than there are macros, if all are names, some name comes twice.** -/
theorem exists_repetition (named : ∀ count ≤ table.names.card, table.GoesOn text count) :
    ∃ first second, first < second ∧ second ≤ table.names.card ∧
      table.chain text first = table.chain text second := by
  have few : (table.names.image some).card < (Finset.range (table.names.card + 1)).card := by
    rw [Finset.card_range]
    exact Nat.lt_succ_of_le Finset.card_image_le
  have within : ∀ count ∈ Finset.range (table.names.card + 1),
      table.chain text count ∈ table.names.image some := by
    intro count inside
    obtain ⟨name, replacement, reached, found⟩ := named count (Finset.mem_range_succ_iff.mp inside)
    rw [reached]
    exact Finset.mem_image_of_mem some (mem_names_of_find? found)
  obtain ⟨first, firstIn, second, secondIn, apart, same⟩ :=
    Finset.exists_ne_map_eq_of_card_lt_of_maps_to few within
  rw [Finset.mem_range_succ_iff] at firstIn secondIn
  rcases Nat.lt_or_gt_of_ne apart with before | after
  · exact ⟨first, second, before, secondIn, same⟩
  · exact ⟨second, first, after, firstIn, same.symm⟩

/-- A chain that goes on for long enough comes to a text again. -/
theorem exists_reached_again (named : ∀ count ≤ table.names.card, table.GoesOn text count) :
    ∃ first second, first < second ∧ (table.chain text second).isSome ∧
      table.chain text first = table.chain text second := by
  obtain ⟨first, second, apart, inside, same⟩ := exists_repetition named
  obtain ⟨name, -, reached, -⟩ := named second inside
  exact ⟨first, second, apart, Option.isSome_of_eq_some reached, same⟩

/-- Before its end a chain has no more names than there are. It may have all of them. -/
theorem Ends.count_le {count : Nat} (ended : table.Ends text count last) :
    count ≤ table.names.card := by
  by_contra long
  have named : ∀ earlier ≤ table.names.card, table.GoesOn text earlier := fun earlier within =>
    goesOn_of_lt (by omega) (Option.isSome_of_eq_some ended.1)
  obtain ⟨first, second, apart, reached, same⟩ := exists_reached_again named
  exact not_ends_of_repetition apart reached same count ended

/-! ## Following a chain -/

theorem ends_of_none (settled : table.find? text = none) {count : Nat} :
    table.Ends text count last ↔ count = 0 ∧ text = last := by
  cases count with
  | zero =>
      constructor
      · rintro ⟨reached, -⟩
        exact ⟨rfl, Option.some.inj reached⟩
      · rintro ⟨-, rfl⟩
        exact ⟨rfl, settled⟩
  | succ count =>
      constructor
      · rintro ⟨reached, -⟩
        cases (chain_succ_of_none settled count).symm.trans reached
      · rintro ⟨none_left, -⟩
        cases none_left

theorem ends_succ_of_find? {replacement : List Char}
    (found : table.find? text = some replacement) {count : Nat} :
    table.Ends text (count + 1) last ↔ table.Ends (trim replacement) count last := by
  rw [Ends, Ends, chain_succ_of_find? found]

theorem follow?_iff_of_none (settled : table.find? text = none) (budget : Nat) :
    table.follow? budget text = some last ↔ ∃ count ≤ budget, table.Ends text count last := by
  have found : table.follow? budget text = some text := by
    cases budget with
    | zero =>
        rw [follow?, contains, settled]
        rfl
    | succ budget => rw [follow?, settled]
  rw [found, Option.some_inj]
  constructor
  · intro same
    exact ⟨0, Nat.zero_le budget, (ends_of_none settled).mpr ⟨rfl, same⟩⟩
  · rintro ⟨count, -, ended⟩
    exact ((ends_of_none settled).mp ended).2

/-- **Following a chain gives its end, if that is no further away than the number of replacements
allowed.** -/
theorem follow?_eq_some_iff {budget : Nat} :
    table.follow? budget text = some last ↔ ∃ count ≤ budget, table.Ends text count last := by
  induction budget generalizing text with
  | zero =>
      cases found : table.find? text with
      | none => exact follow?_iff_of_none found 0
      | some replacement =>
          have goesOn : table.GoesOn text 0 := ⟨text, replacement, rfl, found⟩
          rw [follow?, contains, found]
          constructor
          · intro same
            cases same
          · rintro ⟨count, inside, ended⟩
            obtain rfl := Nat.le_zero.mp inside
            exact absurd ended goesOn.not_ends
  | succ budget ih =>
      cases found : table.find? text with
      | none => exact follow?_iff_of_none found (budget + 1)
      | some replacement =>
          have goesOn : table.GoesOn text 0 := ⟨text, replacement, rfl, found⟩
          rw [follow?, found]
          refine ih.trans ⟨?_, ?_⟩
          · rintro ⟨count, inside, ended⟩
            exact ⟨count + 1, Nat.succ_le_succ inside, (ends_succ_of_find? found).mpr ended⟩
          · rintro ⟨count, inside, ended⟩
            cases count with
            | zero => exact absurd ended goesOn.not_ends
            | succ count =>
                exact ⟨count, Nat.le_of_succ_le_succ inside, (ends_succ_of_find? found).mp ended⟩

/-- There are replacements enough for any chain that ends. -/
theorem expand?_eq_some_iff :
    table.expand? text = some last ↔ ∃ count, table.Ends (trim text) count last := by
  rw [expand?, follow?_eq_some_iff]
  constructor
  · rintro ⟨count, -, ended⟩
    exact ⟨count, ended⟩
  · rintro ⟨count, ended⟩
    exact ⟨count, Nat.le_trans ended.count_le table.card_names_le, ended⟩

theorem expand?_eq_none_iff :
    table.expand? text = none ↔ ∀ count, table.GoesOn (trim text) count := by
  rcases table.ends_or_goesOn (trim text) with ⟨count, last, ended⟩ | goesOn
  · rw [expand?_eq_some_iff.mpr ⟨count, ended⟩]
    constructor
    · intro same
      cases same
    · intro goesOn
      exact absurd ended (goesOn count).not_ends
  · refine ⟨fun _ => goesOn, fun _ => Option.eq_none_iff_forall_ne_some.mpr fun last found => ?_⟩
    obtain ⟨count, ended⟩ := expand?_eq_some_iff.mp found
    exact (goesOn count).not_ends ended

/-- A chain goes on for ever if it comes to a text again, and only then. -/
theorem goesOn_iff_reached_again :
    (∀ count, table.GoesOn text count) ↔
      ∃ first second, first < second ∧ (table.chain text second).isSome ∧
        table.chain text first = table.chain text second := by
  constructor
  · intro goesOn
    exact exists_reached_again fun count _ => goesOn count
  · rintro ⟨first, second, apart, reached, same⟩
    rcases table.ends_or_goesOn text with ⟨count, last, ended⟩ | goesOn
    · exact absurd ended (not_ends_of_repetition apart reached same count)
    · exact goesOn

end MacroTable

namespace Scope

theorem expand_eq_ok_iff {scope : Scope} {text expanded : List Char} :
    scope.expand text = .ok expanded ↔ scope.macros.expand? text = some expanded := by
  rw [expand]
  cases scope.macros.expand? text with
  | none =>
      constructor
      · intro same
        cases same
      · intro same
        cases same
  | some found => rw [Except.ok.injEq, Option.some_inj]

/-- **Expanding an operand gives the end of its chain**, if the chain has one. It has none if it only
has names of macros, which is to say that it comes to some text again, and then expanding fails and
tells the operand. A chain that ends may be as long as there are names. -/
theorem expand_follows_chain (scope : Scope) (text : List Char) :
    let macros := scope.macros
    let start := trim text
    let circular : StatementError := .recursiveMacro (String.ofList start)
    (∀ last, scope.expand text = .ok last ↔ ∃ count, macros.Ends start count last) ∧
    (scope.expand text = .error circular ↔ ∀ count, macros.GoesOn start count) ∧
    (scope.expand text = .error circular ↔
      ∃ first second, first < second ∧ (macros.chain start second).isSome ∧
        macros.chain start first = macros.chain start second) ∧
    (∀ error, scope.expand text = .error error → error = circular) ∧
    ∀ count last, macros.Ends start count last → count ≤ macros.names.card := by
  intro macros start circular
  have fails : scope.expand text = .error circular ↔ macros.expand? text = none := by
    rw [expand]
    cases macros.expand? text with
    | none => exact ⟨fun _ => rfl, fun _ => rfl⟩
    | some last =>
        constructor
        · intro same
          cases same
        · intro same
          cases same
  have endless := fails.trans MacroTable.expand?_eq_none_iff
  refine ⟨fun last => expand_eq_ok_iff.trans MacroTable.expand?_eq_some_iff, endless,
    endless.trans MacroTable.goesOn_iff_reached_again, fun error failed => ?_,
    fun count last ended => ended.count_le⟩
  rw [expand] at failed
  split at failed
  · cases failed
  · exact (Except.error.inj failed).symm

/-- A chain over all macros there are. With one more step it would be a circle. -/
example :
    let chained : MacroTable :=
      ((MacroTable.empty.define ['A'] ['B']).define ['B'] [' ', 'C']).define ['C'] ['5']
    (Scope.mk chained .empty).expand ['A', ' '] = .ok ['5'] ∧
      (Scope.mk (chained.define ['5'] ['A']) .empty).expand ['A', ' '] =
        .error (.recursiveMacro "A") := by
  decide

end Scope
end WordMachine.Assembly
