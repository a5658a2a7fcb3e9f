import Mathlib.Data.List.Sort
import Mathlib.Data.String.Basic
import WordMachine.Proofs.LabelAddresses
import WordMachine.Proofs.LaterLabels
import WordMachine.Proofs.ListingLines

/-!
# Annotated listings

With the symbols at hand, the listing of an assembled text is the text again, as far as that states
instructions and defines labels (`Assembler.listing_shows_program`). Each instruction is shown on
a line of its own, with addresses for its labels, and before it the labels that have been defined
since the instruction before, in the order of their names.

The text may define and drop macros, and it may set the origin before there are any labels
(`Assembly.Listable`). Then two labels have the same address exactly if no instruction stands between
them, as long as there is room for all bytes in the memory. So it does not matter where the origin
is, and whether addresses pass the end of the memory.
-/

set_option autoImplicit false

namespace WordMachine

open Assembly

/-! ## Labels in order -/

namespace SymbolTable

/-- The order of labels decides how they are sorted. -/
theorem mergeSort_eq_of_perm {first second : List String} (same : first.Perm second) :
    first.mergeSort labelLe = second.mergeSort labelLe := by
  have sorted : ∀ labels : List String, (labels.mergeSort labelLe).SortedLE :=
    fun labels => List.sortedLE_mergeSort
  have perm := ((List.mergeSort_perm first labelLe).trans same).trans
    (List.mergeSort_perm second labelLe).symm
  exact perm.eq_of_sortedLE (sorted first) (sorted second)

end SymbolTable

/-! ## Texts that can be listed -/

namespace Assembly.LogicalLine

/-- The line states an instruction. -/
def States (line : LogicalLine) : Prop :=
  (Form.ofMnemonic? (String.ofList (Text.upper line.words.1))).isSome

/-- The line defines or drops a macro, or there is no statement on it. -/
def Prepares (line : LogicalLine) : Prop :=
  line.words.1 = [] ∨ line.directive? = some .define ∨ line.directive? = some .drop

/-- The line sets the origin. -/
def SetsOrigin (line : LogicalLine) : Prop :=
  line.directive? = some .origin

instance (line : LogicalLine) : Decidable line.States :=
  inferInstanceAs (Decidable ((_ : Option Form).isSome = true))

instance (line : LogicalLine) : Decidable line.Prepares :=
  inferInstanceAs (Decidable (_ ∨ _ ∨ _))

instance (line : LogicalLine) : Decidable line.SetsOrigin :=
  inferInstanceAs (Decidable (_ = _))

end Assembly.LogicalLine

/-- Lines that state instructions, define labels and macros, and set the origin before there are any
labels. -/
structure Assembly.Listable (lines : List LogicalLine) : Prop where
  kinds : ∀ line ∈ lines, line.States ∨ line.Prepares ∨ line.SetsOrigin
  unlabelled : ∀ line ∈ lines, line.SetsOrigin → line.label? = none
  early : lines.Pairwise fun earlier later => later.SetsOrigin → earlier.label? = none

instance (lines : List LogicalLine) : Decidable (Listable lines) :=
  decidable_of_iff
    ((∀ line ∈ lines, line.States ∨ line.Prepares ∨ line.SetsOrigin) ∧
      (∀ line ∈ lines, line.SetsOrigin → line.label? = none) ∧
      lines.Pairwise fun earlier later => later.SetsOrigin → earlier.label? = none)
    ⟨fun ⟨kinds, unlabelled, early⟩ => ⟨kinds, unlabelled, early⟩,
      fun listable => ⟨listable.kinds, listable.unlabelled, listable.early⟩⟩

namespace Assembly

theorem LogicalLine.directive?_of_states {line : LogicalLine} (states : line.States) :
    line.directive? = none := by
  obtain ⟨form, named⟩ := Option.isSome_iff_exists.mp states
  exact directive?_of_form named

theorem LogicalLine.directive?_of_blank {line : LogicalLine} (blank : line.words.1 = []) :
    line.directive? = none := by
  rw [directive?, blank]
  decide

/-- Without the name of a directive that splices there is nothing to splice. -/
theorem LogicalLine.splicing?_eq_none {line : LogicalLine}
    (other : ∀ once, line.directive? ≠ some (.splice once)) : line.splicing? = none := by
  rw [splicing?]
  split
  · rename_i mnemonic operand words
    split
    · rename_i once splices
      rw [directive?, words] at other
      exact absurd splices (other once)
    · rfl
  · rfl

theorem Listable.splicing? {lines : List LogicalLine} (listable : Listable lines) :
    ∀ line ∈ lines, line.splicing? = none := by
  intro line listed
  refine LogicalLine.splicing?_eq_none fun once splices => ?_
  rcases listable.kinds line listed with states | (blank | defines | drops) | sets
  · rw [LogicalLine.directive?_of_states states] at splices
    cases splices
  · rw [LogicalLine.directive?_of_blank blank] at splices
    cases splices
  · rw [defines] at splices
    cases splices
  · rw [drops] at splices
    cases splices
  · rw [LogicalLine.SetsOrigin, splices] at sets
    cases sets

end Assembly

namespace Assembler

/-! ## The listing of a text -/

/-- What the line states when labels have these addresses. -/
def Turn.stated? (turn : Turn) (symbols : SymbolTable) : Option Instruction :=
  match (turn.state.scope.knowing symbols).statement
      (String.ofList (Text.upper turn.line.words.1)) turn.line.words.2 with
  | .ok ⟨instruction, none⟩ => some instruction
  | _ => none

/-- The name of the label of the line. -/
def Turn.name? (turn : Turn) : Option String :=
  turn.line.label?.map String.ofList

/-- What a line has to show: the label that it defines, the instruction that it states, and the offset
where it stands. -/
structure Showing where
  name? : Option String
  stated? : Option Instruction
  offset : Nat
  deriving DecidableEq

/-- What the line has to show when labels have these addresses. -/
def Turn.showing (symbols : SymbolTable) (turn : Turn) : Showing :=
  ⟨turn.name?, turn.stated? symbols, turn.state.code.size⟩

/-- The lines that show a text: for each instruction the labels since the one before it, in the order
of their names, and the instruction itself behind its offset, which has four digits at least. -/
def annotated : List String → List Showing → List String
  | _, [] => []
  | pending, showing :: rest =>
      let labels := pending ++ showing.name?.toList
      match showing.stated? with
      | some instruction =>
          (labels.mergeSort fun first second => first ≤ second).map (· ++ ":") ++
            ("+" ++ String.ofList ((Nat.toDigits 16 showing.offset).leftpad 4 '0') ++ "  " ++
              instruction.text) :: annotated [] rest
      | none => annotated labels rest

/-! ## Lines that are read -/

/-- Defining and dropping macros leaves the code alone. -/
theorem code_of_macros {source : Source} {name : String} {operands : List (List Char)}
    {state after : Assembler}
    (macros : Directive.ofName? name = some .define ∨ Directive.ofName? name = some .drop)
    (done : direct source name operands state = .ok () after) : after.code = state.code := by
  rcases macros with defines | drops
  · rcases operands with _ | ⟨label, _ | ⟨text, _ | ⟨third, rest⟩⟩⟩ <;>
      simp only [direct, defines] at done
    case cons.cons.nil =>
      rw [defineMacro, run_get_bind] at done
      split at done
      · cases done
      · split at done
        · cases done
        · cases done
          rfl
    all_goals cases done
  · rcases operands with _ | ⟨label, _ | ⟨second, rest⟩⟩ <;> simp only [direct, drops] at done
    case cons.nil =>
      cases done
      rfl
    all_goals cases done

section Turns

variable {turn : Turn} {after : Assembler}

/-- Lines that state no instruction emit nothing. -/
theorem Turn.emission?_of_prepares (done : turn.outcome = .ok () after)
    (kind : turn.line.Prepares ∨ turn.line.SetsOrigin) :
    turn.emission? = none ∧ turn.emitted = [] := by
  have nameless : ∀ emission, turn.emission? = some emission → turn.line.words.1 ≠ [] := by
    intro emission states nothing
    obtain ⟨form, named⟩ := form_of_emission? states
    have undotted := Form.undotted_of_ofMnemonic? named
    rw [nothing] at undotted
    cases undotted
  have none : turn.emission? = none := by
    cases states : turn.emission? with
    | none => rfl
    | some emission =>
        have undirected := directive?_of_emission? states
        rcases kind with (nothing | defines | drops) | sets
        · exact absurd nothing (nameless emission states)
        · rw [undirected] at defines
          cases defines
        · rw [undirected] at drops
          cases drops
        · rw [LogicalLine.SetsOrigin, undirected] at sets
          cases sets
  refine ⟨none, emitted_of_append done ?_⟩
  rw [Code.append_nil]
  rcases direct_of_no_emission done none with ⟨rfl, -⟩ | directs
  · rfl
  · have code : (turn.state.labelled turn.line).code = turn.state.code := rfl
    rw [← code]
    rcases kind with (blank | macros) | sets
    · have undirected := LogicalLine.directive?_of_blank blank
      rw [LogicalLine.directive?] at undirected
      simp only [direct, undirected] at directs
      cases directs
    · rw [LogicalLine.directive?] at macros
      exact code_of_macros macros directs
    · obtain ⟨address, value, -, -, rfl⟩ := direct_origin sets directs
      rfl

/-- A line with the mnemonic of an instruction states one, if it is right. -/
theorem Turn.emission?_of_form {form : Form} (done : turn.outcome = .ok () after)
    (named : Form.ofMnemonic? (String.ofList (Text.upper turn.line.words.1)) = some form) :
    ∃ emission, turn.emission? = some emission := by
  have read := readStatement_of_ok done
  rw [emission?]
  rcases words : turn.line.words with ⟨mnemonic, operands⟩
  rw [words] at named
  obtain ⟨emission, given, -⟩ := readStatement_ok words named read
  dsimp only
  rw [given]
  exact ⟨emission, rfl⟩

/-- A line that is right states what its mnemonic says. -/
theorem Turn.isSome_emission? (done : turn.outcome = .ok () after) :
    turn.emission?.isSome ↔ turn.line.States := by
  constructor
  · intro states
    obtain ⟨emission, found⟩ := Option.isSome_iff_exists.mp states
    obtain ⟨form, named⟩ := form_of_emission? found
    exact Option.isSome_of_eq_some named
  · intro states
    cases named : Form.ofMnemonic? (String.ofList (Text.upper turn.line.words.1)) with
    | none =>
        rw [LogicalLine.States, named] at states
        cases states
    | some form =>
        obtain ⟨emission, found⟩ := emission?_of_form done named
        exact Option.isSome_of_eq_some found

/-- **What was emitted for a line is what it states in the end.** -/
theorem Turn.stated?_eq {symbols : SymbolTable} (done : turn.outcome = .ok () after)
    (grown : after.scope.symbols.Extends symbols)
    (known : ∀ emission, turn.emission? = some emission → ∀ label ∈ emission.forward,
      ∃ address, symbols.address? label = some address ∧ address.toNat ≤ 0xFFFF) :
    turn.stated? symbols = turn.emission?.map fun emission => emission.resolved symbols := by
  cases states : turn.emission? with
  | some emission =>
      have added : after.scope.symbols = (turn.state.labelled turn.line).scope.symbols := by
        rw [append_of_emission? done states]
        rfl
      have complete := Scope.statement_knowing (added ▸ grown) (statement_of_emission? states)
        (known emission states)
      have same : (turn.state.labelled turn.line).scope.knowing symbols =
          turn.state.scope.knowing symbols := rfl
      rw [same] at complete
      rw [stated?, complete]
      rfl
  | none =>
      have unnamed : Form.ofMnemonic? (String.ofList (Text.upper turn.line.words.1)) = none := by
        cases named : Form.ofMnemonic? (String.ofList (Text.upper turn.line.words.1)) with
        | none => rfl
        | some form =>
            obtain ⟨emission, found⟩ := emission?_of_form done named
            rw [states] at found
            cases found
      simp only [stated?, Scope.statement, unnamed]
      rfl

end Turns

/-! ## Labels and offsets -/

/-- The labels of some lines, each with the size of the code when its line was read. -/
def marks (row : List Turn) : List (String × Nat) :=
  row.filterMap fun turn => turn.name?.map fun name => (name, turn.state.code.size)

/-- The labels that stand at an offset. -/
def standing (marks : List (String × Nat)) (offset : Nat) : List String :=
  (marks.filter fun mark => mark.2 == offset).map Prod.fst

/-- The lines that show what stands at an offset, with the labels there. -/
def shown (marks : List (String × Nat)) (line : Listing.Line) : List String :=
  ((standing marks line.offset).mergeSort SymbolTable.labelLe).map (· ++ ":") ++ [line.render]

theorem marks_cons (turn : Turn) (row : List Turn) :
    marks (turn :: row) =
      (turn.name?.map fun name => (name, turn.state.code.size)).toList ++ marks row := by
  rw [marks, marks, List.filterMap_cons]
  cases turn.name? <;> rfl

theorem standing_append (first second : List (String × Nat)) (offset : Nat) :
    standing (first ++ second) offset = standing first offset ++ standing second offset := by
  rw [standing, List.filter_append, List.map_append]
  rfl

theorem standing_eq_nil {marks : List (String × Nat)} {offset : Nat}
    (away : ∀ mark ∈ marks, mark.2 ≠ offset) : standing marks offset = [] := by
  rw [standing, List.filter_eq_nil_iff.mpr fun mark listed same => away mark listed (eq_of_beq same)]
  rfl

theorem standing_here (name? : Option String) (offset : Nat) :
    standing (name?.map fun name => (name, offset)).toList offset = name?.toList := by
  cases name? with
  | none => rfl
  | some name => simp [standing]

namespace Runs

variable {source : Source} {start read : Assembler} {row : List Turn} {symbols : SymbolTable}

/-- The code only grows, so that later labels stand behind earlier ones. -/
theorem marks_within (runs : Runs source start row read) :
    ∀ mark ∈ marks row, start.code.size ≤ mark.2 ∧ mark.2 ≤ read.code.size := by
  intro mark listed
  obtain ⟨turn, stands, named⟩ := List.mem_filterMap.mp listed
  obtain ⟨name, -, rfl⟩ := Option.map_eq_some_iff.mp named
  obtain ⟨earlier, later, rfl⟩ := List.append_of_mem stands
  obtain ⟨between, rest, after, front, next, done, back⟩ := runs.visit
  have behind := congrArg Code.size front.code
  have ahead := congrArg Code.size back.code
  rw [Code.size_append] at behind
  rw [Code.size_append, (Turn.adds_of_ok done).code, Code.size_append] at ahead
  have here : turn.state.code.size = between.code.size := by
    rw [next]
  dsimp only
  omega

/-- **The lines of the listing are those of the text.** Of the labels before these lines, those at
the end of the code so far are still to be shown. -/
theorem shown_lines (runs : Runs source start row read)
    (quiet : ∀ turn ∈ row, turn.emission? = none → turn.emitted = [])
    (stated : ∀ turn ∈ row, turn.stated? symbols =
      turn.emission?.map fun emission => emission.resolved symbols)
    (before : List (String × Nat)) (behind : ∀ mark ∈ before, mark.2 ≤ start.code.size) :
    (Listing.linesFrom start.code.size
        (row.flatMap fun turn => turn.settled symbols)).flatMap (shown (before ++ marks row)) =
      annotated (standing before start.code.size) (row.map (Turn.showing symbols)) := by
  induction runs generalizing before with
  | nil state =>
      rw [List.flatMap_nil, Listing.linesFrom]
      rfl
  | @cons start between read line rest row waiting done more ih =>
      let turn := Turn.next source start line rest
      let mark := (turn.name?.map fun name => (name, start.code.size)).toList
      have size : between.code.size = start.code.size + (turn.settled symbols).length := by
        rw [(Turn.adds_of_ok done).code, Code.size_append, Turn.length_settled done]
      have reached : ∀ entry ∈ before ++ mark, entry.2 ≤ start.code.size := by
        intro entry listed
        rcases List.mem_append.mp listed with old | new
        · exact behind entry old
        · obtain ⟨name, -, rfl⟩ := Option.map_eq_some_iff.mp (Option.mem_toList.mp new)
          exact Nat.le_refl _
      have next := ih (fun turn listed => quiet turn (List.mem_cons_of_mem _ listed))
        (fun turn listed => stated turn (List.mem_cons_of_mem _ listed)) (before ++ mark)
        fun entry listed => Nat.le_trans (reached entry listed) (by omega)
      have here : standing (before ++ mark) start.code.size =
          standing before start.code.size ++ turn.name?.toList := by
        rw [standing_append, standing_here]
      have marked : before ++ marks (turn :: row) = before ++ mark ++ marks row := by
        rw [marks_cons, List.append_assoc]
      rw [marked, List.flatMap_cons, List.map_cons, annotated, Turn.showing,
        stated turn List.mem_cons_self]
      cases states : turn.emission? with
      | none =>
          have nothing : turn.settled symbols = [] := by
            rw [Turn.settled, states]
            exact quiet turn List.mem_cons_self states
          rw [nothing, List.length_nil, Nat.add_zero] at size
          rw [size, here] at next
          rw [Option.map_none, ← next, nothing, List.nil_append]
      | some emission =>
          have sound := Turn.sound_of_emission? states
          have bytes := Turn.settled_of_emission? states symbols
          have grown : start.code.size < between.code.size := by
            rw [size, bytes, Encoding.length_bytes]
            have := List.length_pos_iff.mpr (emission.settled symbols).words_ne_nil
            omega
          -- No label further on stands here, and none of those here is shown again.
          have further : standing (marks row) start.code.size = [] :=
            standing_eq_nil fun entry listed => by
              have := (more.marks_within entry listed).1
              omega
          have shown_all : standing (before ++ mark) between.code.size = [] :=
            standing_eq_nil fun entry listed => by
              have := reached entry listed
              omega
          rw [shown_all, size, bytes] at next
          rw [Option.map_some, bytes, Listing.linesFrom_of_denotes sound.denotes_settled,
            List.flatMap_cons, shown, standing_append _ (marks row), here, further, List.append_nil,
            List.append_assoc, next]
          rfl

/-- The lines are those that wait, unless more are spliced in. -/
theorem queue_eq (runs : Runs source start row read)
    (plain : ∀ line ∈ start.queue, line.splicing? = none) :
    start.queue = row.map Turn.line ++ read.queue := by
  induction runs with
  | nil state => rfl
  | @cons start between read line rest row waiting done more ih =>
      rw [waiting] at plain ⊢
      have kept := ((ignoresQueue_readLine (plain line List.mem_cons_self)).keeps_ok done).1
      rw [kept] at ih
      rw [List.map_cons, List.cons_append,
        ← ih fun line listed => plain line (List.mem_cons_of_mem _ listed)]

/-- A label that comes after all origins has its address from the last of them. -/
theorem origin_of_label? (runs : Runs source start row read)
    (listable : Listable (row.map Turn.line)) :
    ∀ turn ∈ row, turn.line.label? ≠ none → turn.state.origin = read.origin := by
  intro turn listed labelled
  obtain ⟨earlier, later, rfl⟩ := List.append_of_mem listed
  obtain ⟨between, rest, after, front, next, done, back⟩ := runs.visit
  have stays : turn.origin? = none := Turn.origin?_of_directive? fun sets =>
    labelled (listable.unlabelled _ (List.mem_map_of_mem listed) sets)
  have behind : later.filterMap Turn.origin? = [] := by
    refine List.filterMap_eq_nil_iff.mpr fun other stands =>
      Turn.origin?_of_directive? fun sets => ?_
    have early := listable.early
    rw [List.map_append, List.map_cons, List.pairwise_append, List.pairwise_cons] at early
    exact labelled (early.2.1.1 other.line (List.mem_map_of_mem stands) sets)
  rw [back.origin, originAfter, behind, (Turn.adds_of_ok done).origin, stays]
  rfl

/-- The labels that lines define, with addresses from one origin. -/
theorem entries_eq (runs : Runs source start row read)
    (fixed : ∀ turn ∈ row, turn.line.label? ≠ none → turn.state.origin = read.origin) :
    (row.filterMap fun turn => turn.line.entry? turn.state) =
      (marks row).map fun mark => (mark.1, read.origin + UInt32.ofNat mark.2) := by
  rw [marks, List.map_filterMap]
  refine List.filterMap_congr fun turn listed => ?_
  obtain ⟨after, done, -⟩ := runs.ok_of_mem listed
  rw [LogicalLine.entry?, Turn.labelFault?_of_ok done, Turn.name?]
  cases named : turn.line.label? with
  | none => rfl
  | some label =>
      have origin := fixed turn listed (by rw [named]; exact Option.some_ne_none _)
      simp only [Option.map_some, cursor, origin]

/-- Sizes below the size of the memory lead to different addresses. -/
theorem address_inj {origin : UInt32} {first second : Nat} (small : first < 2 ^ 32)
    (other : second < 2 ^ 32)
    (same : origin + UInt32.ofNat first = origin + UInt32.ofNat second) : first = second := by
  have words := congrArg UInt32.toNat ((UInt32.add_right_inj origin).mp same)
  rwa [UInt32.toNat_ofNat_of_lt' small, UInt32.toNat_ofNat_of_lt' other] at words

/-- **The labels at the address of an offset are those that stand there.** -/
theorem labelsAt_eq (runs : Runs source start row read)
    (fresh : start.scope.symbols.definitions = [])
    (fixed : ∀ turn ∈ row, turn.line.label? ≠ none → turn.state.origin = read.origin)
    (small : read.code.size < 2 ^ 32) {offset : Nat} (inside : offset < 2 ^ 32) :
    read.scope.symbols.labelsAt (read.origin + UInt32.ofNat offset) =
      (standing (marks row) offset).mergeSort SymbolTable.labelLe := by
  refine SymbolTable.mergeSort_eq_of_perm ?_
  have within : ∀ mark ∈ marks row, mark.2 < 2 ^ 32 := fun mark listed =>
    Nat.lt_of_le_of_lt (runs.marks_within mark listed).2 small
  have known : read.scope.symbols.definitions.Perm
      ((marks row).map fun mark => (mark.1, read.origin + UInt32.ofNat mark.2)) := by
    rw [runs.definitions, fresh, List.append_nil, ← runs.entries_eq fixed]
    exact (List.reverse_perm row).filterMap _
  refine ((known.filter _).map _).trans (.of_eq ?_)
  rw [List.filter_map, List.map_map, standing]
  have same : ∀ mark ∈ marks row,
      ((fun entry : String × UInt32 => entry.2 == read.origin + UInt32.ofNat offset) ∘
        fun mark => (mark.1, read.origin + UInt32.ofNat mark.2)) mark = (mark.2 == offset) := by
    intro mark listed
    rw [Bool.eq_iff_iff, beq_iff_eq, Function.comp_apply, beq_iff_eq]
    exact ⟨address_inj (within mark listed) inside, fun same => by rw [same]⟩
  rw [List.filter_congr same]
  rfl

end Runs

namespace Assembles

variable {source : Source} {start final : Assembler} {row : List Turn} {bytes : Array UInt8}

/-- What was emitted for the lines is what they state in the end. -/
theorem stated?_eq (assembles : Assembles source start row bytes final) :
    ∀ turn ∈ row, turn.stated? final.scope.symbols =
      turn.emission?.map fun emission => emission.resolved final.scope.symbols := by
  intro turn listed
  obtain ⟨read, runs, -, scope, -⟩ := assembles.runs
  obtain ⟨after, done, behind⟩ := runs.ok_of_mem listed
  exact Turn.stated?_eq done (scope ▸ behind.symbols) (assembles.known turn listed)

/-- What a line states is found in the bytes, where the code ended when the line was read. -/
theorem fetch_of_stated? (assembles : Assembles source start row bytes final)
    (blank : start.code = .empty) {turn : Turn} (listed : turn ∈ row) {instruction : Instruction}
    (states : turn.stated? final.scope.symbols = some instruction) :
    ∃ reader, fetch ByteReader.next ⟨bytes, turn.state.code.size⟩ =
      .ok (.instruction instruction) reader := by
  rw [assembles.stated?_eq turn listed] at states
  obtain ⟨emission, emits, rfl⟩ := Option.map_eq_some_iff.mp states
  obtain ⟨read, runs, -⟩ := assembles.runs
  obtain ⟨earlier, later, parts⟩ := List.append_of_mem listed
  obtain ⟨between, rest, after, front, next, -⟩ := (parts ▸ runs).visit
  have stands := assembles.prefix_settled parts
  have size : turn.state.code.size = (earlier.flatMap Turn.emitted).length := by
    rw [← front.code_of_empty blank, Array.length_toList, next]
    rfl
  rw [Turn.settled_of_emission? emits, ← size] at stands
  exact ⟨_, fetch_of_holds (Turn.sound_of_emission? emits).denotes_settled (Holds.iff_prefix.mpr stands)⟩

/-- A listing shows each line with the labels that stand at its offset. -/
theorem render_eq (assembles : Assembles source start row bytes final)
    (blank : start.code = .empty) (fresh : start.scope.symbols.definitions = [])
    (listable : Listable (row.map Turn.line)) (small : bytes.size < 2 ^ 32) :
    Listing.render bytes.toList final.origin (some final.scope.symbols) =
      String.join (((Listing.lines bytes.toList).flatMap (shown (marks row))).map (· ++ "\n")) := by
  obtain ⟨read, runs, -, scope, origin⟩ := assembles.runs
  have sweeps := Listing.sweeps_linesFrom (Nat.zero_le bytes.size)
  rw [List.drop_zero] at sweeps
  have size : read.code.size = bytes.size := by
    have whole : bytes.size = bytes.toList.length := Array.length_toList.symm
    rw [whole, assembles.bytes,
      length_flatMap_settled (runs.length_settled _), ← runs.code_of_empty blank, Array.length_toList]
    rfl
  have each : ∀ line ∈ Listing.lines bytes.toList,
      Listing.labelLines (some final.scope.symbols) (final.origin + UInt32.ofNat line.offset) ++
        [line.render] = shown (marks row) line := by
    intro line listed
    have inside := Nat.lt_trans (sweeps.offset_lt line listed) small
    rw [Listing.labelLines, shown, ← scope, ← origin]
    rw [runs.labelsAt_eq fresh (runs.origin_of_label? listable) (size ▸ small) inside]
  rw [Listing.render, List.map_flatMap]
  congr 1
  refine List.flatMap_congr fun line listed => ?_
  rw [each line listed]

end Assembles

/-- **The listing of an assembled text shows the text.** All its lines are read, and those with the
mnemonic of an instruction state one. It is found in the bytes at the offset that is shown. -/
theorem listing_shows_program (name text : String) (source : Source) (allowance : Nat)
    {bytes : Array UInt8} {final : Assembler}
    (run : assembleAll source allowance (initial.enqueue name text) = .ok bytes final)
    (listable : Listable (logicalLines name text)) (small : bytes.size < 2 ^ 32) :
    let start := initial.enqueue name text
    let row := turns source (start.queue.length + allowance) start
    let symbols := final.scope.symbols
    row.map Turn.line = logicalLines name text ∧
    (∀ turn ∈ row, ((turn.stated? symbols).isSome ↔ turn.line.States) ∧
      ∀ instruction, turn.stated? symbols = some instruction → ∃ reader,
        fetch ByteReader.next ⟨bytes, turn.state.code.size⟩ = .ok (.instruction instruction) reader) ∧
    Listing.render bytes.toList final.origin (some symbols) =
      String.join ((annotated [] (row.map (Turn.showing symbols))).map (· ++ "\n")) := by
  intro start row symbols
  have assembles : Assembles source start row bytes final :=
    assembles_of_ok rfl (Patch.Row.nil _ _) run
  obtain ⟨read, runs, finished, scope, origin⟩ := assembles.runs
  have queue : start.queue = logicalLines name text := List.append_nil _
  have lines : row.map Turn.line = logicalLines name text := by
    have all := runs.queue_eq (queue ▸ listable.splicing?)
    rw [finished, List.append_nil] at all
    exact all.symm.trans queue
  have quiet : ∀ turn ∈ row, turn.emission? = none → turn.emitted = [] := by
    intro turn listed none
    obtain ⟨after, done, -⟩ := runs.ok_of_mem listed
    have kind := listable.kinds turn.line (lines ▸ List.mem_map_of_mem listed)
    rcases kind with states | other
    · rw [← Turn.isSome_emission? done, none] at states
      cases states
    · exact (Turn.emission?_of_prepares done other).2
  refine ⟨lines, fun turn listed => ⟨?_, fun instruction states =>
    assembles.fetch_of_stated? rfl listed states⟩, ?_⟩
  · obtain ⟨after, done, -⟩ := runs.ok_of_mem listed
    rw [assembles.stated?_eq turn listed, Option.isSome_map]
    exact Turn.isSome_emission? done
  · have shows := runs.shown_lines quiet assembles.stated?_eq [] nofun
    rw [← assembles.bytes, List.nil_append] at shows
    rw [assembles.render_eq rfl rfl (lines ▸ listable) small]
    exact congrArg (fun shown => String.join (List.map _ shown)) shows

/-- A text whose code starts two bytes before the end of the memory. Two labels share an address,
and the first instruction waits for the one after them. -/
def acrossTheEnd : String :=
  ".ORG 0xFFFFFFFE\nzebra:\nant: RET back\n.SET target, back\nback: RET target\nlast:"

/-- The lines of the text as they are read. -/
def acrossTheEndRow : List Turn :=
  turns sharedTexts.toSource 6 (initial.enqueue "main" acrossTheEnd)

/-- The bytes of the text, with the address behind the end filled in as an extension. -/
def acrossTheEndBytes : Array UInt8 := #[0xE0, 0x00, 0x32, 0x02, 0x32, 0x02]

/-- The labels of the text. -/
def acrossTheEndSymbols : SymbolTable :=
  ⟨[("last", 4), ("back", 2), ("ant", 0xFFFFFFFE), ("zebra", 0xFFFFFFFE)]⟩

/-- What the lines of the text have to show. -/
def acrossTheEndShowings : List Showing :=
  [⟨none, none, 0⟩, ⟨some "zebra", none, 0⟩, ⟨some "ant", some ⟨.ret, .imm 2⟩, 0⟩,
    ⟨none, none, 4⟩, ⟨some "back", some ⟨.ret, .imm 2⟩, 4⟩, ⟨some "last", none, 6⟩]

theorem listing_shows_program_acrossTheEnd :
    Listable (logicalLines "main" acrossTheEnd) ∧ acrossTheEndBytes.size < 2 ^ 32 ∧
    (∃ final, assembleAll sharedTexts.toSource 0 (initial.enqueue "main" acrossTheEnd) =
      .ok acrossTheEndBytes final ∧ final.scope.symbols = acrossTheEndSymbols) ∧
    acrossTheEndRow.map (Turn.showing acrossTheEndSymbols) = acrossTheEndShowings ∧
    Listing.render acrossTheEndBytes.toList 0xFFFFFFFE (some acrossTheEndSymbols) =
      "ant:\nzebra:\n+0000  RET        0x2\nback:\n+0004  RET        0x2\n" := by
  have listable : Listable (logicalLines "main" acrossTheEnd) := by decide +kernel
  have small : acrossTheEndBytes.size < 2 ^ 32 := by decide
  have showings : acrossTheEndRow.map (Turn.showing acrossTheEndSymbols) =
      acrossTheEndShowings := by
    decide +kernel
  have evaluated : passes (fun bytes final => bytes == acrossTheEndBytes &&
      (final.origin == 0xFFFFFFFE &&
        final.scope.symbols.definitions == acrossTheEndSymbols.definitions))
      (assembleAll sharedTexts.toSource 0 (initial.enqueue "main" acrossTheEnd)) = true := by
    decide +kernel
  obtain ⟨bytes, final, run, same⟩ := exists_of_passes evaluated
  rw [Bool.and_eq_true, Bool.and_eq_true, beq_iff_eq, beq_iff_eq, beq_iff_eq] at same
  obtain ⟨rfl, origin, definitions⟩ := same
  have symbols : final.scope.symbols = acrossTheEndSymbols := congrArg SymbolTable.mk definitions
  obtain ⟨-, -, shows⟩ :=
    listing_shows_program "main" acrossTheEnd sharedTexts.toSource 0 run listable small
  have sorted :
      (["zebra", "ant"].mergeSort fun first second => first ≤ second) = ["ant", "zebra"] := by
    simp [List.mergeSort]
  have lines : annotated [] acrossTheEndShowings =
      ["ant:", "zebra:", "+0000  RET        0x2", "back:", "+0004  RET        0x2"] := by
    simp only [acrossTheEndShowings, annotated, Option.toList_none, Option.toList_some,
      List.nil_append, List.append_nil, List.singleton_append, sorted, List.mergeSort_singleton]
    decide +kernel
  have row : turns sharedTexts.toSource
      ((initial.enqueue "main" acrossTheEnd).queue.length + 0) (initial.enqueue "main" acrossTheEnd) =
        acrossTheEndRow :=
    rfl
  rw [symbols, origin, row, showings, lines] at shows
  exact ⟨listable, small, ⟨final, run, symbols⟩, showings, shows.trans (by decide)⟩

end Assembler
end WordMachine
