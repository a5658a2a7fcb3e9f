import WordMachine.Proofs.LineRuns

/-!
# Addresses of labels

A label gets its address when its line is read, and the address is final. It is the origin of that
moment and the number of bytes that the lines before have emitted, modulo the size of the memory. The
bytes of the next line that emits any are found there, since every later line appends, and filling in
an address replaces as many bytes as there were.

This holds whatever has been spliced in, and whatever origins have been set, between the definition
and the end (`Assembler.labels_are_final`). A label cannot be defined again, not even at the address
that it has.
-/

set_option autoImplicit false

namespace WordMachine

open Assembly

namespace Assembler

/-! ## What a line emits in the end -/

namespace Turn

/-- The bytes that stand in the end for those that the line emits. They are the same, unless its
instruction waits for a label; then the address has been filled in. -/
def settled (turn : Turn) (symbols : SymbolTable) : List UInt8 :=
  match turn.emission? with
  | some emission => (emission.settled symbols).bytes
  | none => turn.emitted

variable {turn : Turn} {after : Assembler}

theorem settled_of_emission? {emission : Emission} (states : turn.emission? = some emission)
    (symbols : SymbolTable) : turn.settled symbols = (emission.settled symbols).bytes := by
  rw [settled, states]

/-- Filling in an address replaces as many bytes as there were. -/
theorem length_settled (done : turn.outcome = .ok () after) (symbols : SymbolTable) :
    (turn.settled symbols).length = turn.emitted.length := by
  cases states : turn.emission? with
  | none => rw [settled, states]
  | some emission =>
      rw [settled_of_emission? states, emitted_of_emission? done states, Encoding.length_bytes,
        Encoding.length_bytes, (sound_of_emission? states).length_settled]

theorem settled_of_waiting? (done : turn.outcome = .ok () after) (symbols : SymbolTable)
    (waits : turn.waiting? = none) : turn.settled symbols = turn.emitted := by
  cases states : turn.emission? with
  | none => rw [settled, states]
  | some emission =>
      rw [waiting?, states, Option.bind_some, Option.map_eq_none_iff] at waits
      rw [settled_of_emission? states, emitted_of_emission? done states, Emission.settled, waits]
      rfl

/-- **What a line emits stands in the end where the code ended when the line was read.** -/
theorem prefix_settled {boundary : Nat} {read : Assembler} {code : Code}
    (row : Patch.Row boundary turn.state.code turn.state.patches.toList)
    (untouched : Patch.Untouched read.patches.toList read.code code)
    (filled : ∀ patch ∈ read.patches.toList, patch.Filled read.scope.symbols read.code code)
    (done : turn.outcome = .ok () after) (reads : Reads after read) :
    turn.settled read.scope.symbols <+: code.bytes.toList.drop turn.state.code.size := by
  cases states : turn.emission? with
  | none =>
      have adds := adds_of_ok done
      rw [settled, states]
      refine prefix_of_append row untouched adds.code ?_ reads
      rw [adds.patches, waiting?, states]
      exact List.append_nil _
  | some emission =>
      rw [append_of_emission? done states] at reads
      rw [settled_of_emission? states]
      exact Holds.iff_prefix.mp (@holds_of_append (turn.state.labelled turn.line) _ _ _ row untouched
        _ _ (sound_of_emission? states) reads filled)

end Turn

/-- **What lines emit stands in the end one after the other.** -/
theorem Runs.prefix_settled {source : Source} {start read : Assembler} {row : List Turn}
    {boundary : Nat} {code : Code} (runs : Runs source start row read)
    (within : boundary ≤ start.code.size)
    (pending : Patch.Row boundary start.code start.patches.toList)
    (untouched : Patch.Untouched read.patches.toList read.code code)
    (filled : ∀ patch ∈ read.patches.toList, patch.Filled read.scope.symbols read.code code) :
    row.flatMap (fun turn => turn.settled read.scope.symbols) <+:
      code.bytes.toList.drop start.code.size := by
  induction runs with
  | nil state => exact List.nil_prefix
  | @cons start between read line rest row waiting done more ih =>
      let turn := Turn.next source start line rest
      have reads := (ends_readLine turn.state source line).step_of_ok done
      obtain ⟨further, still⟩ := reads.row within pending
      have stands : turn.settled read.scope.symbols <+: code.bytes.toList.drop start.code.size :=
        @Turn.prefix_settled turn _ _ _ _ pending untouched filled done more.reads
      obtain ⟨others, first⟩ := stands
      have later := ih further still untouched filled
      have size : between.code.size =
          start.code.size + (turn.settled read.scope.symbols).length := by
        rw [(Turn.adds_of_ok done).code, Code.size_append, Turn.length_settled done]
      rw [size, ← List.drop_drop, ← first, List.drop_left] at later
      rw [List.flatMap_cons, ← first]
      exact (List.prefix_append_right_inj _).mpr later

/-! ## Labels -/

/-- The address of what comes behind some lines, if these are the first. -/
def addressAfter (origin : UInt32) (earlier : List Turn) : UInt32 :=
  originAfter origin earlier + UInt32.ofNat (earlier.flatMap Turn.emitted).length

section Labels

variable {source : Source} {start final : Assembler} {earlier later : List Turn} {turn : Turn}

/-- Behind the first lines the code is what they have emitted. -/
theorem Runs.code_of_empty (runs : Runs source start earlier final) (blank : start.code = .empty) :
    final.code.bytes.toList = earlier.flatMap Turn.emitted := by
  rw [runs.code, blank, Code.toList_append]
  rfl

/-- Behind the first lines the cursor is at what they have emitted. -/
theorem Runs.cursor_of_empty (runs : Runs source start earlier final)
    (blank : start.code = .empty) : final.cursor = addressAfter start.origin earlier := by
  rw [cursor, addressAfter, runs.origin, ← runs.code_of_empty blank, Array.length_toList, Code.size]

/-- **A label keeps the address that it got when its line was read.** -/
theorem Runs.address?_of_label? (runs : Runs source start (earlier ++ turn :: later) final)
    (blank : start.code = .empty) {label : List Char} (named : turn.line.label? = some label) :
    final.scope.symbols.address? (String.ofList label) =
      some (addressAfter start.origin earlier) := by
  obtain ⟨between, rest, after, front, next, done, back⟩ := runs.visit
  have cursor : turn.state.cursor = between.cursor := by
    rw [next]
    rfl
  rw [← front.cursor_of_empty blank, ← cursor]
  exact back.reads.symbols (Turn.address?_of_label? done named)

theorem Runs.length_settled (runs : Runs source start earlier final) (symbols : SymbolTable) :
    ∀ turn ∈ earlier, (turn.settled symbols).length = turn.emitted.length := by
  intro turn listed
  obtain ⟨after, done, -⟩ := runs.ok_of_mem listed
  exact Turn.length_settled done symbols

end Labels

theorem length_flatMap_settled {symbols : SymbolTable} {row : List Turn}
    (kept : ∀ turn ∈ row, (turn.settled symbols).length = turn.emitted.length) :
    (row.flatMap fun turn => turn.settled symbols).length = (row.flatMap Turn.emitted).length := by
  rw [List.length_flatMap, List.length_flatMap, List.map_congr_left kept]

/-- Without code there is nothing to be patched. -/
theorem row_of_empty (calls : List Call) (blank : (afterCalls calls).code = .empty) :
    Patch.Row 0 (afterCalls calls).code (afterCalls calls).patches.toList := by
  obtain ⟨boundary, session⟩ := Session.sound_afterCalls calls
  have pending := session.pending
  have within := session.within
  rw [Session.assembler_afterCalls] at pending within
  rw [blank] at within
  obtain rfl : boundary = 0 := Nat.le_zero.mp within
  exact pending

/-- A run that starts with an empty buffer and succeeds reads its lines one after the other, and the
bytes are what they emit in the end. -/
structure Assembles (source : Source) (start : Assembler) (row : List Turn) (bytes : Array UInt8)
    (final : Assembler) : Prop where
  runs : ∃ read, Runs source start row read ∧ read.queue = [] ∧ read.scope = final.scope ∧
    read.origin = final.origin
  bytes : bytes.toList = row.flatMap fun turn => turn.settled final.scope.symbols
  known : ∀ turn ∈ row, ∀ emission, turn.emission? = some emission →
    ∀ label ∈ emission.forward, ∃ address,
      final.scope.symbols.address? label = some address ∧ address.toNat ≤ 0xFFFF

theorem assembles_of_ok {source : Source} {allowance : Nat} {start final : Assembler}
    {bytes : Array UInt8} (blank : start.code = .empty)
    (pending : Patch.Row 0 start.code start.patches.toList)
    (run : assembleAll source allowance start = .ok bytes final) :
    Assembles source start (turns source (start.queue.length + allowance) start) bytes final := by
  obtain ⟨read, filling, reading, resolving, rfl, rfl⟩ := assembleAll_eq_ok run
  have runs := runs_of_readQueue reading
  have fits := (runs.reads.row (Nat.zero_le _) pending).2
  obtain ⟨code, rfl, untouched, filled⟩ :=
    @resolvePatches_ok read.patches.toList { read with patches := #[] } filling fits.fits
      fits.apart resolving
  refine ⟨⟨read, runs, queue_of_readQueue reading, rfl, rfl⟩, ?_, ?_⟩
  · have stands := runs.prefix_settled (Nat.zero_le _) pending untouched filled
    rw [blank] at stands
    have lengths := length_flatMap_settled fun turn listed =>
      runs.length_settled read.scope.symbols turn listed
    refine (List.IsPrefix.eq_of_length stands ?_).symm
    rw [lengths, ← runs.code_of_empty blank, Array.length_toList]
    exact untouched.size.symm
  · intro turn listed emission states label waits
    obtain ⟨after, done, reads⟩ := runs.ok_of_mem listed
    rw [Turn.append_of_emission? done states] at reads
    obtain ⟨address, defined, small, -⟩ :=
      known_of_append (Turn.sound_of_emission? states) reads filled label waits
    exact ⟨address, defined, small⟩

/-- What a line emits stands in the end behind what the lines before it emit. -/
theorem Assembles.prefix_settled {source : Source} {start final : Assembler} {bytes : Array UInt8}
    {row earlier later : List Turn} {turn : Turn} (assembles : Assembles source start row bytes final)
    (parts : row = earlier ++ turn :: later) :
    turn.settled final.scope.symbols <+: bytes.toList.drop (earlier.flatMap Turn.emitted).length := by
  obtain ⟨read, runs, -⟩ := assembles.runs
  obtain ⟨between, front, -⟩ := (parts ▸ runs).split
  rw [← length_flatMap_settled (front.length_settled final.scope.symbols), assembles.bytes, parts,
    List.flatMap_append, List.drop_left, List.flatMap_cons]
  exact List.prefix_append _ _

/-- **Labels are final.** In every run that starts with an empty buffer, each line is read with the
code that the lines before it have emitted, at the origin that they have set last. Labels of these
lines have the addresses of the places where they were defined. If a line defines a label that there
is already, the run fails, and nothing of the line is left.

If the run succeeds, the bytes are what the lines have emitted, with addresses filled in. A label has
the address of the place where it was defined, and what the next line emits stands there. -/
theorem labels_are_final (calls : List Call) (queue : List LogicalLine) (source : Source)
    (allowance : Nat) (blank : (afterCalls calls).code = .empty) :
    let start : Assembler := { afterCalls calls with queue }
    let row := turns source (queue.length + allowance) start
    (∀ earlier turn later, row = earlier ++ turn :: later →
      turn.state.code.bytes.toList = earlier.flatMap Turn.emitted ∧
      turn.state.origin = originAfter start.origin earlier ∧
      (∀ front first back label, earlier = front ++ first :: back →
        first.line.label? = some label →
          turn.state.scope.symbols.address? (String.ofList label) =
            some (addressAfter start.origin front)) ∧
      ∀ label address, turn.line.label? = some label → isIdentifier label = true →
        turn.state.scope.symbols.address? (String.ofList label) = some address →
          assembleAll source allowance start =
            .error (.failed ⟨turn.line.place, .labelRedefinition (String.ofList label)⟩)
              turn.state) ∧
    ∀ bytes final, assembleAll source allowance start = .ok bytes final →
      bytes.toList = row.flatMap (fun turn => turn.settled final.scope.symbols) ∧
      (∀ turn ∈ row,
        turn.state.scope.symbols.Extends final.scope.symbols ∧
        (turn.settled final.scope.symbols).length = turn.emitted.length ∧
        (turn.waiting? = none → turn.settled final.scope.symbols = turn.emitted)) ∧
      ∀ earlier turn later label, row = earlier ++ turn :: later →
        turn.line.label? = some label →
          final.scope.symbols.address? (String.ofList label) =
            some (addressAfter start.origin earlier) ∧
          ∀ silent first rest, turn :: later = silent ++ first :: rest →
            (∀ other ∈ silent, other.emitted = []) →
              first.settled final.scope.symbols <+:
                bytes.toList.drop (earlier.flatMap Turn.emitted).length := by
  intro start row
  have empty : start.code = .empty := blank
  constructor
  · intro earlier turn later whole
    obtain ⟨⟨between, rest, runs, waiting, next⟩, stops⟩ := runs_of_turns whole
    refine ⟨?_, ?_, ?_, ?_⟩
    · rw [next]
      exact runs.code_of_empty empty
    · rw [next]
      exact runs.origin
    · rintro front first back label rfl named
      rw [next]
      exact runs.address?_of_label? empty named
    · intro label address named legal known
      have failed := stops (Turn.outcome_of_known named legal known)
      rw [assembleAll, run_get_bind]
      exact run_bind_of_error failed
  · intro bytes final run
    have assembles : Assembles source start row bytes final :=
      assembles_of_ok empty (row_of_empty calls blank) run
    obtain ⟨read, runs, -, scope, -⟩ := assembles.runs
    have kept : ∀ turn ∈ row,
        turn.state.scope.symbols.Extends final.scope.symbols ∧
        (turn.settled final.scope.symbols).length = turn.emitted.length ∧
        (turn.waiting? = none → turn.settled final.scope.symbols = turn.emitted) := by
      intro turn listed
      obtain ⟨after, done, behind⟩ := runs.ok_of_mem listed
      have reads := (ends_readLine turn.state turn.source turn.line).step_of_ok done
      rw [← scope]
      exact ⟨(Reads.chains.trans reads behind).symbols, Turn.length_settled done _,
        Turn.settled_of_waiting? done _⟩
    refine ⟨assembles.bytes, kept, ?_⟩
    intro earlier turn later label parts named
    rw [← scope]
    refine ⟨(parts ▸ runs).address?_of_label? empty named, ?_⟩
    intro silent first rest behind quiet
    -- The lines between the label and the next one that emits take up no room.
    have nothing : silent.flatMap Turn.emitted = [] := List.flatMap_eq_nil_iff.mpr quiet
    have further : row = (earlier ++ silent) ++ first :: rest := by
      rw [parts, behind, List.append_assoc]
    have stands := assembles.prefix_settled further
    rwa [List.flatMap_append, nothing, List.append_nil, ← scope] at stands

/-- A text with two labels. Between them it sets the origin to the end of the memory and includes
another text, and before the second label it refers to it. -/
def twoOrigins : List Call :=
  [.loadSource "main" ".ORG 0x100\nfirst: RET second\n.ORG 0xFFFFFFFE\n.INCLUDE b\nsecond:\nLEAVE"]

/-- The lines that are read, the one of the included text among them. -/
def twoOriginsRow : List Turn :=
  turns sharedTexts.toSource 9 (afterCalls twoOrigins)

/-- The bytes of the text, with the address of the second label filled in. -/
def twoOriginsBytes : Array UInt8 := #[0xE0, 0x00, 0x32, 0x03, 0x01, 0x36, 0x00]

theorem labels_are_final_twoOrigins :
    (afterCalls twoOrigins).code = .empty ∧
    ∃ final,
      assembleAll sharedTexts.toSource 3 (afterCalls twoOrigins) = .ok twoOriginsBytes final ∧
      twoOriginsBytes.toList =
        twoOriginsRow.flatMap (fun turn => turn.settled final.scope.symbols) ∧
      final.scope.symbols.address? "second" = some (addressAfter 0 (twoOriginsRow.take 5)) ∧
      addressAfter 0 (twoOriginsRow.take 5) = 3 := by
  have blank : (afterCalls twoOrigins).code = .empty := by decide +kernel
  have assembled : passes (fun bytes _ => bytes == twoOriginsBytes)
      (assembleAll sharedTexts.toSource 3 (afterCalls twoOrigins)) = true := by decide +kernel
  have inside : 5 < twoOriginsRow.length := by decide +kernel
  have named : twoOriginsRow[5]?.bind (fun turn => turn.line.label?) = some "second".toList := by
    decide +kernel
  rw [List.getElem?_eq_getElem inside, Option.bind_some] at named
  have address : addressAfter 0 (twoOriginsRow.take 5) = 3 := by decide +kernel
  have parts : twoOriginsRow =
      twoOriginsRow.take 5 ++ twoOriginsRow[5] :: twoOriginsRow.drop 6 := by
    rw [← List.drop_eq_getElem_cons inside, List.take_append_drop]
  obtain ⟨bytes, final, run, same⟩ := exists_of_passes assembled
  obtain rfl := eq_of_beq same
  obtain ⟨whole, -, labels⟩ :=
    (labels_are_final twoOrigins (afterCalls twoOrigins).queue sharedTexts.toSource 3 blank).2
      _ final run
  exact ⟨blank, final, run, whole, (labels _ _ _ _ parts named).1, address⟩

end Assembler
end WordMachine
