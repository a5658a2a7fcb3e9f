import WordMachine.Proofs.Sessions

/-!
# Forward references of the bytes handed out

When a session of loading and assembling hands out bytes, they hold instructions that were emitted
for forward references, some by this call and some by calls that failed before it. Each that has
been filled in, by whichever call, fetches to an immediate that is the address of its label. Each
that was abandoned still fetches to the placeholder (`Session.handedOut_references`).

So after failures in reading all references are right, and after a failure in resolving they are
right only if every abandoned label happens to have the placeholder for its address. A label that
is defined in a second attempt shows that they can be wrong (`Session.placeholder_escapes`). The
patches are taken from the state before the first of them is resolved, and are not put back if one
has a fault, while the code stays.
-/

set_option autoImplicit false

namespace WordMachine

open Assembly Assembler

namespace Assembly.Patch

/-- Where the patch says, the bytes fetch to an instruction with this immediate. -/
def FetchesTo (patch : Patch) (bytes : Array UInt8) (value : UInt16) : Prop :=
  ∃ instruction : Instruction,
    fetch ByteReader.next ⟨bytes, patch.layout.start⟩ =
        .ok (.instruction instruction) ⟨bytes, patch.layout.finish⟩ ∧
      instruction.immediate? = some value

/-- The label is defined, and the immediate that is fetched is its address. -/
def ResolvedIn (patch : Patch) (symbols : SymbolTable) (bytes : Array UInt8) : Prop :=
  ∃ address value, symbols.address? patch.label = some address ∧
    patch.FetchesTo bytes value ∧ value.toNat = address.toNat

variable {patch : Patch} {code : Code} {symbols : SymbolTable}

theorem Carries.fetchesTo {value : UInt16} (carries : patch.Carries code value) :
    patch.FetchesTo code.bytes value := by
  obtain ⟨instruction, encoding, denotes, immediate, finish, holds⟩ := carries
  refine ⟨instruction, ?_, immediate⟩
  rw [finish, ← encoding.length_bytes]
  exact fetch_of_holds denotes holds

theorem CarriesAddress.resolvedIn (carries : patch.CarriesAddress symbols code) :
    patch.ResolvedIn symbols code.bytes := by
  obtain ⟨address, found, small, stands⟩ := carries
  refine ⟨address, _, found, stands.fetchesTo, ?_⟩
  rw [UInt16.toNat_ofNat']
  omega

/-- One immediate only is fetched at a place. -/
theorem FetchesTo.unique {bytes : Array UInt8} {value other : UInt16}
    (first : patch.FetchesTo bytes value) (second : patch.FetchesTo bytes other) :
    value = other := by
  obtain ⟨instruction, fetched, immediate⟩ := first
  obtain ⟨instruction', fetched', immediate'⟩ := second
  rw [fetched] at fetched'
  cases fetched'
  rw [immediate] at immediate'
  exact Option.some.inj immediate'

/-- With the placeholder for its immediate, a reference is right only by accident. -/
theorem FetchesTo.resolvedIn_iff {bytes : Array UInt8}
    (fetches : patch.FetchesTo bytes placeholder) :
    patch.ResolvedIn symbols bytes ↔ symbols.address? patch.label = some 0xFFFF := by
  constructor
  · rintro ⟨address, value, found, fetched, same⟩
    obtain rfl := fetches.unique fetched
    rw [found, Option.some.injEq, ← UInt32.toNat_inj, ← same]
    rfl
  · intro found
    exact ⟨0xFFFF, placeholder, found, fetches, rfl⟩

end Assembly.Patch

namespace Session

theorem mem_references_of_abandoned {session : Session} {patch : Patch}
    (abandoned : patch ∈ session.abandoned) (assembler : Assembler) :
    patch ∈ references { session with assembler } :=
  List.mem_append_left _ (List.mem_append_right _ abandoned)

/-- The bytes that are handed out hold the address for every reference that has been filled in, and
the placeholder for every one that was abandoned. -/
theorem fetches_of_handedOut {session : Session} (sound : session.Sound) {source : Source}
    {allowance : Nat} {bytes : Array UInt8} {final : Assembler}
    (run : assembleAll source allowance session.assembler = .ok bytes final) :
    ∃ read,
      readQueue source (session.assembler.queue.length + allowance) session.assembler =
        .ok () read ∧
      (∀ patch ∈ session.filled ++ read.patches.toList,
        patch.ResolvedIn final.scope.symbols bytes) ∧
      ∀ patch ∈ session.abandoned, patch.FetchesTo bytes placeholder := by
  obtain ⟨boundary, sound⟩ := sound
  obtain ⟨read, _, reading, _⟩ := assembleAll_eq_ok run
  let call : Call := .assembleAll source allowance
  have resolves : call.read? session.assembler = some read := by
    simp only [call, Call.read?, reading]
  have performed : call.perform session.assembler = .ok (some bytes) final :=
    run_bind_of_ok run
  have reads := sound.reads (Call.reads_of_read? resolves)
  obtain ⟨code, untouched, filled, outcome⟩ := Call.perform_of_read? resolves reads.pending
  rw [performed] at outcome
  cases clear : Patch.verdict read.scope.symbols read.patches.toList with
  | some failure =>
      rw [clear] at outcome
      cases outcome
  | none =>
      rw [clear] at outcome
      cases outcome
      have settled := reads.resolves untouched filled
      dsimp only at settled
      rw [Patch.resolvable_of_verdict clear, Patch.stuck_of_verdict clear, List.append_nil]
        at settled
      refine ⟨read, reading, ?_, ?_⟩
      · intro patch stands
        exact (settled.filled patch stands).2.resolvedIn
      · intro patch stands
        exact (settled.abandoned patch stands).2.fetchesTo

/-- **What the bytes that a session hands out hold for forward references.** Those that were filled
in, now or before, fetch to the addresses of their labels; those that were abandoned still fetch to
the placeholder. So all of them are right exactly if the abandoned labels have that address. -/
theorem handedOut_references (calls : List Call) (source : Source) (allowance : Nat)
    {bytes : Array UInt8} {final : Assembler}
    (run : assembleAll source allowance (Assembler.afterCalls calls) = .ok bytes final) :
    let session := afterCalls calls
    let symbols := final.scope.symbols
    ∃ read,
      readQueue source (session.assembler.queue.length + allowance) session.assembler =
        .ok () read ∧
      (∀ patch ∈ session.filled ++ read.patches.toList, patch.ResolvedIn symbols bytes) ∧
      (∀ patch ∈ session.abandoned, patch.FetchesTo bytes placeholder) ∧
      ((∀ patch ∈ references { session with assembler := read },
          patch.ResolvedIn symbols bytes) ↔
        ∀ patch ∈ session.abandoned, symbols.address? patch.label = some 0xFFFF) := by
  intro session symbols
  rw [← assembler_afterCalls] at run
  obtain ⟨read, reading, right, wrong⟩ := fetches_of_handedOut (sound_afterCalls calls) run
  refine ⟨read, reading, right, wrong, ?_, ?_⟩
  · intro all patch stands
    exact (wrong patch stands).resolvedIn_iff.mp
      (all patch (mem_references_of_abandoned stands read))
  · intro all patch stands
    rcases List.mem_append.mp stands with old | new
    · rcases List.mem_append.mp old with filled | abandoned
      · exact right patch (List.mem_append_left _ filled)
      · exact (wrong patch abandoned).resolvedIn_iff.mpr (all patch abandoned)
    · exact right patch (List.mem_append_right _ new)

/-! ## A label defined too late -/

/-- A jump to a label that is defined only after assembling has failed for it. -/
def lateDefinition : List Call :=
  [.loadSource "m.asm" "JREL.Z %R0, later\n", .assembleAll (FileTree.empty.toSource []) 0,
    .loadSource "m.asm" "later: LEAVE\n"]

/-- The bytes that are handed out then: the jump with the placeholder, and the label behind it. -/
def lateBytes : Array UInt8 := #[0xE3, 0xFF, 0x23, 0xF8, 0x36, 0x00]

theorem run_lateDefinition :
    ∃ final, assembleAll (FileTree.empty.toSource []) 0 (Assembler.afterCalls lateDefinition) =
        .ok lateBytes final ∧
      final.scope.symbols.address? "later" = some 4 := by
  have evaluated :
      passes
        (fun bytes final => bytes == lateBytes && final.scope.symbols.address? "later" == some 4)
        (assembleAll (FileTree.empty.toSource []) 0 (Assembler.afterCalls lateDefinition)) =
          true := by
    decide +kernel
  obtain ⟨bytes, final, run, same⟩ := exists_of_passes evaluated
  rw [Bool.and_eq_true] at same
  obtain rfl := eq_of_beq same.1
  exact ⟨final, run, eq_of_beq same.2⟩

theorem abandoned_lateDefinition :
    (afterCalls lateDefinition).abandoned.map Patch.label = ["later"] := by
  decide +kernel

theorem handedOut_references_lateDefinition :
    ∃ final, assembleAll (FileTree.empty.toSource []) 0 (Assembler.afterCalls lateDefinition) =
        .ok lateBytes final ∧
      let session := afterCalls lateDefinition
      let symbols := final.scope.symbols
      ∃ read,
        readQueue (FileTree.empty.toSource []) (session.assembler.queue.length + 0)
          session.assembler = .ok () read ∧
        (∀ patch ∈ session.filled ++ read.patches.toList, patch.ResolvedIn symbols lateBytes) ∧
        (∀ patch ∈ session.abandoned, patch.FetchesTo lateBytes placeholder) ∧
        ((∀ patch ∈ references { session with assembler := read },
            patch.ResolvedIn symbols lateBytes) ↔
          ∀ patch ∈ session.abandoned, symbols.address? patch.label = some 0xFFFF) := by
  obtain ⟨final, run, _⟩ := run_lateDefinition
  exact ⟨final, run, handedOut_references lateDefinition (FileTree.empty.toSource []) 0 run⟩

/-- **A placeholder can escape**: not all references in what is handed out are resolved. -/
theorem placeholder_escapes :
    ¬ ∀ (calls : List Call) (source : Source) (allowance : Nat) (bytes : Array UInt8)
        (read final : Assembler),
      assembleAll source allowance (Assembler.afterCalls calls) = .ok bytes final →
      readQueue source ((Assembler.afterCalls calls).queue.length + allowance)
          (Assembler.afterCalls calls) = .ok () read →
      ∀ patch ∈ references { afterCalls calls with assembler := read },
        patch.ResolvedIn final.scope.symbols bytes := by
  intro claimed
  obtain ⟨final, run, defined⟩ := run_lateDefinition
  have sessionRun : assembleAll (FileTree.empty.toSource []) 0
      (afterCalls lateDefinition).assembler = .ok lateBytes final := by
    rw [assembler_afterCalls]
    exact run
  obtain ⟨read, reading, _, wrong⟩ :=
    fetches_of_handedOut (sound_afterCalls lateDefinition) sessionRun
  rw [assembler_afterCalls] at reading
  obtain ⟨patch, abandoned, label⟩ : ∃ patch ∈ (afterCalls lateDefinition).abandoned,
      patch.label = "later" := by
    apply List.mem_map.mp
    rw [abandoned_lateDefinition]
    exact List.mem_cons_self
  have resolved := claimed lateDefinition (FileTree.empty.toSource []) 0 lateBytes read final run
    reading patch (mem_references_of_abandoned abandoned read)
  have accident := (wrong patch abandoned).resolvedIn_iff.mp resolved
  rw [label, defined] at accident
  exact absurd accident (by decide)

end Session
end WordMachine
