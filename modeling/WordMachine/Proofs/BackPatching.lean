import WordMachine.Proofs.Reading

/-!
# Back-patching

When all lines have been read, the patches are resolved one after the other, each in the stretch of
code that its layout describes. Reading has left them in a row (`Assembly.Patch.Row`), so no two
stretches overlap and resolving one patch cannot undo another.

A patch that fits the code can only have a fault of the text, a label without an address or with
one that is too large (`Assembly.Patch.fault?`). Resolving stops at the first patch with a fault; the
patches before it are filled in, those behind it are not (`Assembler.resolvePatches_run`).

The main statement, `Assembler.assembleAll_resolves`, compares the code when the last line has been
read with the bytes that are handed out: every forward reference is resolved, and no byte outside
the instructions that waited has changed.
-/

set_option autoImplicit false

namespace WordMachine

open Assembly

/-! ## Filling in an address -/

namespace Assembly.Patch

/-- With another immediate filled in, the words stand for the instruction with that immediate. -/
theorem Describes.patched {patch : Patch} {instruction : Instruction} {encoding : Encoding}
    (describes : patch.Describes instruction encoding) (value : UInt16) :
    (encoding.patched patch.format value).Denotes (instruction.withImmediate value) := by
  rw [describes.format]
  exact describes.denotes.patched describes.takesImmediate value

/-- Between two states of the code an address has been filled in: what the patch is for stood
there, and stands there with the address for its immediate. -/
def Filled (patch : Patch) (symbols : SymbolTable) (before after : Code) : Prop :=
  ∃ instruction encoding address, patch.Describes instruction encoding ∧
    symbols.address? patch.label = some address ∧ address.toNat ≤ 0xFFFF ∧
    Holds before.bytes patch.layout.start encoding.words ∧
    Holds after.bytes patch.layout.start
      (encoding.patched patch.format (UInt16.ofNat address.toNat)).words

/-- Bytes outside the stretches that patches take up are the same. -/
structure Untouched (patches : List Patch) (before after : Code) : Prop where
  size : after.size = before.size
  outside : ∀ offset,
    (∀ patch ∈ patches, offset < patch.layout.start ∨ patch.layout.finish ≤ offset) →
      after.bytes[offset]? = before.bytes[offset]?

end Assembly.Patch

namespace Assembly.Patch

/-- What keeps a patch from being filled in: its label has no address, or one that is too large. -/
def fault? (patch : Patch) (symbols : SymbolTable) : Option StatementError :=
  match symbols.address? patch.label with
  | none => some (.unresolvedSymbol patch.label)
  | some address =>
      if Scope.greatestImmediate < address.toNat then
        some (.constantOutOfRange address.toNat 0 Scope.greatestImmediate)
      else
        none

variable {patch : Patch} {symbols : SymbolTable}

theorem fault?_eq_none (clear : patch.fault? symbols = none) :
    ∃ address, symbols.address? patch.label = some address ∧ address.toNat ≤ 0xFFFF := by
  rw [fault?] at clear
  split at clear
  · cases clear
  · rename_i address found
    split at clear
    · cases clear
    · rename_i within
      rw [Scope.greatestImmediate] at within
      exact ⟨address, found, by omega⟩

theorem inText_of_fault? {error : StatementError} (fault : patch.fault? symbols = some error) :
    error.InText := by
  rw [fault?] at fault
  split at fault
  · cases fault
    trivial
  · split at fault
    · cases fault
      trivial
    · cases fault

end Assembly.Patch

namespace Assembler

variable {patch : Patch} {start : Assembler}

theorem resolvePatch_of_fault? {error : StatementError}
    (fault : patch.fault? start.scope.symbols = some error) :
    resolvePatch patch start = .error error start := by
  rw [Patch.fault?] at fault
  rw [resolvePatch, run_get_bind]
  cases found : start.scope.symbols.address? patch.label with
  | none =>
      rw [found] at fault
      cases fault
      rfl
  | some address =>
      rw [found] at fault
      dsimp only at fault ⊢
      split at fault
      · rename_i beyond
        cases fault
        rw [checkRange, if_pos (.inr beyond)]
        rfl
      · cases fault

/-- A patch that fits is filled in unless there is a fault. -/
theorem resolvePatch_of_clear (fits : patch.Fits start.code)
    (clear : patch.fault? start.scope.symbols = none) :
    ∃ code, resolvePatch patch start = .ok () { start with code } ∧
      SameOutside patch.layout.start patch.layout.finish start.code.bytes code.bytes ∧
      patch.Filled start.scope.symbols start.code code := by
  obtain ⟨instruction, encoding, describes, holds⟩ := fits
  obtain ⟨address, found, within⟩ := Patch.fault?_eq_none clear
  obtain ⟨code, patched, stands, same⟩ :=
    start.code.patchImmediate_of_holds describes.extended holds patch.format
      (UInt16.ofNat address.toNat)
  rw [← describes.placed] at patched same
  have inRange : ¬ ((address.toNat : Int) < 0 ∨ Scope.greatestImmediate < address.toNat) := by
    rw [Scope.greatestImmediate]
    omega
  refine ⟨code, ?_, same, instruction, encoding, address, describes, found, within, holds, stands⟩
  rw [resolvePatch, run_get_bind, found]
  dsimp only
  rw [checkRange, if_neg inRange]
  refine run_bind_eq_ok.mpr ⟨_, start, rfl, ?_⟩
  rw [ofInt_natCast, patched]
  rfl

end Assembler

/-! ## Filling in all addresses -/

namespace Assembly.Patch

/-- The patches before the first with a fault. -/
def resolvable (symbols : SymbolTable) (patches : List Patch) : List Patch :=
  patches.takeWhile fun patch => (patch.fault? symbols).isNone

/-- The first patch with a fault, and all patches behind it. -/
def stuck (symbols : SymbolTable) (patches : List Patch) : List Patch :=
  patches.dropWhile fun patch => (patch.fault? symbols).isNone

/-- The error that the first fault gives rise to. -/
def verdict (symbols : SymbolTable) (patches : List Patch) : Option AssemblyError :=
  patches.findSome? fun patch => (patch.fault? symbols).map (AssemblyError.mk patch.place)

variable {patch : Patch} {patches : List Patch} {symbols : SymbolTable}
  {before between after : Code}

theorem resolvable_of_fault? {error : StatementError}
    (fault : patch.fault? symbols = some error) : resolvable symbols (patch :: patches) = [] := by
  rw [resolvable, List.takeWhile_cons_of_neg (by rw [fault]; exact Bool.false_ne_true)]

theorem resolvable_of_clear (clear : patch.fault? symbols = none) :
    resolvable symbols (patch :: patches) = patch :: resolvable symbols patches := by
  rw [resolvable, List.takeWhile_cons_of_pos (by rw [clear]; rfl), resolvable]

theorem verdict_of_fault? {error : StatementError} (fault : patch.fault? symbols = some error) :
    verdict symbols (patch :: patches) = some ⟨patch.place, error⟩ := by
  rw [verdict, List.findSome?_cons, fault]
  rfl

theorem verdict_of_clear (clear : patch.fault? symbols = none) :
    verdict symbols (patch :: patches) = verdict symbols patches := by
  rw [verdict, List.findSome?_cons, clear]
  rfl

theorem mem_of_resolvable (stands : patch ∈ resolvable symbols patches) : patch ∈ patches :=
  (List.takeWhile_prefix _).subset stands

theorem resolvable_of_verdict (clear : verdict symbols patches = none) :
    resolvable symbols patches = patches := by
  induction patches with
  | nil => rfl
  | cons patch rest ih =>
      cases fault : patch.fault? symbols with
      | some error =>
          rw [verdict_of_fault? fault] at clear
          cases clear
      | none =>
          rw [verdict_of_clear fault] at clear
          rw [resolvable_of_clear fault, ih clear]

theorem stuck_of_verdict (clear : verdict symbols patches = none) : stuck symbols patches = [] := by
  have whole : resolvable symbols patches ++ stuck symbols patches = patches :=
    List.takeWhile_append_dropWhile
  rw [resolvable_of_verdict clear] at whole
  exact List.append_right_eq_self.mp whole

theorem Fits.of_sameOutside {start finish : Nat} (fits : patch.Fits before)
    (same : SameOutside start finish before.bytes after.bytes)
    (apart : patch.layout.finish ≤ start ∨ finish ≤ patch.layout.start) : patch.Fits after := by
  obtain ⟨instruction, encoding, describes, holds⟩ := fits
  rw [describes.finish_eq] at apart
  exact ⟨instruction, encoding, describes, holds.of_sameOutside same apart⟩

/-- Whether an address has been filled in is decided by the bytes of the instruction. -/
theorem Filled.congr {former final : Code} (filled : patch.Filled symbols before after)
    (sameBefore : ∀ offset, patch.layout.start ≤ offset → offset < patch.layout.finish →
      former.bytes[offset]? = before.bytes[offset]?)
    (sameAfter : ∀ offset, patch.layout.start ≤ offset → offset < patch.layout.finish →
      final.bytes[offset]? = after.bytes[offset]?) : patch.Filled symbols former final := by
  obtain ⟨instruction, encoding, address, describes, found, within, stood, stands⟩ := filled
  have finish := describes.finish_eq
  refine ⟨instruction, encoding, address, describes, found, within, stood.congr ?_,
    stands.congr ?_⟩
  · intro other low high
    exact sameBefore other low (by omega)
  · intro other low high
    rw [Encoding.length_words_patched describes.extended] at high
    exact sameAfter other low (by omega)

end Assembly.Patch

namespace Assembler

/-- **Resolving stops at the first patch with a fault**, and fills in those before it. -/
theorem resolvePatches_run {patches : List Patch} {start : Assembler}
    (fits : ∀ patch ∈ patches, patch.Fits start.code) (apart : patches.Pairwise Patch.Before) :
    let symbols := start.scope.symbols
    ∃ code, Patch.Untouched (Patch.resolvable symbols patches) start.code code ∧
      (∀ patch ∈ Patch.resolvable symbols patches, patch.Filled symbols start.code code) ∧
      resolvePatches patches start =
        match Patch.verdict symbols patches with
        | none => .ok () { start with code }
        | some failure => .error (.failed failure) { start with code } := by
  intro symbols
  induction patches generalizing start with
  | nil => exact ⟨start.code, ⟨rfl, fun _ _ => rfl⟩, (fun _ stands => nomatch stands), rfl⟩
  | cons patch rest ih =>
      cases fault : patch.fault? symbols with
      | some error =>
          have stops : resolvePatch patch start = .error error start :=
            resolvePatch_of_fault? fault
          refine ⟨start.code, ?_, ?_, ?_⟩
          · exact ⟨rfl, fun _ _ => rfl⟩
          · intro next stands
            rw [Patch.resolvable_of_fault? fault] at stands
            cases stands
          · rw [Patch.verdict_of_fault? fault, resolvePatches]
            apply run_bind_of_error
            simp only [readAt, stops]
      | none =>
          obtain ⟨filling, step, same, filled⟩ :=
            resolvePatch_of_clear (fits patch List.mem_cons_self) fault
          have beyond : ∀ next ∈ rest, patch.layout.finish ≤ next.layout.start := by
            intro next stands
            exact List.rel_of_pairwise_cons apart stands
          -- Filling in this patch leaves the ones behind it as they were, so that they still fit.
          obtain ⟨code, untouched, allFilled, run⟩ := @ih { start with code := filling }
            (fun next stands => (fits next (List.mem_cons_of_mem _ stands)).of_sameOutside same
              (.inr (beyond next stands)))
            (List.Pairwise.of_cons apart)
          have further : ∀ next ∈ Patch.resolvable symbols rest,
              patch.layout.finish ≤ next.layout.start := by
            intro next stands
            exact beyond next (Patch.mem_of_resolvable stands)
          refine ⟨code, ?_, ?_, ?_⟩
          · rw [Patch.resolvable_of_clear fault]
            refine ⟨untouched.size.trans same.size, ?_⟩
            intro offset outside
            rw [List.forall_mem_cons] at outside
            rw [untouched.outside offset outside.2, same.outside offset outside.1]
          · rw [Patch.resolvable_of_clear fault]
            intro next stands
            rcases List.mem_cons.mp stands with rfl | more
            · refine filled.congr (fun _ _ _ => rfl) fun offset low high => ?_
              refine untouched.outside offset fun next more => ?_
              have := further next more
              omega
            · refine (allFilled next more).congr (fun offset low high => ?_) fun _ _ _ => rfl
              have := further next more
              exact (same.outside offset (by omega)).symm
          · rw [Patch.verdict_of_clear fault, resolvePatches, run_bind_of_ok (readAt_eq_ok.mpr step)]
            exact run

theorem resolvePatches_ok {patches : List Patch} {start final : Assembler}
    (fits : ∀ patch ∈ patches, patch.Fits start.code) (apart : patches.Pairwise Patch.Before)
    (run : resolvePatches patches start = .ok () final) :
    ∃ code, final = { start with code } ∧ Patch.Untouched patches start.code code ∧
      ∀ patch ∈ patches, patch.Filled start.scope.symbols start.code code := by
  obtain ⟨code, untouched, filled, outcome⟩ := resolvePatches_run fits apart
  rw [run] at outcome
  cases clear : Patch.verdict start.scope.symbols patches with
  | some failure =>
      rw [clear] at outcome
      cases outcome
  | none =>
      rw [clear] at outcome
      rw [Patch.resolvable_of_verdict clear] at untouched filled
      cases outcome
      exact ⟨code, rfl, untouched, filled⟩

/-! ## Whole runs -/

theorem queue_of_readQueue {source : Source} {limit : Nat} {start final : Assembler}
    (run : readQueue source limit start = .ok () final) : final.queue = [] := by
  induction limit generalizing start with
  | zero =>
      rw [readQueue, run_get_bind] at run
      by_cases waiting : start.queue ≠ []
      · rw [if_pos waiting] at run
        cases run
      · rw [if_neg waiting] at run
        cases run
        exact Classical.not_not.mp waiting
  | succ limit ih =>
      rw [readQueue, run_get_bind] at run
      cases waiting : start.queue with
      | nil =>
          rw [waiting] at run
          cases run
          exact waiting
      | cons line rest =>
          rw [waiting] at run
          obtain ⟨_, between, _, later⟩ := run_bind_eq_ok.mp run
          exact ih later

/-- The three stages of a run that succeeds. -/
theorem assembleAll_eq_ok {source : Source} {allowance : Nat} {start final : Assembler}
    {bytes : Array UInt8} (run : assembleAll source allowance start = .ok bytes final) :
    ∃ read filled,
      readQueue source (start.queue.length + allowance) start = .ok () read ∧
        resolvePatches read.patches.toList { read with patches := #[] } = .ok () filled ∧
        bytes = filled.code.bytes ∧ final = { filled with code := .empty } := by
  rw [assembleAll, run_get_bind] at run
  obtain ⟨_, read, reading, run⟩ := run_bind_eq_ok.mp run
  obtain ⟨_, filled, resolving, taking⟩ := run_bind_eq_ok.mp run
  cases taking
  exact ⟨read, filled, reading, resolving, rfl, rfl⟩

end Assembler

namespace Assembly.Patch

/-- A forward reference is resolved: where the patch says, fetching gives the instruction with the
address of the label for its immediate. Its bytes are its encoding, with an empty extension in
front if the address would not need one. -/
structure Resolves (patch : Patch) (symbols : SymbolTable) (before after : Array UInt8)
    (instruction : Instruction) (address : UInt32) : Prop where
  known : symbols.address? patch.label = some address
  small : address.toNat ≤ 0xFFFF
  waits : instruction.immediate?.isSome
  fetched : fetch ByteReader.next ⟨before, patch.layout.start⟩ =
    .ok (.instruction instruction) ⟨before, patch.layout.finish⟩
  resolved : fetch ByteReader.next ⟨after, patch.layout.start⟩ =
    .ok (.instruction (instruction.withImmediate (UInt16.ofNat address.toNat)))
      ⟨after, patch.layout.finish⟩
  encoded : ∃ encoded,
    (instruction.withImmediate (UInt16.ofNat address.toNat)).bytes = .ok encoded ∧
      (after.extract patch.layout.start patch.layout.finish).toList =
        if address.toNat < 2 ^ instruction.opcode.format.immediateBits then
          wordBytes emptyExtension ++ encoded
        else
          encoded

theorem Filled.resolves {patch : Patch} {symbols : SymbolTable} {before after : Code}
    (filled : patch.Filled symbols before after) :
    ∃ instruction address, patch.Resolves symbols before.bytes after.bytes instruction address := by
  obtain ⟨instruction, encoding, address, describes, found, small, stood, stands⟩ := filled
  let value := UInt16.ofNat address.toNat
  have same : value.toNat = address.toNat := by
    rw [UInt16.toNat_ofNat']
    omega
  have denotes := describes.patched value
  have size : (encoding.patched patch.format value).bytes.length = encoding.bytes.length := by
    rw [Encoding.length_bytes, Encoding.length_bytes,
      Encoding.length_words_patched describes.extended]
  have finish : patch.layout.finish = patch.layout.start + encoding.bytes.length := by
    rw [describes.finish_eq, encoding.length_bytes]
  have fetched := fetch_of_holds describes.denotes stood
  have resolved := fetch_of_holds denotes stands
  rw [size] at resolved
  rw [← finish] at fetched resolved
  refine ⟨instruction, address, found, small, describes.takesImmediate, fetched, resolved,
    (instruction.withImmediate value).canonicalEncoding.bytes, ?_, ?_⟩
  · rw [Instruction.bytes, Instruction.encoding_of_wellFormed denotes.wellFormed]
    rfl
  · have bytes := describes.denotes.bytes_patched describes.takesImmediate value
    rw [same] at bytes
    rw [← bytes, ← describes.format]
    apply stands.toList_extract
    rw [finish, ← size, Encoding.length_bytes]

end Assembly.Patch

namespace Assembler

/-- **Back-patching resolves every forward reference and touches nothing else.** This holds for
whatever is queued and for every source, if no patch is left over from before. None is left over
for the next run either. -/
theorem assembleAll_resolves (source : Source) (allowance : Nat) {assembler final : Assembler}
    {bytes : Array UInt8} (settled : assembler.patches = #[])
    (run : assembleAll source allowance assembler = .ok bytes final) :
    ∃ read,
      readQueue source (assembler.queue.length + allowance) assembler = .ok () read ∧
      read.queue = [] ∧
      bytes.size = read.code.size ∧
      (∀ patch ∈ read.patches, ∃ instruction address,
        patch.Resolves final.scope.symbols read.code.bytes bytes instruction address) ∧
      (∀ offset,
        (∀ patch ∈ read.patches,
          offset < patch.layout.start ∨ patch.layout.finish ≤ offset) →
        bytes[offset]? = read.code.bytes[offset]?) ∧
      final.code = .empty ∧ final.patches = #[] := by
  obtain ⟨read, filled, reading, resolving, rfl, rfl⟩ := assembleAll_eq_ok run
  have grown : Grows assembler read := by
    have leads := grows_readQueue assembler source (assembler.queue.length + allowance)
    rwa [Leads, reading] at leads
  obtain ⟨_, waiting, patches, row⟩ := grown
  rw [settled, Array.toList_empty, List.nil_append] at patches
  rw [patches] at resolving
  obtain ⟨code, rfl, untouched, allFilled⟩ :=
    @resolvePatches_ok waiting { read with patches := #[] } filled row.fits row.apart resolving
  refine ⟨read, reading, queue_of_readQueue reading, untouched.size, ?_, ?_, rfl, rfl⟩
  · intro patch stands
    rw [← Array.mem_toList_iff, patches] at stands
    exact (allFilled patch stands).resolves
  · intro offset outside
    refine untouched.outside offset fun patch stands => outside patch ?_
    rwa [← Array.mem_toList_iff, patches]

/-- A jump to a label that needs the immediate extension, and a return to it that does not. -/
def forwardReferences : Assembler :=
  initial.enqueue unnamedText "JABS.Z %R0, END, %R9\nRET END\nEND:"

/-- The bytes of both, the return with an empty extension. -/
def forwardBytes : Array UInt8 := #[224, 1, 128, 8, 22, 136, 224, 0, 50, 10]

theorem assembleAll_resolves_forwardReferences :
    forwardReferences.patches = #[] ∧ ∃ final,
      assembleAll (FileTree.empty.toSource []) 0 forwardReferences =
        .ok forwardBytes final ∧
      ∃ read,
        readQueue (FileTree.empty.toSource []) (forwardReferences.queue.length + 0)
          forwardReferences = .ok () read ∧
        read.queue = [] ∧
        forwardBytes.size = read.code.size ∧
        (∀ patch ∈ read.patches, ∃ instruction address,
          patch.Resolves final.scope.symbols read.code.bytes forwardBytes instruction address) ∧
        (∀ offset,
          (∀ patch ∈ read.patches,
            offset < patch.layout.start ∨ patch.layout.finish ≤ offset) →
          forwardBytes[offset]? = read.code.bytes[offset]?) ∧
        final.code = .empty ∧ final.patches = #[] := by
  have evaluated :
      passes (fun bytes _ => bytes == forwardBytes)
        (assembleAll (FileTree.empty.toSource []) 0 forwardReferences) = true := by
    decide +kernel
  refine ⟨rfl, ?_⟩
  obtain ⟨bytes, final, run, same⟩ := exists_of_passes evaluated
  obtain rfl := eq_of_beq same
  exact ⟨final, run, assembleAll_resolves (FileTree.empty.toSource []) 0 rfl run⟩

end Assembler
end WordMachine
