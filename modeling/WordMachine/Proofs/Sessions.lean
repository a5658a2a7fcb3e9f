import WordMachine.Proofs.BackPatching

/-!
# Sessions

An assembler is used again and again: texts are loaded and assembled, and after an error work goes
on from the state that the error left. A session is such a sequence of calls (`Assembler.Call`).
Every call may come with its own source.

Reading that fails keeps the code and the patches. Resolving that fails keeps the code, but none of
the patches: those before the fault have been filled in, and the others are abandoned. So the
instructions that were emitted for forward references are of three kinds, those still to be
resolved, those filled in and those abandoned, and a `Session` keeps track of the latter two. What
holds of all three is `Session.Sound`, and every call keeps it (`Session.sound_after`).

Whatever is loaded, the encoder has nothing to object to: a call that fails does so for what a text
says (`Assembler.encoder_accepts_everything`).
-/

set_option autoImplicit false

namespace WordMachine

open Assembly

/-! ## Instructions in the code -/

namespace Assembly.Patch

/-- In the code there stands, where the patch says, an instruction with this immediate. -/
def Carries (patch : Patch) (code : Code) (value : UInt16) : Prop :=
  ∃ (instruction : Instruction) (encoding : Encoding),
    encoding.Denotes instruction ∧ instruction.immediate? = some value ∧
    patch.layout.finish = patch.layout.start + 2 * encoding.words.length ∧
    Holds code.bytes patch.layout.start encoding.words

/-- The instruction has the address of the label for its immediate. -/
def CarriesAddress (patch : Patch) (symbols : SymbolTable) (code : Code) : Prop :=
  ∃ address, symbols.address? patch.label = some address ∧ address.toNat ≤ 0xFFFF ∧
    patch.Carries code (UInt16.ofNat address.toNat)

variable {patch : Patch} {code before after : Code} {symbols : SymbolTable} {value : UInt16}

theorem Fits.carries (fits : patch.Fits code) : patch.Carries code placeholder := by
  obtain ⟨instruction, encoding, describes, holds⟩ := fits
  exact ⟨instruction, encoding, describes.denotes, describes.waits, describes.finish_eq, holds⟩

theorem Filled.carriesAddress (filled : patch.Filled symbols before after) :
    patch.CarriesAddress symbols after := by
  obtain ⟨instruction, encoding, address, describes, found, small, _, stands⟩ := filled
  refine ⟨address, found, small, _, _, describes.patched _, ?_, ?_, stands⟩
  · exact Operands.immediate?_withImmediate describes.takesImmediate _
  · rw [Encoding.length_words_patched describes.extended, describes.finish_eq]

namespace Carries

theorem finish_le (carries : patch.Carries code value) : patch.layout.finish ≤ code.size := by
  obtain ⟨instruction, encoding, denotes, immediate, finish, holds⟩ := carries
  rw [finish]
  exact holds.le_size encoding.words_ne_nil

/-- What an instruction carries is decided by its own bytes. -/
theorem congr (carries : patch.Carries before value)
    (same : ∀ offset, offset < patch.layout.finish → patch.layout.start ≤ offset →
      after.bytes[offset]? = before.bytes[offset]?) : patch.Carries after value := by
  obtain ⟨instruction, encoding, denotes, immediate, finish, holds⟩ := carries
  refine ⟨instruction, encoding, denotes, immediate, finish, holds.congr ?_⟩
  intro offset low high
  exact same offset (by omega) low

theorem append (carries : patch.Carries code value) (bytes : List UInt8) :
    patch.Carries (code.append bytes) value := by
  obtain ⟨instruction, encoding, denotes, immediate, finish, holds⟩ := carries
  exact ⟨instruction, encoding, denotes, immediate, finish,
    holds.append encoding.words_ne_nil bytes⟩

/-- Filling in patches elsewhere leaves the instruction as it is. -/
theorem of_untouched {patches : List Patch} (carries : patch.Carries before value)
    (untouched : Untouched patches before after)
    (apart : ∀ other ∈ patches, patch.Before other ∨ other.Before patch) :
    patch.Carries after value := by
  refine carries.congr ?_
  intro offset below low
  apply untouched.outside
  intro other stands
  rcases apart other stands with ahead | behind
  · rw [Before] at ahead
    omega
  · rw [Before] at behind
    omega

end Carries

theorem CarriesAddress.finish_le (carries : patch.CarriesAddress symbols code) :
    patch.layout.finish ≤ code.size := by
  obtain ⟨address, found, small, stands⟩ := carries
  exact stands.finish_le

theorem CarriesAddress.mono {more : SymbolTable} (carries : patch.CarriesAddress symbols before)
    (known : symbols.Extends more)
    (kept : ∀ value, patch.Carries before value → patch.Carries after value) :
    patch.CarriesAddress more after := by
  obtain ⟨address, found, small, stands⟩ := carries
  exact ⟨address, known found, small, kept _ stands⟩

end Assembly.Patch

/-! ## Calls -/

namespace Assembler

/-- A use of an assembler. -/
inductive Call where
  | loadSource (name text : String)
  | loadFile (source : Source) (name : String)
  | assembleAll (source : Source) (allowance : Nat)

namespace Call

/-- What a call does, and the bytes that it hands out if it is to assemble. -/
def perform : Call → Running (Option (Array UInt8))
  | loadSource name text => do
      modify fun assembler => assembler.enqueue name text
      return none
  | loadFile source name => do
      Assembler.loadFile source name
      return none
  | assembleAll source allowance => do
      return some (← Assembler.assembleAll source allowance)

/-- The state in which a call starts to resolve patches, if it comes to that. -/
def read? (call : Call) (start : Assembler) : Option Assembler :=
  match call with
  | assembleAll source allowance =>
      match readQueue source (start.queue.length + allowance) start with
      | .ok _ read => some read
      | .error _ _ => none
  | _ => none

end Call

/-- The state after calls, be they successful or not. -/
def afterCalls (calls : List Call) : Assembler :=
  calls.foldl (fun assembler call => finalState (call.perform assembler)) initial

namespace Call

variable {call : Call} {start read : Assembler}

/-- A call that does not come to resolving patches only reads. -/
theorem ends_perform (unresolved : call.read? start = none) :
    Ends Reads Stop.InText start call.perform := by
  cases call with
  | loadSource name text =>
      exact .of_bind Reads.chains (.of_modify (Reads.of_same rfl rfl rfl)) fun _ _ =>
        .of_pure Reads.chains _
  | loadFile source name =>
      have splices := (fills_splice start source name false).mono Fills.reads
      exact .of_bind Reads.chains (ends_readAt _ splices) fun _ _ => .of_pure Reads.chains _
  | assembleAll source allowance =>
      have ends := ends_readQueue start source (start.queue.length + allowance)
      rw [read?] at unresolved
      cases reading : readQueue source (start.queue.length + allowance) start with
      | ok value read =>
          rw [reading] at unresolved
          cases unresolved
      | error stop read =>
          have run : (assembleAll source allowance).perform start = .error stop read := by
            apply run_bind_of_error
            rw [Assembler.assembleAll, run_get_bind]
            exact run_bind_of_error reading
          exact .of_error run (ends.step_of_error reading) (ends.fails reading)

/-- A call that comes to resolving patches fills them in up to the first with a fault. -/
theorem perform_of_read? (resolves : call.read? start = some read) {boundary : Nat}
    (row : Patch.Row boundary read.code read.patches.toList) :
    let symbols := read.scope.symbols
    let patches := read.patches.toList
    ∃ code, Patch.Untouched (Patch.resolvable symbols patches) read.code code ∧
      (∀ patch ∈ Patch.resolvable symbols patches, patch.Filled symbols read.code code) ∧
      call.perform start =
        match Patch.verdict symbols patches with
        | none => .ok (some code.bytes) { read with code := .empty, patches := #[] }
        | some failure => .error (.failed failure) { read with code, patches := #[] } := by
  intro symbols patches
  cases call with
  | loadSource name text => cases resolves
  | loadFile source name => cases resolves
  | assembleAll source allowance =>
      rw [read?] at resolves
      cases reading : readQueue source (start.queue.length + allowance) start with
      | error stop final =>
          rw [reading] at resolves
          cases resolves
      | ok value final =>
          rw [reading] at resolves
          cases resolves
          obtain ⟨code, untouched, filled, run⟩ :=
            @resolvePatches_run patches { read with patches := #[] } row.fits row.apart
          have assembled : Assembler.assembleAll source allowance start =
              (resolvePatches patches >>= fun _ => takeCode) { read with patches := #[] } := by
            rw [Assembler.assembleAll, run_get_bind]
            exact run_bind_of_ok reading
          refine ⟨code, untouched, filled, ?_⟩
          cases clear : Patch.verdict symbols patches with
          | none =>
              rw [clear] at run
              apply run_bind_of_ok
              rw [assembled]
              exact run_bind_of_ok run
          | some failure =>
              rw [clear] at run
              apply run_bind_of_error
              rw [assembled]
              exact run_bind_of_error run

theorem reads_of_read? (resolves : call.read? start = some read) : Reads start read := by
  cases call with
  | loadSource name text => cases resolves
  | loadFile source name => cases resolves
  | assembleAll source allowance =>
      rw [read?] at resolves
      cases reading : readQueue source (start.queue.length + allowance) start with
      | error stop final =>
          rw [reading] at resolves
          cases resolves
      | ok value final =>
          rw [reading] at resolves
          cases resolves
          exact (ends_readQueue start source (start.queue.length + allowance)).step_of_ok reading

end Call
end Assembler

/-! ## What became of forward references -/

open Assembler

/-- An assembler in use. Of the patches that have been taken while the code stayed, some were
filled in and some were abandoned. -/
structure Session where
  assembler : Assembler
  filled : List Patch
  abandoned : List Patch

namespace Session

/-- A session before the first call. -/
def start : Session := ⟨.initial, [], []⟩

/-- All instructions in the code that were emitted for forward references. -/
def references (session : Session) : List Patch :=
  session.filled ++ session.abandoned ++ session.assembler.patches.toList

/-- The session with one more call. -/
def after (session : Session) (call : Call) : Session :=
  let assembler := finalState (call.perform session.assembler)
  match call.read? session.assembler with
  | none => { session with assembler }
  | some read =>
      let symbols := read.scope.symbols
      let patches := read.patches.toList
      match Patch.verdict symbols patches with
      | none => { assembler, filled := [], abandoned := [] }
      | some _ =>
          { assembler
            filled := session.filled ++ Patch.resolvable symbols patches
            abandoned := session.abandoned ++ Patch.stuck symbols patches }

/-- The session that calls make up. -/
def afterCalls (calls : List Call) : Session :=
  calls.foldl after start

variable {session : Session} {boundary : Nat}

theorem assembler_after (session : Session) (call : Call) :
    (session.after call).assembler = finalState (call.perform session.assembler) := by
  rw [after]
  cases call.read? session.assembler with
  | none => rfl
  | some read =>
      dsimp only
      split <;> rfl

theorem assembler_afterCalls (calls : List Call) :
    (afterCalls calls).assembler = Assembler.afterCalls calls := by
  rw [afterCalls, Assembler.afterCalls]
  exact (List.foldl_hom assembler fun session call => (assembler_after session call).symm).symm

/-- What holds of the instructions that were emitted for forward references: those still to be
resolved follow a boundary, and the others end before it, with an address if they were filled in
and with the placeholder if they were abandoned. -/
structure SoundFrom (boundary : Nat) (session : Session) : Prop where
  within : boundary ≤ session.assembler.code.size
  pending : Patch.Row boundary session.assembler.code session.assembler.patches.toList
  filled : ∀ patch ∈ session.filled, patch.layout.finish ≤ boundary ∧
    patch.CarriesAddress session.assembler.scope.symbols session.assembler.code
  abandoned : ∀ patch ∈ session.abandoned, patch.layout.finish ≤ boundary ∧
    patch.Carries session.assembler.code placeholder

/-- A session in which every forward reference is accounted for. -/
def Sound (session : Session) : Prop :=
  ∃ boundary, session.SoundFrom boundary

theorem sound_start : start.Sound :=
  ⟨0, Nat.le_refl _, .nil _ _, (fun _ stands => nomatch stands), fun _ stands => nomatch stands⟩

namespace SoundFrom

/-- Reading adds to the references that are still to be resolved, and leaves the others alone. -/
theorem reads (sound : session.SoundFrom boundary) {read : Assembler}
    (reads : Reads session.assembler read) :
    SoundFrom boundary { session with assembler := read } := by
  obtain ⟨within, pending⟩ := reads.row sound.within sound.pending
  obtain ⟨⟨⟨bytes, code⟩, _⟩, symbols⟩ := reads
  refine ⟨within, pending, ?_, ?_⟩
  · intro patch stands
    obtain ⟨ends, carries⟩ := sound.filled patch stands
    refine ⟨ends, carries.mono symbols ?_⟩
    intro value still
    rw [code]
    exact still.append bytes
  · intro patch stands
    obtain ⟨ends, carries⟩ := sound.abandoned patch stands
    refine ⟨ends, ?_⟩
    rw [code]
    exact carries.append bytes

/-- Resolving fills in the references before the first fault and abandons the others. -/
theorem resolves (sound : session.SoundFrom boundary) {code : Code} :
    let symbols := session.assembler.scope.symbols
    let patches := session.assembler.patches.toList
    Patch.Untouched (Patch.resolvable symbols patches) session.assembler.code code →
    (∀ patch ∈ Patch.resolvable symbols patches,
      patch.Filled symbols session.assembler.code code) →
    SoundFrom code.size
      { assembler := { session.assembler with code, patches := #[] }
        filled := session.filled ++ Patch.resolvable symbols patches
        abandoned := session.abandoned ++ Patch.stuck symbols patches } := by
  intro symbols patches untouched filled
  have whole : Patch.resolvable symbols patches ++ Patch.stuck symbols patches = patches :=
    List.takeWhile_append_dropWhile
  have row := sound.pending
  -- Nothing that has been settled before is touched, since it ends where the patches start.
  have kept : ∀ {patch : Patch} {value}, patch.layout.finish ≤ boundary →
      patch.Carries session.assembler.code value → patch.Carries code value := by
    intro patch value ends carries
    refine carries.of_untouched untouched ?_
    intro other stands
    exact .inl (Nat.le_trans ends (row.inside other (Patch.mem_of_resolvable stands)))
  -- The same goes for what is abandoned, which comes behind what is filled in.
  have apart : ∀ patch ∈ Patch.stuck symbols patches,
      ∀ other ∈ Patch.resolvable symbols patches, other.Before patch := by
    intro patch later other earlier
    have pairs := row.apart
    rw [← show _ = session.assembler.patches.toList from whole] at pairs
    exact (List.pairwise_append.mp pairs).2.2 other earlier patch later
  constructor
  · exact Nat.le_refl _
  · exact .nil _ _
  · intro patch stands
    rcases List.mem_append.mp stands with old | new
    · obtain ⟨ends, carries⟩ := sound.filled patch old
      have still : patch.CarriesAddress symbols code := carries.mono id fun _ => kept ends
      exact ⟨still.finish_le, still⟩
    · have carries := (filled patch new).carriesAddress
      exact ⟨carries.finish_le, carries⟩
  · intro patch stands
    rcases List.mem_append.mp stands with old | new
    · obtain ⟨ends, carries⟩ := sound.abandoned patch old
      have still := kept ends carries
      exact ⟨still.finish_le, still⟩
    · have waits : patch ∈ patches := by
        rw [← whole]
        exact List.mem_append_right _ new
      have still := (row.fits patch waits).carries.of_untouched untouched fun other stands =>
        .inr (apart patch new other stands)
      exact ⟨still.finish_le, still⟩

end SoundFrom

/-- **Every call accounts for every forward reference**, be it successful or not. -/
theorem sound_after (sound : session.Sound) (call : Call) : (session.after call).Sound := by
  obtain ⟨boundary, sound⟩ := sound
  cases resolves : call.read? session.assembler with
  | none =>
      have same : session.after call =
          { session with assembler := finalState (call.perform session.assembler) } := by
        rw [after, resolves]
      rw [same]
      exact ⟨boundary, sound.reads (Call.ends_perform resolves).leads⟩
  | some read =>
      have reading := sound.reads (Call.reads_of_read? resolves)
      obtain ⟨code, untouched, filled, run⟩ := Call.perform_of_read? resolves reading.pending
      rw [after, resolves]
      dsimp only
      cases clear : Patch.verdict read.scope.symbols read.patches.toList with
      | none =>
          rw [clear] at run
          rw [run]
          exact ⟨0, Nat.le_refl _, .nil _ _, (fun _ stands => nomatch stands),
            fun _ stands => nomatch stands⟩
      | some failure =>
          rw [clear] at run
          rw [run]
          exact ⟨code.size, reading.resolves untouched filled⟩

theorem sound_afterCalls (calls : List Call) : (afterCalls calls).Sound := by
  have general : ∀ {session : Session}, session.Sound → (calls.foldl after session).Sound := by
    induction calls with
    | nil => exact id
    | cons call rest ih =>
        intro session sound
        exact ih (sound_after sound call)
  exact general sound_start

end Session

/-! ## The encoder's own errors -/

namespace Assembly.Patch

/-- The words that a patch rewrites stand in the code. -/
theorem Fits.words_inside {patch : Patch} {code : Code} (fits : patch.Fits code) :
    ∃ extension, patch.layout.immediate = some extension ∧ extension + 2 ≤ code.size ∧
      patch.layout.word + 2 ≤ code.size := by
  have within := fits.finish_le
  obtain ⟨instruction, encoding, describes, holds⟩ := fits
  obtain ⟨word, extended⟩ := Option.isSome_iff_exists.mp describes.extended
  refine ⟨patch.layout.start, ?_, ?_, within⟩
  · rw [describes.placed, Layout.ofEncoding, extended]
    rfl
  · have nonempty := List.length_pos_iff.mpr encoding.words_ne_nil
    have finish := describes.finish_eq
    omega

theorem inText_of_verdict {symbols : SymbolTable} {patches : List Patch}
    {failure : AssemblyError} (failed : verdict symbols patches = some failure) :
    failure.error.InText := by
  obtain ⟨patch, _, fault⟩ := List.exists_of_findSome?_eq_some failed
  obtain ⟨error, found, rfl⟩ := Option.map_eq_some_iff.mp fault
  exact inText_of_fault? found

end Assembly.Patch

namespace Assembler

/-- A call fails for what a text says, if it fails. -/
theorem Call.stop_inText {session : Session} (sound : session.Sound) {call : Call} {stop : Stop}
    {final : Assembler} (failed : call.perform session.assembler = .error stop final) :
    stop.InText := by
  obtain ⟨boundary, sound⟩ := sound
  cases resolves : call.read? session.assembler with
  | none => exact (Call.ends_perform resolves).fails failed
  | some read =>
      have reading := sound.reads (Call.reads_of_read? resolves)
      obtain ⟨code, _, _, run⟩ := Call.perform_of_read? resolves reading.pending
      rw [failed] at run
      cases fault : Patch.verdict read.scope.symbols read.patches.toList with
      | none =>
          rw [fault] at run
          cases run
      | some failure =>
          rw [fault] at run
          cases run
          exact Patch.inText_of_verdict fault

/-- **The encoder has nothing to object to**, whatever calls have been made and however they
ended. No call fails with an error of the encoder; what a statement gives has the operands that its
operation asks for; and wherever reading stops, the words that the patches rewrite stand in the
code. -/
theorem encoder_accepts_everything (calls : List Call) :
    (∀ (call : Call) (place : SourceLine) (cause : EncodeError) (final : Assembler),
      call.perform (afterCalls calls) ≠ .error (.failed ⟨place, .encode cause⟩) final) ∧
    (∀ (scope : Scope) (mnemonic : String) (operands : List (List Char)) (emission : Emission),
      scope.statement mnemonic operands = .ok emission → emission.instruction.WellFormed) ∧
    (∀ (source : Source) (limit : Nat),
      let read := finalState (readQueue source limit (afterCalls calls))
      ∀ patch ∈ read.patches, ∃ extension, patch.layout.immediate = some extension ∧
        extension + 2 ≤ read.code.size ∧ patch.layout.word + 2 ≤ read.code.size) := by
  have sound := Session.sound_afterCalls calls
  rw [← Session.assembler_afterCalls]
  refine ⟨?_, ?_, ?_⟩
  · intro call place cause final failed
    exact Call.stop_inText sound failed
  · intro scope mnemonic operands emission given
    exact (Scope.sound_of_statement given).wellFormed
  · intro source limit read patch stands
    obtain ⟨boundary, sound⟩ := sound
    have reading := sound.reads (ends_readQueue _ source limit).leads
    exact (reading.pending.fits patch (Array.mem_toList_iff.mpr stands)).words_inside

end Assembler
end WordMachine
