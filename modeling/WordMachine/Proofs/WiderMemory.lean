import WordMachine.Proofs.OperandAgreement
import WordMachine.Proofs.Scheduling
import WordMachine.Proofs.Transfers

/-!
# Runs with more memory

A space can be seen as the front of a larger one: the larger one shows the same bytes wherever the
front is mapped, and what lies behind everywhere else (`FlatMemory.above`). The regions of the two
need not have anything to do with each other, so the same row of addresses may lie in one region of
the first and run through several of the second.

An action that succeeds on the front does the same on the larger space (`Core.Carries`): it gives
the same value, leaves the same registers and pointer, and changes the front alike in both; what
lies behind stays as it was. The property is compositional, so every instruction has it, fetching
included, and with the instructions each step and each run of the scheduler
(`Machine.runs_carry`). An action that fails may well succeed with more memory, so nothing is said
of failures.
-/

set_option autoImplicit false

namespace WordMachine

/-! ## One memory over another -/

namespace FlatMemory

variable {front behind : FlatMemory} {address : UInt32}

/-- A memory in front of another one, which shows where the front is not mapped. -/
def above (front behind : FlatMemory) : FlatMemory :=
  fun address => (front address).or (behind address)

theorem above_of_mapped (mapped : front address ≠ none) :
    front.above behind address = front address := by
  obtain ⟨byte, held⟩ := Option.ne_none_iff_exists'.mp mapped
  rw [above, held, Option.some_or]

theorem above_of_unmapped (missing : front address = none) :
    front.above behind address = behind address := by
  rw [above, missing, Option.none_or]

theorem above_put (stored : StoredByte) :
    (front.above behind).put stored = (front.put stored).above behind := by
  funext other
  exact (Option.or_assoc).symm

theorem above_putAll (stored : List StoredByte) :
    (front.above behind).putAll stored = (front.putAll stored).above behind := by
  induction stored generalizing front with
  | nil => rfl
  | cons first rest ih =>
      show ((front.above behind).put first).putAll rest = _
      rw [above_put]
      exact ih

/-- Bytes that find their places in the front find them behind it too. -/
theorem gap?_above {stored : List StoredByte} (whole : front.gap? stored = none) :
    (front.above behind).gap? stored = none := by
  rw [gap?_eq_none_iff] at whole ⊢
  intro one listed
  rw [above_of_mapped (whole one listed)]
  exact whole one listed

theorem row_above {count : Nat} (covers : front.Covers address count) :
    (front.above behind).row address count = front.row address count :=
  row_congr fun place inside => above_of_mapped (covers place inside)

/-- A memory that agrees with the front wherever that is mapped is the front over itself. -/
theorem eq_above {wide : FlatMemory}
    (agrees : ∀ address, front address ≠ none → wide address = front address) :
    wide = front.above wide := by
  funext address
  by_cases missing : front address = none
  · exact (above_of_unmapped missing).symm
  · rw [above_of_mapped missing, agrees address missing]

end FlatMemory

/-! ## Reading -/

namespace AddressSpace

theorem read_of_flat_eq {space other : AddressSpace} {address : UInt32}
    (same : space.flat address = other.flat address) : space.read address = other.read address := by
  cases held : other.flat address with
  | none => rw [read_of_flat_eq_none (same.trans held), read_of_flat_eq_none held]
  | some byte => rw [read_of_flat (same.trans held), read_of_flat held]

/-- It takes a look at each address of each region to see that another space has all bytes. -/
theorem agrees_of_regions {space other : AddressSpace}
    (same : ∀ region ∈ space.regions, ∀ place < region.capacity,
      other.flat (region.base + .ofNat place) = space.flat (region.base + .ofNat place))
    {address : UInt32} {byte : UInt8} (read : space.read address = .ok byte) :
    other.read address = .ok byte := by
  cases located : space.locate? address with
  | none =>
      rw [AddressSpace.read, located] at read
      cases read
  | some region =>
      obtain ⟨above, below⟩ := contains_of_locate? located
      have inside : region.offset address < region.capacity := by
        rw [Region.finish] at below
        rw [Region.offset]
        have := UInt32.le_iff_toNat_le.mp above
        omega
      have place : region.base + .ofNat (region.offset address) = address := by
        rw [Region.offset, ← UInt32.toNat_sub_of_le address region.base above, UInt32.ofNat_toNat]
        grind
      have here := same region (mem_of_locate? located) _ inside
      rw [place] at here
      rw [read_of_flat_eq here, read]

variable {space wide : AddressSpace} {behind : FlatMemory}
  (shows : wide.flat = space.flat.above behind)
include shows

theorem readNumber_of_above {address : UInt32} {count number : Nat}
    (read : space.readNumber address count = .ok number) :
    wide.readNumber address count = .ok number := by
  obtain ⟨fits, done⟩ := readNumber_eq_ok_iff.mp read
  have held := row_of_readBytes done
  have covers := FlatMemory.covers_of_row held
  have same : wide.flat.row address count = (BigEndian.encode count number).map some := by
    rw [shows, FlatMemory.row_above covers, held]
  have whole := readNumber_of_encoded same
  rwa [Nat.mod_eq_of_lt fits] at whole

theorem nextWord_of_above {address next : UInt32} {word : UInt16}
    (read : Core.nextWord space address = .ok word next) :
    Core.nextWord wide address = .ok word next := by
  rw [Core.nextWord] at read ⊢
  split at read
  · rename_i number found
    rw [readNumber_of_above shows found]
    exact read
  · cases read

end AddressSpace

/-- A source that yields what another one yields is fetched from alike. -/
theorem fetchWith_of_agreeing {ε σ : Type} {first second : WordSource ε σ} {pending : Pending}
    {start finish : σ} {found : Fetched}
    (agrees : ∀ {start rest word}, first start = .ok word rest → second start = .ok word rest)
    (fetched : fetchWith first pending start = .ok found finish) :
    fetchWith second pending start = .ok found finish := by
  fun_induction fetchWith first pending start with
  | case1 => cases fetched
  | case2 pending start raw rest read | case3 pending start word rest read =>
      obtain ⟨word, step, decoded⟩ := decodeNext_eq_ok read
      rw [fetchWith_of_read (agrees step), decoded]
      exact fetched
  | case4 pending start accepted rest read extended accept ih =>
      obtain ⟨word, step, decoded⟩ := decodeNext_eq_ok read
      rw [fetchWith_extension (agrees step) decoded accept]
      exact ih fetched
  | case5 pending start refused rest read refuse =>
      obtain ⟨word, step, decoded⟩ := decodeNext_eq_ok read
      rw [fetchWith_of_read (agrees step), decoded]
      simp only [refuse]
      exact fetched

/-! ## Actions -/

namespace Core

/-- The core with another memory. -/
def withMemory (core : Core) (memory : AddressSpace) : Core :=
  { core with memory }

/-- One core comes of another without a change of what is mapped, and with the memory in front of
something else too: then what is in front changes alike, and what is behind stays. -/
structure Carried (comes : Core → Core → Prop) (core after : Core) : Prop where
  mapped : ∀ address, after.memory.flat address = none ↔ core.memory.flat address = none
  widens : ∀ {behind : FlatMemory} {wide : AddressSpace}, wide.flat = core.memory.flat.above behind →
    ∃ wider : AddressSpace, wider.flat = after.memory.flat.above behind ∧
      comes (core.withMemory wide) (after.withMemory wider)

namespace Carried

variable {core between after : Core} {comes first second : Core → Core → Prop}

/-- Memory takes no part. -/
theorem of_quiet (kept : after.memory = core.memory)
    (comes_of : ∀ wide, comes (core.withMemory wide) (after.withMemory wide)) :
    Carried comes core after where
  mapped address := by rw [kept]
  widens {_ wide} shows := ⟨wide, by rw [kept, shows], comes_of wide⟩

theorem trans (early : Carried first core between) (late : Carried second between after)
    (whole : ∀ {start middle final}, first start middle → second middle final → comes start final) :
    Carried comes core after where
  mapped address := (late.mapped address).trans (early.mapped address)
  widens shows := by
    obtain ⟨wider, shown, came⟩ := early.widens shows
    obtain ⟨widest, shownLast, cameLast⟩ := late.widens shown
    exact ⟨widest, shownLast, whole came cameLast⟩

end Carried

/-- If the action succeeds, it does so with more memory. -/
def Carries {α : Type} (action : Execution α) : Prop :=
  ∀ {core after : Core} {value : α}, action core = .ok value after →
    Carried (fun start final => action start = .ok value final) core after

theorem carries_of_quiet {α : Type} {action : Execution α} (still : Quiet action) :
    Carries action := by
  intro core after value done
  obtain ⟨_, _, same, kept, -⟩ := still core core.memory
  cases done.symm.trans same
  refine .of_quiet kept fun wide => ?_
  obtain ⟨_, _, again, -, other⟩ := still core wide
  cases same.symm.trans again
  exact other

/-- A core loads the number that is read from its memory. -/
theorem load_of_read {core : Core} {address : UInt32} {bytes value : Nat}
    (read : core.memory.readNumber address bytes = .ok value) :
    load address bytes core = .ok value core := by
  rw [load, read]

theorem carries_load (address : UInt32) (bytes : Nat) : Carries (load address bytes) := by
  intro core after value done
  rw [load] at done
  split at done
  · rename_i number read
    cases done
    refine ⟨fun _ => Iff.rfl, fun {behind wide} shows => ⟨wide, shows, ?_⟩⟩
    exact load_of_read (AddressSpace.readNumber_of_above shows read)
  · cases done

theorem carries_store (address : UInt32) (bytes value : Nat) :
    Carries (store address bytes value) := by
  intro core after result done
  have stores := stores_store core address bytes value
  cases gap : core.memory.flat.gap? (StoredByte.row address (BigEndian.encode bytes value)) with
  | some missing =>
      obtain ⟨memory, _, failed⟩ := stores.of_gap gap
      cases done.symm.trans failed
  | none =>
      obtain ⟨memory, receives, stored⟩ := stores.of_ok gap
      cases done.symm.trans stored
      refine ⟨receives.mapped_iff gap, fun {behind wide} shows => ?_⟩
      have room : wide.flat.gap? (StoredByte.row address (BigEndian.encode bytes value)) = none := by
        rw [shows]
        exact FlatMemory.gap?_above gap
      obtain ⟨wider, received, again⟩ :=
        (stores_store (core.withMemory wide) address bytes value).of_ok room
      refine ⟨wider, ?_, again⟩
      have laid : wider.flat = wide.flat.putAll _ := received.flat_of_whole room
      show wider.flat = memory.flat.above behind
      rw [laid, shows, FlatMemory.above_putAll, receives.flat_of_whole gap]

theorem Carries.bind {α β : Type} {action : Execution α} {next : α → Execution β}
    (first : Carries action) (later : ∀ value, Carries (next value)) :
    Carries (action >>= next) := by
  intro core after result done
  obtain ⟨value, between, step, rest⟩ := run_bind_eq_ok.mp done
  exact (first step).trans (later value rest) fun came cameLast =>
    run_bind_eq_ok.mpr ⟨value, _, came, cameLast⟩

theorem compositional_carries : Compositional Carries where
  quiet := carries_of_quiet
  load := carries_load
  store := carries_store
  divisionByZero _ := fun done => nomatch done
  bind := Carries.bind

/-! ## Steps and runs -/

/-- A core fetches what is read from its memory at its pointer. -/
theorem fetch_of_read {core : Core} {found : Fetched} {next : UInt32}
    (read : WordMachine.fetch (nextWord core.memory) core.pointer = .ok found next) :
    core.fetch = .ok (found, next) := by
  rw [fetch, read]

theorem fetch_of_above {core : Core} {wide : AddressSpace} {behind : FlatMemory}
    (shows : wide.flat = core.memory.flat.above behind) {found : Fetched} {next : UInt32}
    (fetched : core.fetch = .ok (found, next)) :
    (core.withMemory wide).fetch = .ok (found, next) := by
  have again : WordMachine.fetch (nextWord wide) core.pointer = .ok found next :=
    fetchWith_of_agreeing (AddressSpace.nextWord_of_above shows) (fetch_of_core fetched)
  exact fetch_of_read again

/-- An instruction that is fetched and executed is so with more memory. -/
theorem carried_of_executed {core after : Core} {found : Instruction} {next : UInt32}
    (fetched : core.fetch = .ok (.instruction found, next))
    (executed : execute found core.pointer { core with pointer := next } = .ok () after) :
    Carried (fun start final => start.pointer = core.pointer ∧
      start.fetch = .ok (.instruction found, next) ∧
        execute found start.pointer { start with pointer := next } = .ok () final) core after := by
  have carried := compositional_carries.execute (wellFormed_of_fetch fetched) core.pointer executed
  refine ⟨carried.mapped, fun shows => ?_⟩
  obtain ⟨wider, shown, ran⟩ := carried.widens shows
  exact ⟨wider, shown, rfl, fetch_of_above shows fetched, ran⟩

/-- **A step that succeeds does so with more memory.** -/
theorem carries_step : Carries step := by
  intro core after value done
  cases fetched : core.fetch with
  | error error =>
      rw [step, fetched] at done
      cases done
  | ok outcome =>
      obtain ⟨found, next⟩ := outcome
      cases found with
      | illegal word =>
          rw [step, fetched] at done
          cases done
      | instruction found =>
          rw [step_of_fetch fetched] at done
          have carried := carried_of_executed fetched done
          refine ⟨carried.mapped, fun shows => ?_⟩
          obtain ⟨wider, shown, -, again, ran⟩ := carried.widens shows
          exact ⟨wider, shown, (step_of_fetch again).trans ran⟩

/-- **A run that succeeds does so with more memory**, and dispatches the same instructions. -/
theorem carried_drain {core : Core} {balance : Nat} {dispatches : List Dispatch}
    (settled : (core.drain balance dispatches).fault = none) :
    Carried (fun start final => start.drain balance dispatches =
        { core.drain balance dispatches with core := final })
      core (core.drain balance dispatches).core := by
  fun_induction drain core balance dispatches with
  | case1 | case2 | case4 => cases settled
  | case3 core balance dispatches found next fetched rest paid longer between executed ih =>
      refine (carried_of_executed fetched executed).trans (ih settled) ?_
      rintro start middle final ⟨same, again, ran⟩ later
      rw [drain_of_executed again paid ran, same]
      exact later
  | case5 core balance dispatches found next fetched dear =>
      refine ⟨fun _ => Iff.rfl, fun {behind wide} shows => ⟨wide, shows, ?_⟩⟩
      exact drain_of_unaffordable (fetch_of_above shows fetched) dear

end Core

/-! ## Machines -/

/-- Two memories after a change, the first of which had no byte that the second did not have: they
agree where the first was mapped, and elsewhere the second is as it was. -/
structure AddressSpace.ChangeAlike (before after other changed : AddressSpace) : Prop where
  shared : ∀ address, before.isMapped address = true →
    ∃ byte, after.read address = .ok byte ∧ changed.read address = .ok byte
  untouched : ∀ address, before.isMapped address = false →
    changed.read address = other.read address

namespace Machine

/-- The machine with another memory. -/
def withMemory (machine : Machine) (memory : AddressSpace) : Machine :=
  { machine with core := machine.core.withMemory memory }

section Memories

variable {core after : Core} {comes : Core → Core → Prop} {memory : AddressSpace}

/-- Whatever has the bytes of a memory has it in front of itself. -/
theorem changeAlike_of_carried (carried : Core.Carried comes core after)
    (agrees : ∀ address byte, core.memory.read address = .ok byte → memory.read address = .ok byte) :
    ∃ changed, core.memory.ChangeAlike after.memory memory changed ∧
      comes (core.withMemory memory) (after.withMemory changed) := by
  have shows : memory.flat = core.memory.flat.above memory.flat := by
    refine FlatMemory.eq_above fun address mapped => ?_
    obtain ⟨byte, held⟩ := Option.ne_none_iff_exists'.mp mapped
    have read := agrees address byte (AddressSpace.read_of_flat held)
    rw [held, AddressSpace.flat, read]
    rfl
  obtain ⟨changed, shown, came⟩ := carried.widens shows
  refine ⟨changed, ⟨fun address mapped => ?_, fun address missing => ?_⟩, came⟩
  · rw [← AddressSpace.isSome_flat, Option.isSome_iff_ne_none] at mapped
    have kept := mt (carried.mapped address).mp mapped
    obtain ⟨byte, held⟩ := Option.ne_none_iff_exists'.mp kept
    have there : changed.flat address = some byte := by
      rw [shown, FlatMemory.above_of_mapped kept, held]
    exact ⟨byte, AddressSpace.read_of_flat held, AddressSpace.read_of_flat there⟩
  · rw [← AddressSpace.isSome_flat, Option.isSome_eq_false_iff, Option.isNone_iff_eq_none] at missing
    refine AddressSpace.read_of_flat_eq ?_
    rw [shown, FlatMemory.above_of_unmapped ((carried.mapped address).mpr missing)]

end Memories

/-- **A step or run that succeeds does not depend on memory that it never had.** -/
theorem runs_carry (machine : Machine) (memory : AddressSpace)
    (agrees : ∀ address byte,
      machine.core.memory.read address = .ok byte → memory.read address = .ok byte) :
    let other := machine.withMemory memory
    (∀ after, machine.step = (.ok (), after) →
      ∃ changed, other.step = (.ok (), after.withMemory changed) ∧
        machine.core.memory.ChangeAlike after.core.memory memory changed) ∧
    ∀ grant count, (machine.run grant).executed = .ok count →
      let after := machine.afterRun (machine.run grant)
      ∃ changed, (other.run grant).executed = .ok count ∧
        (other.run grant).history = (machine.run grant).history ∧
        other.afterRun (other.run grant) = after.withMemory changed ∧
        machine.core.memory.ChangeAlike after.core.memory memory changed := by
  refine ⟨fun after done => ?_, fun grant count done => ?_⟩
  · rw [step, perform] at done
    cases outcome : Core.step machine.core with
    | error fault core =>
        rw [outcome] at done
        cases done
    | ok value core =>
        rw [outcome] at done
        cases done
        obtain ⟨changed, alike, came⟩ := changeAlike_of_carried (Core.carries_step outcome) agrees
        have stepped : Core.step (machine.withMemory memory).core =
            .ok () (core.withMemory changed) := came
        refine ⟨changed, ?_, alike⟩
        rw [step, perform, stepped]
        rfl
  · have settled : (machine.run grant).fault = none := by
      rw [Run.executed] at done
      split at done
      · assumption
      · cases done
    rw [run_eq_drain] at settled
    obtain ⟨changed, alike, came⟩ := changeAlike_of_carried (Core.carried_drain settled) agrees
    rw [← run_eq_drain] at alike came
    have ran : (machine.withMemory memory).run grant =
        { machine.run grant with core := (machine.run grant).core.withMemory changed } := by
      rw [← came, run_eq_drain]
      cases grant <;> rfl
    refine ⟨changed, ?_, ?_, ?_, alike⟩
    · rw [ran]
      exact done
    · rw [ran]
      rfl
    · rw [ran]
      rfl

/-- A dword is stored around the end of the address space, over the words of the instruction that
stores it. The next instruction is dearer. -/
def wrappingStore : Machine :=
  { standard ⟨[]⟩ with
    core :=
      { registers := RegisterFile.cleared.set 1 0xCAFEBABE
        pointer := 0
        memory :=
          ⟨[Region.ofContents 0xFFFFFFFE 2 #[],
            Region.ofContents 3 5 #[0x36, 0x3B, 0x81, 0x36, 0x00],
            Region.ofContents 0 3 #[0xFF, 0xFF, 0x80]]⟩ } }

/-- The same bytes in two larger regions. -/
def roomyMemory : AddressSpace :=
  ⟨[Region.ofContents 0xFFFFFFF0 16 #[],
    Region.ofContents 0 16 #[0xFF, 0xFF, 0x80, 0x36, 0x3B, 0x81, 0x36, 0x00, 7, 8, 9]]⟩

theorem runs_carry_wrappingStore :
    (∀ address byte, wrappingStore.core.memory.read address = .ok byte →
      roomyMemory.read address = .ok byte) ∧
    let other := wrappingStore.withMemory roomyMemory
    let after := wrappingStore.afterRun (wrappingStore.run (.budget 4))
    (wrappingStore.run (.budget 4)).executed.toOption = some 1 ∧
      after.core.memory.flat 1 = some 0xBE ∧
      ∃ changed, (other.run (.budget 4)).executed = .ok 1 ∧
        other.afterRun (other.run (.budget 4)) = after.withMemory changed ∧
        wrappingStore.core.memory.ChangeAlike after.core.memory roomyMemory changed := by
  have agrees : ∀ address byte, wrappingStore.core.memory.read address = .ok byte →
      roomyMemory.read address = .ok byte := fun address byte =>
    AddressSpace.agrees_of_regions (by decide)
  have evaluated : (wrappingStore.run (.budget 4)).executed.toOption = some 1 := by decide +kernel
  have executed : (wrappingStore.run (.budget 4)).executed = .ok 1 := by
    cases outcome : (wrappingStore.run (.budget 4)).executed with
    | ok count =>
        rw [outcome] at evaluated
        exact congrArg Except.ok (Option.some.inj evaluated)
    | error fault =>
        rw [outcome] at evaluated
        cases evaluated
  obtain ⟨changed, same, -, reached, alike⟩ :=
    (runs_carry wrappingStore roomyMemory agrees).2 (.budget 4) 1 executed
  exact ⟨agrees, evaluated, by decide +kernel, changed, same, reached, alike⟩

end Machine
end WordMachine
