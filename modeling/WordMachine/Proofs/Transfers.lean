import Mathlib.Data.List.Basic
import WordMachine.Machine.Execute
import WordMachine.Proofs.Actions
import WordMachine.Proofs.FlatMemory
import WordMachine.Proofs.RegisterViews

/-!
# Transfers between registers and memory

An instruction that stores has its bytes in an order (`StoredByte`). They reach memory one by one up
to the first address that is not mapped, where the instruction ends with a fault; registers and
pointer are as before by then. This is one property of actions (`Core.Stores`), which actions in a
row have for their bytes in a row.

An instruction that loads a list of registers takes them from rows of memory side by side. A fault
in one row leaves the registers of the rows before it loaded and all others alone (`Core.Loaded`).
-/

set_option autoImplicit false

namespace WordMachine

/-! ## Bytes in the order in which they are stored -/

/-- A byte on its way to an address. -/
structure StoredByte where
  address : UInt32
  byte : UInt8

namespace StoredByte

/-- Bytes on their way to consecutive addresses. -/
def row (address : UInt32) : List UInt8 → List StoredByte
  | [] => []
  | byte :: rest => ⟨address, byte⟩ :: row (address + 1) rest

theorem mem_row {address : UInt32} {bytes : List UInt8} {stored : StoredByte}
    (member : stored ∈ row address bytes) :
    ∃ place < bytes.length, stored.address = address + .ofNat place := by
  induction bytes generalizing address with
  | nil => cases member
  | cons byte rest ih =>
      rcases List.mem_cons.mp member with rfl | later
      · exact ⟨0, Nat.succ_pos _, (FlatMemory.add_ofNat_zero address).symm⟩
      · obtain ⟨place, inside, same⟩ := ih later
        refine ⟨place + 1, Nat.succ_lt_succ inside, ?_⟩
        rw [same, FlatMemory.add_ofNat_succ]

end StoredByte

namespace FlatMemory

/-- The memory with a byte in place. -/
def put (memory : FlatMemory) (stored : StoredByte) : FlatMemory :=
  memory.overlay stored.address [stored.byte]

/-- The memory with bytes in place, the later ones over the earlier. -/
def putAll (memory : FlatMemory) (stored : List StoredByte) : FlatMemory :=
  stored.foldl put memory

/-- The bytes before the first address that is not mapped. -/
def reached (memory : FlatMemory) (stored : List StoredByte) : List StoredByte :=
  stored.takeWhile fun one => (memory one.address).isSome

/-- The first address that is not mapped. -/
def gap? (memory : FlatMemory) (stored : List StoredByte) : Option UInt32 :=
  (stored.find? fun one => (memory one.address).isNone).map StoredByte.address

variable {memory after : FlatMemory} {stored later : List StoredByte} {first : StoredByte}

theorem putAll_append :
    memory.putAll (stored ++ later) = FlatMemory.putAll (memory.putAll stored) later :=
  List.foldl_append

theorem put_of_ne {other : UInt32} (apart : other ≠ first.address) :
    memory.put first other = memory other := by
  rw [put, overlay_one, if_neg apart]

theorem putAll_of_not_mem {other : UInt32} (apart : ∀ one ∈ stored, other ≠ one.address) :
    memory.putAll stored other = memory other := by
  induction stored generalizing memory with
  | nil => rfl
  | cons first rest ih =>
      rw [List.forall_mem_cons] at apart
      exact (ih apart.2).trans (put_of_ne apart.1)

theorem putAll_row {address : UInt32} {bytes : List UInt8}
    (short : bytes.length ≤ AddressSpace.addressCount) :
    memory.putAll (StoredByte.row address bytes) = memory.overlay address bytes := by
  induction bytes generalizing memory address with
  | nil => exact overlay_nil.symm
  | cons byte rest ih =>
      rw [overlay_cons byte short]
      exact ih (Nat.le_of_succ_le short)

/-! ### How far they get -/

theorem gap?_cons_of_mapped (mapped : memory first.address ≠ none) :
    memory.gap? (first :: later) = memory.gap? later := by
  rw [gap?, List.find?_cons_of_neg (by simpa using mapped), gap?]

theorem gap?_cons_of_unmapped (unmapped : memory first.address = none) :
    memory.gap? (first :: later) = some first.address := by
  rw [gap?, List.find?_cons_of_pos (by simpa using unmapped)]
  rfl

theorem reached_cons_of_mapped (mapped : memory first.address ≠ none) :
    memory.reached (first :: later) = first :: memory.reached later := by
  rw [reached, List.takeWhile_cons_of_pos (by simpa [Option.isSome_iff_ne_none] using mapped),
    reached]

theorem reached_cons_of_unmapped (unmapped : memory first.address = none) :
    memory.reached (first :: later) = [] := by
  rw [reached, List.takeWhile_cons_of_neg (by simp [unmapped])]

theorem gap?_eq_none_iff : memory.gap? stored = none ↔ ∀ one ∈ stored, memory one.address ≠ none := by
  rw [gap?, Option.map_eq_none_iff, List.find?_eq_none]
  exact forall₂_congr fun one _ => not_congr Option.isNone_iff_eq_none

/-- Bytes on their way to the addresses of a row that is mapped all get there. -/
theorem gap?_row_of_covers {address : UInt32} {bytes : List UInt8}
    (covers : memory.Covers address bytes.length) :
    memory.gap? (StoredByte.row address bytes) = none := by
  refine gap?_eq_none_iff.mpr fun one stored => ?_
  obtain ⟨place, inside, same⟩ := StoredByte.mem_row stored
  rw [same]
  exact covers place inside

theorem unmapped_of_gap? {address : UInt32} (gap : memory.gap? stored = some address) :
    memory address = none := by
  obtain ⟨one, found, rfl⟩ := Option.map_eq_some_iff.mp gap
  simpa using List.find?_some found

theorem reached_of_gap?_eq_none (whole : memory.gap? stored = none) :
    memory.reached stored = stored := by
  induction stored with
  | nil => rfl
  | cons first rest ih =>
      have mapped := gap?_eq_none_iff.mp whole first List.mem_cons_self
      rw [gap?_cons_of_mapped mapped] at whole
      rw [reached_cons_of_mapped mapped, ih whole]

theorem gap?_append_of_none (whole : memory.gap? stored = none) :
    memory.gap? (stored ++ later) = memory.gap? later := by
  rw [gap?, Option.map_eq_none_iff] at whole
  rw [gap?, List.find?_append, whole, Option.none_or, gap?]

theorem gap?_append_of_some {address : UInt32} (gap : memory.gap? stored = some address) :
    memory.gap? (stored ++ later) = some address := by
  obtain ⟨one, found, rfl⟩ := Option.map_eq_some_iff.mp gap
  rw [gap?, List.find?_append, found]
  rfl

theorem reached_append_of_none (whole : memory.gap? stored = none) :
    memory.reached (stored ++ later) = stored ++ memory.reached later := by
  rw [gap?_eq_none_iff] at whole
  rw [reached, List.takeWhile_append_of_pos, reached]
  exact fun one listed => Option.isSome_iff_ne_none.mpr (whole one listed)

theorem reached_append_of_some {address : UInt32} (gap : memory.gap? stored = some address) :
    memory.reached (stored ++ later) = memory.reached stored := by
  induction stored with
  | nil => cases gap
  | cons first rest ih =>
      by_cases mapped : memory first.address = none
      · rw [List.cons_append, reached_cons_of_unmapped mapped, reached_cons_of_unmapped mapped]
      · rw [gap?_cons_of_mapped mapped] at gap
        rw [List.cons_append, reached_cons_of_mapped mapped, reached_cons_of_mapped mapped, ih gap]

/-- Only which addresses are mapped decides how far bytes get. -/
theorem gap?_congr (same : ∀ address, after address = none ↔ memory address = none) :
    after.gap? stored = memory.gap? stored := by
  have equal : ∀ address, (after address).isNone = (memory address).isNone := fun address =>
    Bool.eq_iff_iff.mpr (by simpa using same address)
  rw [gap?, gap?]
  simp only [equal]

theorem reached_congr (same : ∀ address, after address = none ↔ memory address = none) :
    after.reached stored = memory.reached stored := by
  have equal : ∀ address, (after address).isSome = (memory address).isSome := fun address =>
    Bool.eq_iff_iff.mpr (by simpa [Option.isSome_iff_ne_none] using not_congr (same address))
  rw [reached, reached]
  simp only [equal]

theorem put_eq_none_iff (mapped : memory first.address ≠ none) (other : UInt32) :
    memory.put first other = none ↔ memory other = none :=
  overlay_one_eq_none mapped first.byte other

theorem putAll_eq_none_iff (whole : memory.gap? stored = none) (other : UInt32) :
    memory.putAll stored other = none ↔ memory other = none := by
  induction stored generalizing memory with
  | nil => exact Iff.rfl
  | cons first rest ih =>
      have mapped := gap?_eq_none_iff.mp whole first List.mem_cons_self
      rw [gap?_cons_of_mapped mapped] at whole
      have kept := put_eq_none_iff mapped
      exact (ih ((gap?_congr kept).trans whole)).trans (kept other)

end FlatMemory

/-! ## Spaces that receive bytes -/

namespace AddressSpace

/-- Bytes have been stored in a space up to the first gap. -/
structure Receives (before : AddressSpace) (stored : List StoredByte) (after : AddressSpace) :
    Prop where
  flat : after.flat = before.flat.putAll (before.flat.reached stored)
  nothing : stored = [] → after = before

namespace Receives

variable {before between after : AddressSpace} {stored later : List StoredByte}

theorem nil (space : AddressSpace) : space.Receives [] space where
  flat := rfl
  nothing _ := rfl

theorem flat_of_whole (receives : before.Receives stored after)
    (whole : before.flat.gap? stored = none) : after.flat = before.flat.putAll stored := by
  have flat := receives.flat
  rwa [FlatMemory.reached_of_gap?_eq_none whole] at flat

/-- Bytes that were all stored have mapped and unmapped nothing. -/
theorem mapped_iff (receives : before.Receives stored after)
    (whole : before.flat.gap? stored = none) (other : UInt32) :
    after.flat other = none ↔ before.flat other = none := by
  rw [receives.flat_of_whole whole]
  exact FlatMemory.putAll_eq_none_iff whole other

theorem append (first : before.Receives stored between) (whole : before.flat.gap? stored = none)
    (second : between.Receives later after) : before.Receives (stored ++ later) after where
  flat := by
    rw [FlatMemory.reached_append_of_none whole, FlatMemory.putAll_append, second.flat,
      FlatMemory.reached_congr (first.mapped_iff whole), first.flat_of_whole whole]
  nothing empty := by
    obtain ⟨none, nor⟩ := List.append_eq_nil_iff.mp empty
    rw [second.nothing nor, first.nothing none]

/-- After a gap no byte is stored any more. -/
theorem append_of_gap (receives : before.Receives stored after) {missing : UInt32}
    (gap : before.flat.gap? stored = some missing) : before.Receives (stored ++ later) after where
  flat := by rw [FlatMemory.reached_append_of_some gap, receives.flat]
  nothing empty := receives.nothing (List.append_eq_nil_iff.mp empty).1

end Receives

/-- **Bytes are written up to the first gap.** -/
theorem writeBytes_run (bytes : List UInt8) (address : UInt32) (space : AddressSpace) :
    let stored := StoredByte.row address bytes
    ∃ after : AddressSpace, space.Receives stored after ∧
      writeBytes address bytes space =
        match space.flat.gap? stored with
        | none => .ok () after
        | some missing => .error (.unmapped missing) after := by
  induction bytes generalizing address space with
  | nil => exact ⟨space, .nil space, rfl⟩
  | cons byte rest ih =>
      dsimp only [StoredByte.row]
      rcases write_cases space address byte with ⟨between, done, laid, mapped⟩ | ⟨failed, gap⟩
      · obtain ⟨after, receives, run⟩ := ih (address + 1) between
        have kept : ∀ other, between.flat other = none ↔ space.flat other = none := by
          rw [laid]
          exact FlatMemory.overlay_one_eq_none mapped byte
        refine ⟨after, ⟨?_, fun empty => absurd empty (List.cons_ne_nil _ _)⟩, ?_⟩
        · rw [FlatMemory.reached_cons_of_mapped mapped, receives.flat,
            FlatMemory.reached_congr kept, laid]
          rfl
        · rw [FlatMemory.gap?_cons_of_mapped mapped, writeBytes, run_bind_of_ok done, run,
            FlatMemory.gap?_congr kept]
      · refine ⟨space, ⟨?_, fun _ => rfl⟩, ?_⟩
        · rw [FlatMemory.reached_cons_of_unmapped gap]
          rfl
        · rw [FlatMemory.gap?_cons_of_unmapped gap, writeBytes]
          exact run_bind_of_error failed

end AddressSpace

/-! ## Actions that store -/

namespace Core

variable {α β : Type}

/-- From a core an action stores bytes in this order. It gives the value if they can all be stored,
and else it ends with a fault at the first gap, where the bytes before it have been stored. Nothing
but memory changes. -/
def Stores (core : Core) (stored : List StoredByte) (value : α) (action : Execution α) : Prop :=
  ∃ memory : AddressSpace, core.memory.Receives stored memory ∧
    action core =
      match core.memory.flat.gap? stored with
      | none => .ok value { core with memory }
      | some missing => .error (.memory (.unmapped missing)) { core with memory }

namespace Stores

variable {core : Core} {stored later : List StoredByte} {value : α} {result : β}
  {action : Execution α} {next : α → Execution β}

theorem of_ok (stores : Stores core stored value action)
    (whole : core.memory.flat.gap? stored = none) :
    ∃ memory : AddressSpace, core.memory.Receives stored memory ∧
      action core = .ok value { core with memory } := by
  obtain ⟨memory, receives, run⟩ := stores
  rw [whole] at run
  exact ⟨memory, receives, run⟩

theorem of_gap (stores : Stores core stored value action) {missing : UInt32}
    (gap : core.memory.flat.gap? stored = some missing) :
    ∃ memory : AddressSpace, core.memory.Receives stored memory ∧
      action core = .error (.memory (.unmapped missing)) { core with memory } := by
  obtain ⟨memory, receives, run⟩ := stores
  rw [gap] at run
  exact ⟨memory, receives, run⟩

theorem pure (core : Core) (value : α) : Stores core [] value (pure value) :=
  ⟨core.memory, .nil core.memory, rfl⟩

theorem of_read {read : Execution β} {next : β → Execution α} {held : β}
    (reads : read core = .ok held core) (stores : Stores core stored value (next held)) :
    Stores core stored value (read >>= next) := by
  rwa [Stores, run_bind_of_ok reads]

/-- Actions in a row store their bytes in a row. -/
theorem bind (first : Stores core stored value action)
    (second : ∀ memory : AddressSpace, Stores { core with memory } later result (next value)) :
    Stores core (stored ++ later) result (action >>= next) := by
  cases gap : core.memory.flat.gap? stored with
  | none =>
      obtain ⟨between, receives, run⟩ := first.of_ok gap
      obtain ⟨memory, more, rest⟩ := second between
      refine ⟨memory, receives.append gap more, ?_⟩
      rw [FlatMemory.gap?_append_of_none gap, run_bind_of_ok run, rest,
        FlatMemory.gap?_congr (receives.mapped_iff gap)]
  | some missing =>
      obtain ⟨memory, receives, run⟩ := first.of_gap gap
      refine ⟨memory, receives.append_of_gap gap, ?_⟩
      rw [FlatMemory.gap?_append_of_some gap]
      exact run_bind_of_error run

end Stores

theorem stores_store (core : Core) (address : UInt32) (bytes value : Nat) :
    Stores core (StoredByte.row address (BigEndian.encode bytes value)) ()
      (store address bytes value) := by
  obtain ⟨memory, receives, run⟩ :=
    AddressSpace.writeBytes_run (BigEndian.encode bytes value) address core.memory
  refine ⟨memory, receives, ?_⟩
  rw [store, AddressSpace.writeNumber, run]
  cases core.memory.flat.gap? (StoredByte.row address (BigEndian.encode bytes value)) <;> rfl

/-- **A number is stored where all its bytes have a place.** No other byte changes, and no address
becomes mapped or unmapped. -/
theorem store_of_covers {core : Core} {address : UInt32} {bytes : Nat}
    (short : bytes ≤ AddressSpace.addressCount) (covers : core.memory.flat.Covers address bytes)
    (value : Nat) :
    ∃ memory : AddressSpace,
      memory.flat = core.memory.flat.overlay address (BigEndian.encode bytes value) ∧
        (∀ other, memory.flat other = none ↔ core.memory.flat other = none) ∧
        store address bytes value core = .ok () { core with memory } := by
  have length := BigEndian.length_encode bytes value
  have whole : core.memory.flat.gap? (StoredByte.row address (BigEndian.encode bytes value)) =
      none := by
    refine FlatMemory.gap?_row_of_covers ?_
    rwa [length]
  obtain ⟨memory, receives, run⟩ := (stores_store core address bytes value).of_ok whole
  refine ⟨memory, ?_, receives.mapped_iff whole, run⟩
  rw [receives.flat_of_whole whole]
  refine FlatMemory.putAll_row ?_
  rwa [length]

/-- The bytes of a list of values that are stored one below the other: the first ends at the start
address. -/
def rowsDown (size : Nat) (value : Fin 16 → UInt32) (listed : List (Fin 16)) (start : UInt32) :
    List StoredByte :=
  listed.flatMap fun index =>
    StoredByte.row (start - .ofNat (size * (listed.idxOf index + 1)))
      (BigEndian.encode size (value index).toNat)

theorem rowsDown_cons {size : Nat} {value : Fin 16 → UInt32} {index : Fin 16}
    {rest : List (Fin 16)} (once : index ∉ rest) (start : UInt32) :
    rowsDown size value (index :: rest) start =
      StoredByte.row (start - .ofNat size) (BigEndian.encode size (value index).toNat) ++
        rowsDown size value rest (start - .ofNat size) := by
  rw [rowsDown, List.flatMap_cons, List.idxOf_cons_self, Nat.zero_add, Nat.mul_one, rowsDown]
  refine congrArg _ (List.flatMap_congr fun other listed => ?_)
  have apart : index ≠ other := fun same => once (same ▸ listed)
  have below : start - .ofNat (size * (rest.idxOf other + 1 + 1)) =
      start - .ofNat size - .ofNat (size * (rest.idxOf other + 1)) := by
    rw [Nat.mul_succ, UInt32.ofNat_add]
    grind
  rw [List.idxOf_cons_ne rest apart, Nat.succ_eq_add_one, below]

/-- Registers that are stored one below the other are all read before any of them changes. -/
theorem stores_storeDown {size : Nat} {read : Fin 16 → Execution UInt32}
    {value : Fin 16 → UInt32} {listed : List (Fin 16)} (once : listed.Nodup) (start : UInt32)
    {core : Core}
    (reads : ∀ index memory, read index { core with memory } = .ok (value index) { core with memory }) :
    Stores core (rowsDown size value listed start) (start - .ofNat (size * listed.length))
      (storeDown size read listed start) := by
  induction listed generalizing start core with
  | nil =>
      rw [List.length_nil, Nat.mul_zero]
      exact (UInt32.sub_zero start).symm ▸ .pure core start
  | cons index rest ih =>
      obtain ⟨absent, once⟩ := List.nodup_cons.mp once
      have last : start - .ofNat (size * (rest.length + 1)) =
          start - .ofNat size - .ofNat (size * rest.length) := by
        rw [Nat.mul_succ, UInt32.ofNat_add]
        grind
      have first := stores_store core (start - .ofNat size) size (value index).toNat
      have later (memory : AddressSpace) : Stores { core with memory } _ _ _ :=
        ih once (start - .ofNat size) reads
      rw [rowsDown_cons absent, List.length_cons, last, storeDown]
      exact .of_read (reads index core.memory) (first.bind later)

/-! ## Lists of registers -/

theorem pairwise_indices (mask : UInt16) : (RegisterList.indices mask).Pairwise (· < ·) :=
  (List.pairwise_lt_finRange 16).filter _

theorem nodup_indices (mask : UInt16) : (RegisterList.indices mask).Nodup :=
  (List.nodup_finRange 16).filter _

theorem nodup_reverse_indices (mask : UInt16) : (RegisterList.indices mask).reverse.Nodup :=
  List.pairwise_reverse.mpr ((nodup_indices mask).imp Ne.symm)

/-! ## Actions that load -/

theorem load_cases (core : Core) (address : UInt32) (bytes : Nat) :
    (∃ value, core.memory.readNumber address bytes = .ok value ∧
      load address bytes core = .ok value core) ∨
    ∃ gap < bytes, core.memory.flat.FirstGap address gap ∧
      load address bytes core = .error (.memory (.unmapped (address + .ofNat gap))) core := by
  cases read : core.memory.readNumber address bytes with
  | ok value => exact .inl ⟨value, rfl, by rw [load, read]⟩
  | error error =>
      obtain ⟨gap, inside, first, rfl⟩ :=
        AddressSpace.firstGap_of_readBytes (AddressSpace.readNumber_eq_error_iff.mp read)
      exact .inr ⟨gap, inside, first, by rw [load, read]⟩

theorem load_of_row {core : Core} {address : UInt32} {bytes number : Nat}
    (held : core.memory.flat.row address bytes = (BigEndian.encode bytes number).map some) :
    load address bytes core = .ok (number % 256 ^ bytes) core := by
  rw [load, AddressSpace.readNumber_of_encoded held]

/-- The address from which a listed register is loaded, the first from the start address. -/
def slot (size : Nat) (listed : List (Fin 16)) (start : UInt32) (index : Fin 16) : UInt32 :=
  start + .ofNat (size * listed.idxOf index)

/-- Of a list of registers some have been loaded, each through its view from its own row of memory.
The others are as they were in the core before. -/
structure Loaded (size : Nat) (view : Fin 16 → Register) (listed done : List (Fin 16))
    (start : UInt32) (core : Core) (registers : RegisterFile) : Prop where
  loaded : ∀ index ∈ done, ∃ value,
    core.memory.readNumber (slot size listed start index) size = .ok value ∧
      registers.get index = (core.registers.write (view index) (.ofNat value)).get index
  kept : ∀ index ∉ done, registers.get index = core.registers.get index

theorem slot_cons_self (size : Nat) (index : Fin 16) (rest : List (Fin 16)) (start : UInt32) :
    slot size (index :: rest) start index = start := by
  rw [slot, List.idxOf_cons_self, Nat.mul_zero, FlatMemory.add_ofNat_zero]

theorem slot_cons_of_ne (size : Nat) {index other : Fin 16} (apart : index ≠ other)
    (rest : List (Fin 16)) (start : UInt32) :
    slot size (index :: rest) start other = slot size rest (start + .ofNat size) other := by
  rw [slot, List.idxOf_cons_ne rest apart, Nat.mul_succ, UInt32.ofNat_add, slot]
  grind

namespace Loaded

variable {size : Nat} {view : Fin 16 → Register} {rest done : List (Fin 16)} {index : Fin 16}
  {start : UInt32} {core : Core} {registers : RegisterFile}

theorem nil (size : Nat) (view : Fin 16 → Register) (listed : List (Fin 16)) (start : UInt32)
    (core : Core) : Loaded size view listed [] start core core.registers where
  loaded _ listed := absurd listed List.not_mem_nil
  kept _ _ := rfl

/-- One register is loaded before some of the others. -/
theorem cons (own : ∀ index, (view index).index = index) (absent : index ∉ rest)
    (within : ∀ other ∈ done, other ∈ rest) {value : Nat}
    (read : core.memory.readNumber start size = .ok value)
    (later : Loaded size view rest done (start + .ofNat size)
      { core with registers := core.registers.write (view index) (.ofNat value) } registers) :
    Loaded size view (index :: rest) (index :: done) start core registers where
  loaded other listed := by
    rcases List.mem_cons.mp listed with rfl | listed
    · refine ⟨value, by rwa [slot_cons_self], later.kept other fun both => absent (within _ both)⟩
    · have apart : index ≠ other := fun same => absent (same ▸ within _ listed)
      obtain ⟨held, found, written⟩ := later.loaded other listed
      rw [slot_cons_of_ne size apart]
      refine ⟨held, found, written.trans ?_⟩
      refine RegisterFile.get_write_congr (own other) ?_ _
      exact RegisterFile.get_write_of_ne _ ((own index).trans_ne apart) _
  kept other unlisted := by
    obtain ⟨apart, unlisted⟩ := List.ne_and_not_mem_of_not_mem_cons unlisted
    refine (later.kept other unlisted).trans ?_
    exact RegisterFile.get_write_of_ne _ ((own index).trans_ne (Ne.symm apart)) _

/-- Registers that were loaded through views have changed in these views only. -/
theorem agreesOutside {listed : List (Fin 16)}
    (loaded : Loaded size view listed done start core registers) :
    RegisterFile.AgreesOutside (done.map view) core.registers registers := by
  intro index place outside
  by_cases member : index ∈ done
  · obtain ⟨value, _, written⟩ := loaded.loaded index member
    rw [RegisterFile.bit, written]
    refine (core.registers.bit_write (view index) (.ofNat value) index place).trans (if_neg ?_)
    exact fun both => outside _ (List.mem_map_of_mem member) both.1
  · rw [RegisterFile.bit, loaded.kept index member, RegisterFile.bit]

end Loaded

/-- **Registers are loaded up to the first fault.** -/
theorem loadUp_run {size : Nat} {view : Fin 16 → Register} (own : ∀ index, (view index).index = index)
    {listed : List (Fin 16)} (once : listed.Nodup) (start : UInt32) (core : Core) :
    (∃ registers, Loaded size view listed listed start core registers ∧
      loadUp size (fun index => write (view index)) listed start core =
        .ok (start + .ofNat (size * listed.length)) { core with registers }) ∨
    ∃ done stopped later, listed = done ++ stopped :: later ∧
      ∃ gap < size, core.memory.flat.FirstGap (slot size listed start stopped) gap ∧
        ∃ registers, Loaded size view listed done start core registers ∧
          loadUp size (fun index => write (view index)) listed start core =
            .error (.memory (.unmapped (slot size listed start stopped + .ofNat gap)))
              { core with registers } := by
  induction listed generalizing start core with
  | nil =>
      refine .inl ⟨core.registers, .nil size view [] start core, ?_⟩
      rw [List.length_nil, Nat.mul_zero, FlatMemory.add_ofNat_zero]
      rfl
  | cons index rest ih =>
      obtain ⟨absent, once⟩ := List.nodup_cons.mp once
      rcases load_cases core start size with ⟨value, read, run⟩ | ⟨gap, inside, first, run⟩
      · have step : loadUp size (fun index => write (view index)) (index :: rest) start core =
            loadUp size (fun index => write (view index)) rest (start + .ofNat size)
              { core with registers := core.registers.write (view index) (.ofNat value) } := by
          rw [loadUp, run_bind_of_ok run]
          rfl
        rw [step]
        rcases ih once (start + .ofNat size) _ with
          ⟨registers, loaded, ran⟩ |
            ⟨done, stopped, later, rfl, gap, inside, first, registers, loaded, ran⟩
        · refine .inl ⟨registers, loaded.cons own absent (fun _ listed => listed) read,
            ran.trans ?_⟩
          rw [List.length_cons, Nat.mul_succ, UInt32.ofNat_add]
          grind
        · have apart : index ≠ stopped := by
            rintro rfl
            exact absent (List.mem_append_right done List.mem_cons_self)
          refine .inr ⟨index :: done, stopped, later, rfl, gap, inside, ?_⟩
          rw [slot_cons_of_ne size apart]
          refine ⟨first, registers, loaded.cons own absent ?_ read, ran⟩
          exact fun _ listed => List.mem_append_left _ listed
      · refine .inr ⟨[], index, rest, rfl, gap, inside, ?_⟩
        rw [slot_cons_self]
        exact ⟨first, core.registers, .nil size view _ start core,
          by rw [loadUp, run_bind_of_error run]⟩

/-! ## Pointers that follow a transfer -/

section Following

variable (mask : UInt16) (base : Register) (address : UInt32) (registers : RegisterFile)
  (pointer : UInt32) (memory : AddressSpace)

theorem moveStack_run :
    moveStack mask address ⟨registers, pointer, memory⟩ =
      .ok ()
        ⟨if RegisterList.lists mask stackIndex then registers else registers.set stackIndex address,
          pointer, memory⟩ := by
  rw [moveStack]
  split <;> rfl

theorem writeBack_run :
    writeBack mask base address ⟨registers, pointer, memory⟩ =
      .ok ()
        ⟨if RegisterList.flag mask && !RegisterList.lists mask base.index then
            registers.write base address
          else registers,
          pointer, memory⟩ := by
  rw [writeBack]
  split <;> rfl

end Following

/-! ## The stack -/

/-- The bytes of a dword below the top of the stack. -/
def belowTop (core : Core) (value : UInt32) : List StoredByte :=
  StoredByte.row (core.registers.get stackIndex - 4) (BigEndian.encode 4 value.toNat)

theorem pushDword_run (value : UInt32) (core : Core) :
    ∃ memory : AddressSpace, core.memory.Receives (core.belowTop value) memory ∧
      pushDword value core =
        match core.memory.flat.gap? (core.belowTop value) with
        | none =>
            .ok ()
              ⟨core.registers.set stackIndex (core.registers.get stackIndex - 4), core.pointer, memory⟩
        | some missing => .error (.memory (.unmapped missing)) { core with memory } := by
  have stores : Stores core (core.belowTop value) () _ :=
    stores_store core (core.registers.get stackIndex - 4) 4 value.toNat
  have whole : pushDword value core =
      (store (core.registers.get stackIndex - 4) 4 value.toNat >>= fun _ =>
        setRegister stackIndex (core.registers.get stackIndex - 4)) core := rfl
  rw [whole]
  cases gap : core.memory.flat.gap? (core.belowTop value) with
  | none =>
      obtain ⟨memory, receives, run⟩ := stores.of_ok gap
      exact ⟨memory, receives, run_bind_of_ok run⟩
  | some missing =>
      obtain ⟨memory, receives, run⟩ := stores.of_gap gap
      exact ⟨memory, receives, run_bind_of_error run⟩

theorem popDword_cases (core : Core) :
    let top := core.registers.get stackIndex
    (∃ value, core.memory.readNumber top 4 = .ok value ∧
      popDword core =
        .ok (.ofNat value) { core with registers := core.registers.set stackIndex (top + 4) }) ∨
    ∃ gap < 4, core.memory.flat.FirstGap top gap ∧
      popDword core = .error (.memory (.unmapped (top + .ofNat gap))) core := by
  intro top
  have whole : popDword core = (do
      let value ← load top 4
      setRegister stackIndex (top + 4)
      return UInt32.ofNat value) core := rfl
  rw [whole]
  rcases load_cases core top 4 with ⟨value, read, run⟩ | ⟨gap, inside, first, run⟩
  · exact .inl ⟨value, read, run_bind_of_ok run⟩
  · exact .inr ⟨gap, inside, first, run_bind_of_error run⟩

end Core
end WordMachine
