import WordMachine.Proofs.Regions

/-!
# Memory without its regions

Of a space of stores only one thing can be observed by reading and writing: which addresses are
mapped, and which byte each of these has (`AddressSpace.flat`). How the addresses are divided into
regions makes no difference.

A row of consecutive addresses may run through several regions and around the end of the address
space. It is read or written if it is covered altogether (`FlatMemory.Covers`), and otherwise the
fault is at the first address that is not mapped (`FlatMemory.FirstGap`). Writing lays the bytes
over those that were there (`FlatMemory.overlay`), as far as it gets.
-/

set_option autoImplicit false

namespace WordMachine

/-- Memory as a partial map from addresses to bytes. -/
abbrev FlatMemory := UInt32 → Option UInt8

namespace FlatMemory

variable {memory : FlatMemory} {address : UInt32} {count gap : Nat}

/-! ## Rows of addresses -/

/-- A row of consecutive addresses is mapped. -/
def Covers (memory : FlatMemory) (address : UInt32) (count : Nat) : Prop :=
  ∀ place < count, memory (address + .ofNat place) ≠ none

instance (memory : FlatMemory) (address : UInt32) (count : Nat) :
    Decidable (memory.Covers address count) :=
  inferInstanceAs (Decidable (∀ place < count, memory (address + .ofNat place) ≠ none))

/-- An address is the first of its row that is not mapped. -/
structure FirstGap (memory : FlatMemory) (address : UInt32) (gap : Nat) : Prop where
  missing : memory (address + .ofNat gap) = none
  before : memory.Covers address gap

section Unchanged

variable {after : FlatMemory}

theorem Covers.congr (same : ∀ other, after other = none ↔ memory other = none) :
    after.Covers address count ↔ memory.Covers address count :=
  forall_congr' fun _ => imp_congr_right fun _ => not_congr (same _)

theorem FirstGap.congr (same : ∀ other, after other = none ↔ memory other = none) :
    after.FirstGap address gap ↔ memory.FirstGap address gap where
  mp first := ⟨(same _).mp first.missing, (Covers.congr same).mp first.before⟩
  mpr first := ⟨(same _).mpr first.missing, (Covers.congr same).mpr first.before⟩

end Unchanged

/-- The bytes of a row. -/
def row (memory : FlatMemory) (address : UInt32) (count : Nat) : List (Option UInt8) :=
  (List.range count).map fun place => memory (address + .ofNat place)

theorem add_ofNat_succ (address : UInt32) (place : Nat) :
    address + .ofNat (place + 1) = address + 1 + .ofNat place := by
  rw [UInt32.ofNat_add, UInt32.add_comm (.ofNat place), UInt32.add_assoc]
  rfl

theorem add_ofNat_zero (address : UInt32) : address + .ofNat 0 = address :=
  UInt32.add_zero address

theorem covers_succ :
    memory.Covers address (count + 1) ↔
      memory address ≠ none ∧ memory.Covers (address + 1) count := by
  constructor
  · intro covers
    refine ⟨?_, fun place inside => ?_⟩
    · have first := covers 0 (Nat.succ_pos count)
      rwa [add_ofNat_zero] at first
    · rw [← add_ofNat_succ]
      exact covers (place + 1) (Nat.succ_lt_succ inside)
  · rintro ⟨first, later⟩ place inside
    cases place with
    | zero => rwa [add_ofNat_zero]
    | succ place =>
        rw [add_ofNat_succ]
        exact later place (Nat.lt_of_succ_lt_succ inside)

theorem covers_append (more : Nat) :
    memory.Covers address (count + more) ↔
      memory.Covers address count ∧ memory.Covers (address + .ofNat count) more := by
  have later (place : Nat) :
      address + .ofNat count + .ofNat place = address + .ofNat (count + place) := by
    rw [UInt32.ofNat_add, UInt32.add_assoc]
  constructor
  · intro covers
    refine ⟨fun place inside => covers place (by omega), fun place inside => ?_⟩
    rw [later]
    exact covers (count + place) (by omega)
  · rintro ⟨front, back⟩ place inside
    by_cases first : place < count
    · exact front place first
    · have there := back (place - count) (by omega)
      rwa [later, Nat.add_sub_cancel' (Nat.le_of_not_lt first)] at there

theorem row_succ :
    memory.row address (count + 1) = memory address :: memory.row (address + 1) count := by
  rw [row, List.range_succ_eq_map, List.map_cons, List.map_map, add_ofNat_zero, row]
  refine congrArg _ (List.map_congr_left fun place _ => ?_)
  rw [Function.comp_apply, add_ofNat_succ]

theorem row_append (more : Nat) :
    memory.row address (count + more) =
      memory.row address count ++ memory.row (address + .ofNat count) more := by
  rw [row, List.range_add, List.map_append, List.map_map, row, row]
  refine congrArg _ (List.map_congr_left fun place _ => ?_)
  rw [Function.comp_apply, UInt32.ofNat_add, UInt32.add_assoc]

/-- A part of what stands in a row stands there at its place. -/
theorem row_of_infix {before part after : List UInt8}
    (placed : memory.row address (before ++ part ++ after).length =
      (before ++ part ++ after).map some) :
    memory.row (address + .ofNat before.length) part.length = part.map some := by
  rw [List.length_append, List.length_append, row_append, row_append, List.map_append,
    List.map_append] at placed
  obtain ⟨front, -⟩ := List.append_inj placed (by simp [row])
  obtain ⟨-, own⟩ := List.append_inj front (by simp [row])
  exact own

theorem row_congr {after : FlatMemory}
    (same : ∀ place < count, after (address + .ofNat place) = memory (address + .ofNat place)) :
    after.row address count = memory.row address count :=
  List.map_congr_left fun place inside => same place (List.mem_range.mp inside)

theorem covers_of_row {bytes : List UInt8} (same : bytes.map some = memory.row address count) :
    memory.Covers address count := by
  intro place inside missing
  have there : memory (address + .ofNat place) ∈ memory.row address count :=
    List.mem_map_of_mem (List.mem_range.mpr inside)
  rw [← same, missing] at there
  simp at there

theorem FirstGap.zero (missing : memory address = none) : memory.FirstGap address 0 where
  missing := by rwa [add_ofNat_zero]
  before := fun _ inside => absurd inside (Nat.not_lt_zero _)

theorem FirstGap.succ (present : memory address ≠ none)
    (later : memory.FirstGap (address + 1) gap) : memory.FirstGap address (gap + 1) where
  missing := by
    rw [add_ofNat_succ]
    exact later.missing
  before := covers_succ.mpr ⟨present, later.before⟩

theorem FirstGap.not_covers (first : memory.FirstGap address gap) (inside : gap < count) :
    ¬ memory.Covers address count :=
  fun covers => covers gap inside first.missing

/-! ## Laying bytes over a memory -/

/-- The memory with a row of bytes in place of those that it had there. -/
def overlay (memory : FlatMemory) (address : UInt32) (bytes : List UInt8) : FlatMemory :=
  fun other => (bytes[(other - address).toNat]?).or (memory other)

theorem toNat_sub_eq_zero {other address : UInt32} :
    (other - address).toNat = 0 ↔ other = address := by
  rw [← UInt32.toNat_inj, UInt32.toNat_sub]
  have := other.toNat_lt
  have := address.toNat_lt
  omega

/-- From the next address on it is one place less to any address but the first one, which is
furthest away. -/
theorem toNat_sub_succ (other address : UInt32) :
    (other - (address + 1)).toNat =
      if other = address then AddressSpace.addressCount - 1 else (other - address).toNat - 1 := by
  have := other.toNat_lt
  have := address.toNat_lt
  simp only [← UInt32.toNat_inj, UInt32.toNat_sub, UInt32.toNat_add, UInt32.toNat_one,
    AddressSpace.addressCount]
  split <;> omega

theorem overlay_nil : memory.overlay address [] = memory := by
  funext other
  rw [overlay, List.getElem?_nil, Option.none_or]

theorem overlay_one (byte : UInt8) (other : UInt32) :
    memory.overlay address [byte] other = if other = address then some byte else memory other := by
  rw [overlay, List.getElem?_singleton]
  simp only [toNat_sub_eq_zero]
  split <;> rfl

/-- A row that is mapped stays so. -/
theorem overlay_one_eq_none (present : memory address ≠ none) (byte : UInt8) (other : UInt32) :
    memory.overlay address [byte] other = none ↔ memory other = none := by
  rw [overlay_one]
  split
  · rename_i same
    rw [same]
    exact iff_of_false (Option.some_ne_none byte) present
  · rfl

theorem overlay_cons (byte : UInt8) {rest : List UInt8}
    (short : rest.length < AddressSpace.addressCount) :
    memory.overlay address (byte :: rest) =
      FlatMemory.overlay (memory.overlay address [byte]) (address + 1) rest := by
  funext other
  rw [overlay, overlay, overlay_one, toNat_sub_succ]
  by_cases same : other = address
  · have first : (other - address).toNat = 0 := toNat_sub_eq_zero.mpr same
    rw [if_pos same, if_pos same, first, List.getElem?_cons_zero,
      List.getElem?_eq_none (Nat.le_sub_one_of_lt short)]
    rfl
  · have later : (other - address).toNat - 1 + 1 = (other - address).toNat :=
      Nat.sub_add_cancel (Nat.pos_of_ne_zero (mt toNat_sub_eq_zero.mp same))
    rw [if_neg same, if_neg same, ← later, List.getElem?_cons_succ, Nat.add_sub_cancel]

/-- A row of bytes leaves alone the addresses that are far enough from its first one. -/
theorem overlay_of_le {bytes : List UInt8} {other : UInt32}
    (far : bytes.length ≤ (other - address).toNat) : memory.overlay address bytes other = memory other := by
  rw [overlay, List.getElem?_eq_none far, Option.none_or]

/-- Two rows one after the other are one row. -/
theorem overlay_append {first second : List UInt8} :
    FlatMemory.overlay (memory.overlay (address + .ofNat first.length) second) address first =
      memory.overlay address (first ++ second) := by
  funext other
  rw [overlay, overlay, overlay, List.getElem?_append]
  split
  · rename_i inside
    rw [List.getElem?_eq_getElem inside, Option.some_or, Option.some_or]
  · rename_i outside
    have later : (other - (address + .ofNat first.length)).toNat =
        (other - address).toNat - first.length := by
      have := (other - address).toNat_lt
      have wide : first.length < 2 ^ 32 := by omega
      have back : other - (address + .ofNat first.length) = other - address - .ofNat first.length := by
        grind
      rw [back, UInt32.toNat_sub, UInt32.toNat_ofNat_of_lt' wide]
      omega
    rw [List.getElem?_eq_none (Nat.le_of_not_lt outside), Option.none_or, later]

/-- No byte of a row is laid over another one if the row goes around at most once. -/
theorem row_overlay {bytes : List UInt8} (short : bytes.length ≤ AddressSpace.addressCount) :
    (memory.overlay address bytes).row address bytes.length = bytes.map some := by
  refine List.ext_getElem (by simp [row]) fun place inside inside' => ?_
  rw [List.length_map] at inside'
  have back : (address + .ofNat place - address).toNat = place := by
    have wide : place < 2 ^ 32 := Nat.lt_of_lt_of_le inside' short
    rw [UInt32.add_comm, UInt32.add_sub_cancel, UInt32.toNat_ofNat_of_lt' wide]
  simp only [row, overlay, List.getElem_map, List.getElem_range, back,
    List.getElem?_eq_getElem inside', Option.some_or]

end FlatMemory

/-! ## The bytes of an address space -/

theorem Region.byteAt_setByte (region : Region) (place : Nat) (byte : UInt8) (other : Nat) :
    (region.setByte place byte).byteAt other =
      if other = place then byte else region.byteAt other :=
  Store.byteAt_setByte region.handler place byte other

namespace AddressSpace

section Handlers

variable {η : Type} [Handler η] {space : AddressSpace η} {address : UInt32}

/-- Which addresses are mapped, and to which bytes. -/
def flat (space : AddressSpace η) : FlatMemory :=
  fun address => (space.read address).toOption

theorem read_of_flat {byte : UInt8} (present : space.flat address = some byte) :
    space.read address = .ok byte := by
  rw [flat] at present
  cases step : space.read address with
  | ok other =>
      rw [step] at present
      exact congrArg _ (Option.some.inj present)
  | error error =>
      rw [step] at present
      cases present

theorem read_of_flat_eq_none (missing : space.flat address = none) :
    space.read address = .error (.unmapped address) := by
  rw [flat, read] at missing
  rw [read]
  cases located : space.locate? address with
  | none => rfl
  | some region =>
      rw [located] at missing
      cases missing

theorem isSome_flat (space : AddressSpace η) (address : UInt32) :
    (space.flat address).isSome = space.isMapped address := by
  rw [flat, read, isMapped]
  cases space.locate? address <;> rfl

/-- **A row is read up to the first gap.** -/
theorem readBytes_spec (space : AddressSpace η) (address : UInt32) (count : Nat) :
    match space.readBytes address count with
    | .ok bytes => bytes.map some = space.flat.row address count
    | .error error =>
        ∃ gap < count, space.flat.FirstGap address gap ∧
          error = .unmapped (address + .ofNat gap) := by
  induction count generalizing address with
  | zero => rfl
  | succ count ih =>
      have later := ih (address + 1)
      rw [readBytes]
      cases here : space.flat address with
      | none =>
          rw [read_of_flat_eq_none here]
          exact ⟨0, Nat.succ_pos count, .zero here, by rw [FlatMemory.add_ofNat_zero]⟩
      | some byte =>
          rw [read_of_flat here]
          cases outcome : space.readBytes (address + 1) count with
          | ok rest =>
              rw [outcome] at later
              show (byte :: rest).map some = _
              rw [FlatMemory.row_succ, List.map_cons, here, later]
          | error error =>
              rw [outcome] at later
              obtain ⟨gap, inside, first, rfl⟩ := later
              have present : space.flat address ≠ none := by simp [here]
              exact ⟨gap + 1, Nat.succ_lt_succ inside, first.succ present,
                by rw [FlatMemory.add_ofNat_succ]⟩

theorem row_of_readBytes {count : Nat} {bytes : List UInt8}
    (done : space.readBytes address count = .ok bytes) :
    bytes.map some = space.flat.row address count := by
  have spec := space.readBytes_spec address count
  rwa [done] at spec

theorem firstGap_of_readBytes {count : Nat} {error : MemoryError}
    (failed : space.readBytes address count = .error error) :
    ∃ gap < count, space.flat.FirstGap address gap ∧ error = .unmapped (address + .ofNat gap) := by
  have spec := space.readBytes_spec address count
  rwa [failed] at spec

theorem readBytes_ok_iff {count : Nat} :
    (∃ bytes, space.readBytes address count = .ok bytes) ↔ space.flat.Covers address count := by
  constructor
  · rintro ⟨bytes, done⟩
    exact FlatMemory.covers_of_row (row_of_readBytes done)
  · intro covers
    cases outcome : space.readBytes address count with
    | ok bytes => exact ⟨bytes, rfl⟩
    | error error =>
        obtain ⟨gap, inside, first, _⟩ := firstGap_of_readBytes outcome
        exact absurd covers (first.not_covers inside)

theorem length_of_readBytes {count : Nat} {bytes : List UInt8}
    (done : space.readBytes address count = .ok bytes) : bytes.length = count := by
  simpa [FlatMemory.row] using congrArg List.length (row_of_readBytes done)

theorem readBytes_of_row {bytes : List UInt8}
    (same : space.flat.row address bytes.length = bytes.map some) :
    space.readBytes address bytes.length = .ok bytes := by
  obtain ⟨found, done⟩ := readBytes_ok_iff.mpr (FlatMemory.covers_of_row same.symm)
  have held := (row_of_readBytes done).trans same
  rw [done, (List.map_inj_right fun _ _ => Option.some.inj).mp held]

/-- A number is read if its bytes are, the most significant first. -/
theorem readNumber_eq_ok_iff {count number : Nat} :
    space.readNumber address count = .ok number ↔
      number < 256 ^ count ∧
        space.readBytes address count = .ok (BigEndian.encode count number) := by
  rw [readNumber]
  cases done : space.readBytes address count with
  | error error => simp [Functor.map, Except.map]
  | ok bytes =>
      have length := length_of_readBytes done
      constructor
      · intro same
        cases same
        rw [← length, BigEndian.encode_value]
        exact ⟨BigEndian.value_lt bytes, rfl⟩
      · rintro ⟨fits, same⟩
        rw [Except.ok.injEq] at same
        rw [same]
        exact congrArg Except.ok ((BigEndian.value_encode count number).trans
          (Nat.mod_eq_of_lt fits))

/-- Where the last bytes of a number lie, this part of it is read. -/
theorem readNumber_of_encoded {count number : Nat}
    (held : space.flat.row address count = (BigEndian.encode count number).map some) :
    space.readNumber address count = .ok (number % 256 ^ count) := by
  have same : BigEndian.encode count (number % 256 ^ count) = BigEndian.encode count number :=
    BigEndian.encode_eq_of_mod (Nat.mod_mod _ _)
  have length := BigEndian.length_encode count number
  have bytes : space.readBytes address (BigEndian.encode count number).length = _ :=
    readBytes_of_row (by rwa [length])
  rw [length] at bytes
  exact readNumber_eq_ok_iff.mpr ⟨Nat.mod_lt _ (Nat.pow_pos (by decide)), same.symm ▸ bytes⟩

theorem readNumber_eq_error_iff {count : Nat} {error : MemoryError} :
    space.readNumber address count = .error error ↔
      space.readBytes address count = .error error := by
  rw [readNumber]
  cases space.readBytes address count <;> simp [Functor.map, Except.map]

end Handlers

/-! ## Storing bytes -/

section Stores

variable {η : Type} [Handler η]

/-- What leaves the mapped addresses as they are. -/
def KeepsMapped (before after : AddressSpace η) : Prop :=
  ∀ address, after.isMapped address = before.isMapped address

theorem KeepsMapped.chains : Chains (KeepsMapped (η := η)) where
  refl _ _ := rfl
  trans first second address := (second address).trans (first address)

theorem KeepsMapped.of_updateAt (space : AddressSpace η) (base : UInt32)
    {change : Region η → Region η} (keeps : Keeps change) :
    KeepsMapped space (space.updateAt base change) := by
  intro address
  rw [isMapped, isMapped, locate?_updateAt space base address keeps, Option.isSome_map]

end Stores

section Bytes

variable {space : AddressSpace} {address : UInt32} {region : Region}

/-- **A byte that is stored changes this byte only.** -/
theorem flat_updateAt (located : space.locate? address = some region) (byte : UInt8) :
    (space.updateAt region.base fun other => other.setByte (other.offset address) byte).flat =
      space.flat.overlay address [byte] := by
  funext other
  rw [FlatMemory.overlay_one, flat, flat, read, read,
    locate?_updateAt space region.base other (keeps_setByte _ byte)]
  cases found : space.locate? other with
  | none =>
      have away : other ≠ address := by
        rintro rfl
        rw [located] at found
        cases found
      rw [if_neg away]
      rfl
  | some holder =>
      rw [Option.map_some]
      by_cases same : holder.base = region.base
      · obtain rfl := eq_of_locate? located found same
        have here := Region.contains_iff.mp (contains_of_locate? located)
        have there := Region.contains_iff.mp (contains_of_locate? found)
        have place : holder.offset other = holder.offset address ↔ other = address := by
          rw [← UInt32.toNat_inj, Region.offset, Region.offset]
          omega
        have stored : (holder.setByte (holder.offset address) byte).byteAt (holder.offset other) =
            if other = address then byte else holder.byteAt (holder.offset other) := by
          rw [Region.byteAt_setByte]
          simp only [place]
        rw [if_pos rfl]
        refine (congrArg some stored).trans ?_
        split <;> rfl
      · have away : other ≠ address := by
          rintro rfl
          rw [located] at found
          exact same (congrArg Region.base (Option.some.inj found).symm)
        rw [if_neg same, if_neg away]

theorem write_cases (space : AddressSpace) (address : UInt32) (byte : UInt8) :
    (∃ after, write address byte space = .ok () after ∧
      after.flat = space.flat.overlay address [byte] ∧ space.flat address ≠ none) ∨
    (write address byte space = .error (.unmapped address) space ∧ space.flat address = none) := by
  cases located : space.locate? address with
  | none =>
      refine .inr ⟨write_of_unmapped located byte, ?_⟩
      rw [flat, read, located]
      rfl
  | some region =>
      refine .inl ⟨_, write_of_locate? located byte, flat_updateAt located byte, ?_⟩
      rw [flat, read, located]
      exact Option.some_ne_none _

/-- **A row is written up to the first gap.** -/
theorem writeBytes_spec (bytes : List UInt8) (address : UInt32) (space : AddressSpace)
    (short : bytes.length ≤ addressCount) :
    match writeBytes address bytes space with
    | .ok () after =>
        after.flat = space.flat.overlay address bytes ∧ space.flat.Covers address bytes.length
    | .error error after =>
        ∃ gap < bytes.length, space.flat.FirstGap address gap ∧
          error = .unmapped (address + .ofNat gap) ∧
          after.flat = space.flat.overlay address (bytes.take gap) := by
  induction bytes generalizing address space with
  | nil => exact ⟨FlatMemory.overlay_nil.symm, fun _ inside => absurd inside (Nat.not_lt_zero _)⟩
  | cons byte rest ih =>
      rcases write_cases space address byte with ⟨between, stored, laid, present⟩ | ⟨failed, gap⟩
      · have later := ih (address + 1) between (Nat.le_of_succ_le short)
        have same : ∀ other, between.flat other = none ↔ space.flat other = none := by
          rw [laid]
          exact FlatMemory.overlay_one_eq_none present byte
        rw [writeBytes, run_bind_of_ok stored]
        cases outcome : writeBytes (address + 1) rest between with
        | ok _ after =>
            rw [outcome] at later
            obtain ⟨whole, covers⟩ := later
            rw [FlatMemory.Covers.congr same] at covers
            refine ⟨?_, FlatMemory.covers_succ.mpr ⟨present, covers⟩⟩
            rw [whole, laid, ← FlatMemory.overlay_cons byte short]
        | error error after =>
            rw [outcome] at later
            obtain ⟨gap, inside, first, rfl, part⟩ := later
            rw [FlatMemory.FirstGap.congr same] at first
            have bound : (rest.take gap).length < addressCount :=
              Nat.lt_of_le_of_lt (List.length_take_le' gap rest) short
            refine ⟨gap + 1, Nat.succ_lt_succ inside, first.succ present, ?_, ?_⟩
            · rw [FlatMemory.add_ofNat_succ]
            · rw [part, laid, ← FlatMemory.overlay_cons byte bound, List.take_succ_cons]
      · rw [writeBytes, run_bind_of_error failed]
        refine ⟨0, Nat.succ_pos _, .zero gap, ?_, ?_⟩
        · rw [FlatMemory.add_ofNat_zero]
        · rw [List.take_zero, FlatMemory.overlay_nil]

section Rows

variable {bytes : List UInt8} (short : bytes.length ≤ addressCount)
include short

theorem flat_of_writeBytes {after : AddressSpace}
    (done : writeBytes address bytes space = .ok () after) :
    after.flat = space.flat.overlay address bytes ∧ space.flat.Covers address bytes.length := by
  have spec := writeBytes_spec bytes address space short
  rwa [done] at spec

theorem firstGap_of_writeBytes {error : MemoryError} {after : AddressSpace}
    (failed : writeBytes address bytes space = .error error after) :
    ∃ gap < bytes.length, space.flat.FirstGap address gap ∧
      error = .unmapped (address + .ofNat gap) ∧
      after.flat = space.flat.overlay address (bytes.take gap) := by
  have spec := writeBytes_spec bytes address space short
  rwa [failed] at spec

theorem writeBytes_ok_iff :
    (∃ after, writeBytes address bytes space = .ok () after) ↔
      space.flat.Covers address bytes.length := by
  constructor
  · rintro ⟨after, done⟩
    exact (flat_of_writeBytes short done).2
  · intro covers
    cases outcome : writeBytes address bytes space with
    | ok _ after => exact ⟨after, rfl⟩
    | error error after =>
        obtain ⟨gap, inside, first, _⟩ := firstGap_of_writeBytes short outcome
        exact absurd covers (first.not_covers inside)

/-- Bytes that were written are read back, also from a row that goes through several regions or
around the end of the address space. -/
theorem readBytes_of_writeBytes {after : AddressSpace}
    (done : writeBytes address bytes space = .ok () after) :
    after.readBytes address bytes.length = .ok bytes := by
  refine readBytes_of_row ?_
  rw [(flat_of_writeBytes short done).1, FlatMemory.row_overlay short]

end Rows

theorem readNumber_of_writeNumber {count number : Nat} {after : AddressSpace}
    (short : count ≤ addressCount) (fits : number < 256 ^ count)
    (done : writeNumber address count number space = .ok () after) :
    after.readNumber address count = .ok number := by
  have length := BigEndian.length_encode count number
  have back := readBytes_of_writeBytes (length.symm ▸ short) done
  rw [length] at back
  exact readNumber_eq_ok_iff.mpr ⟨fits, back⟩

end Bytes

/-- **A space of stores is a partial map from addresses to bytes.** Whatever its regions are, a row
of addresses is read exactly if it is covered, and gives its bytes; otherwise the fault is at its
first gap. It is written under the same condition, and then the bytes are laid over those that were
there; otherwise the fault is at the same gap, and the bytes before it are stored. Writing maps and
unmaps nothing. Numbers are read and written as rows of bytes, the most significant first, and a
number that was written is read back. -/
theorem accesses_of_flat (space : AddressSpace) (address : UInt32) :
    (∀ other, (space.flat other).isSome = space.isMapped other) ∧
    (∀ count,
      ((∃ bytes, space.readBytes address count = .ok bytes) ↔ space.flat.Covers address count) ∧
      (∀ {bytes}, space.readBytes address count = .ok bytes →
        bytes.map some = space.flat.row address count) ∧
      (∀ {error}, space.readBytes address count = .error error →
        ∃ gap < count, space.flat.FirstGap address gap ∧
          error = .unmapped (address + .ofNat gap))) ∧
    (∀ bytes, bytes.length ≤ addressCount →
      ((∃ after, writeBytes address bytes space = .ok () after) ↔
        space.flat.Covers address bytes.length) ∧
      (∀ {after}, writeBytes address bytes space = .ok () after →
        after.flat = space.flat.overlay address bytes) ∧
      (∀ {error after}, writeBytes address bytes space = .error error after →
        ∃ gap < bytes.length, space.flat.FirstGap address gap ∧
          error = .unmapped (address + .ofNat gap) ∧
          after.flat = space.flat.overlay address (bytes.take gap))) ∧
    (∀ bytes other,
      (finalState (writeBytes address bytes space)).isMapped other = space.isMapped other) ∧
    (∀ count number,
      (space.readNumber address count = .ok number ↔
        number < 256 ^ count ∧
          space.readBytes address count = .ok (BigEndian.encode count number)) ∧
      (∀ {error}, space.readNumber address count = .error error ↔
        space.readBytes address count = .error error) ∧
      writeNumber address count number space =
        writeBytes address (BigEndian.encode count number) space ∧
      (∀ {after}, count ≤ addressCount → number < 256 ^ count →
        writeNumber address count number space = .ok () after →
        after.readNumber address count = .ok number)) := by
  refine ⟨isSome_flat space,
    fun count => ⟨readBytes_ok_iff, row_of_readBytes, firstGap_of_readBytes⟩,
    fun bytes short => ⟨writeBytes_ok_iff short, fun done => (flat_of_writeBytes short done).1,
      firstGap_of_writeBytes short⟩,
    fun bytes => ?_,
    fun count number => ⟨readNumber_eq_ok_iff, readNumber_eq_error_iff, rfl,
      readNumber_of_writeNumber⟩⟩
  exact (ends_writeBytes KeepsMapped.chains KeepsMapped.of_updateAt bytes address space).leads

/-- Two bytes at the end of the address space and three at its beginning. -/
def aroundTheEnd : AddressSpace :=
  afterCalls [.map (.ofContents 0xFFFFFFFE 2 #[]), .map (.ofContents 0 3 #[])]

/-- A number goes around the end, and a row that is too long is written as far as it is mapped. -/
theorem accesses_of_flat_aroundTheEnd :
    (∃ after, writeNumber 0xFFFFFFFE 4 0xDEADBEEF aroundTheEnd = .ok () after ∧
      after.readNumber 0xFFFFFFFE 4 = .ok 0xDEADBEEF) ∧
    ∃ after, writeBytes 0xFFFFFFFE [1, 2, 3, 4, 5, 6] aroundTheEnd = .error (.unmapped 3) after ∧
      after.flat = aroundTheEnd.flat.overlay 0xFFFFFFFE [1, 2, 3, 4, 5] := by
  obtain ⟨-, -, rows, -, numbers⟩ := accesses_of_flat aroundTheEnd 0xFFFFFFFE
  have covers : aroundTheEnd.flat.Covers 0xFFFFFFFE 5 := by decide
  constructor
  · obtain ⟨after, done⟩ := (rows (BigEndian.encode 4 0xDEADBEEF) (by decide)).1.mpr (by decide)
    exact ⟨after, done, (numbers 4 0xDEADBEEF).2.2.2 (by decide) (by decide) done⟩
  · obtain ⟨complete, -, stops⟩ := rows [1, 2, 3, 4, 5, 6] (by decide)
    cases run : writeBytes 0xFFFFFFFE [1, 2, 3, 4, 5, 6] aroundTheEnd with
    | ok _ after => exact absurd (complete.mp ⟨after, run⟩) (by decide)
    | error error after =>
        obtain ⟨gap, inside, first, rfl, part⟩ := stops run
        have last : gap = 5 :=
          Nat.le_antisymm (Nat.le_of_lt_succ inside)
            (Nat.le_of_not_lt fun early => first.not_covers early covers)
        subst last
        exact ⟨after, rfl, part⟩

end AddressSpace
end WordMachine
