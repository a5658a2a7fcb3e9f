import WordMachine.AddressSpace
import WordMachine.Proofs.Actions

/-!
# Regions share no address

A new region is compared with one other region only, the highest that starts below its end, and an
address is looked up in one region only, the highest that does not start above it. Both are enough
because the regions stand in descending order and none reaches into the one above it
(`AddressSpace.WellFormed`): of the regions that start below a limit only the highest can reach
beyond it (`AddressSpace.eq_or_finish_le_of_find?`).

Mapping keeps this order and so does writing, whatever handlers the regions have. The main
statement, `AddressSpace.regions_afterCalls`, is about the space that any sequence of calls leads
to: its regions are in bounds and share no address, a region is refused exactly if it has to be, and
an address is found exactly if some region has it.
-/

set_option autoImplicit false

namespace WordMachine

variable {η : Type} [Handler η]

/-! ## Single regions -/

namespace Region

/-- Two regions have an address in common. -/
def Meets (first second : Region η) : Prop :=
  ∃ address, first.Contains address ∧ second.Contains address

theorem contains_iff {region : Region η} {address : UInt32} :
    region.Contains address ↔
      region.base.toNat ≤ address.toNat ∧ address.toNat < region.finish := by
  rw [Contains, UInt32.le_iff_toNat_le]

theorem contains_base {region : Region η} (nonempty : 0 < region.capacity) :
    region.Contains region.base := by
  rw [contains_iff, finish]
  omega

/-- Of two regions that meet, neither starts past the end of the other. -/
theorem meets_iff {first second : Region η} (here : 0 < first.capacity)
    (there : 0 < second.capacity) :
    first.Meets second ↔
      first.base.toNat < second.finish ∧ second.base.toNat < first.finish := by
  constructor
  · rintro ⟨address, inFirst, inSecond⟩
    rw [contains_iff] at inFirst inSecond
    omega
  · rintro ⟨low, high⟩
    rcases Nat.le_total first.base.toNat second.base.toNat with below | above
    · exact ⟨second.base, contains_iff.mpr ⟨below, high⟩, contains_base there⟩
    · exact ⟨first.base, contains_base here, contains_iff.mpr ⟨above, low⟩⟩

theorem offset_lt_capacity {region : Region η} {address : UInt32}
    (inside : region.Contains address) : region.offset address < region.capacity := by
  rw [contains_iff, finish] at inside
  rw [offset]
  omega

end Region

/-! ## Regions in order -/

namespace AddressSpace

/-- The regions stand in descending order, none reaches into the one above it, and none is empty or
reaches past the last address. -/
structure WellFormed (space : AddressSpace η) : Prop where
  nonempty : ∀ region ∈ space.regions, 0 < region.capacity
  inside : ∀ region ∈ space.regions, region.finish ≤ addressCount
  descending : space.regions.Pairwise fun higher lower => lower.finish ≤ higher.base.toNat

/-- **Of the regions that start below a limit, all but the highest end below it.** -/
theorem eq_or_finish_le_of_find? {regions : List (Region η)} {limit : Nat} {highest : Region η}
    (descending : regions.Pairwise fun higher lower => lower.finish ≤ higher.base.toNat)
    (found : regions.find? (fun region => decide (region.base.toNat < limit)) = some highest)
    {region : Region η} (mapped : region ∈ regions) (below : region.base.toNat < limit) :
    region = highest ∨ region.finish ≤ highest.base.toNat := by
  obtain ⟨-, before, after, rfl, skipped⟩ := List.find?_eq_some_iff_append.mp found
  rcases List.mem_append.mp mapped with early | late
  · have above := skipped region early
    simp only [Bool.not_eq_true', decide_eq_false_iff_not] at above
    exact absurd below above
  · rcases List.mem_cons.mp late with rfl | later
    · exact .inl rfl
    · have behind := (List.pairwise_append.mp descending).2.1
      exact .inr ((List.pairwise_cons.mp behind).1 region later)

namespace WellFormed

variable {space : AddressSpace η}

/-- **An address is found exactly if some region has it, and then that region is found.** -/
theorem locate?_eq_some_iff (sound : space.WellFormed) {address : UInt32} {region : Region η} :
    space.locate? address = some region ↔ region ∈ space.regions ∧ region.Contains address := by
  have sameTest : (fun region : Region η => decide (region.base ≤ address)) =
      fun region => decide (region.base.toNat < address.toNat + 1) := by
    funext region
    exact decide_eq_decide.mpr (by rw [UInt32.le_iff_toNat_le, Nat.lt_succ_iff])
  rw [locate?, sameTest, Option.filter_eq_some_iff]
  constructor
  · rintro ⟨found, contains⟩
    exact ⟨List.mem_of_find?_eq_some found, of_decide_eq_true contains⟩
  · rintro ⟨mapped, contains⟩
    refine ⟨?_, decide_eq_true contains⟩
    obtain ⟨low, high⟩ := Region.contains_iff.mp contains
    cases found : space.regions.find?
        (fun region => decide (region.base.toNat < address.toNat + 1)) with
    | none =>
        have missed := List.find?_eq_none.mp found region mapped
        simp only [decide_eq_true_eq] at missed
        omega
    | some highest =>
        have below := List.find?_some found
        simp only [decide_eq_true_eq] at below
        rcases eq_or_finish_le_of_find? sound.descending found mapped (by omega) with rfl | ends
        · rfl
        · omega

/-- A region has its base for itself. -/
theorem eq_of_base_eq (sound : space.WellFormed) {first second : Region η}
    (mapped : first ∈ space.regions) (other : second ∈ space.regions)
    (same : first.base = second.base) : first = second := by
  have located := sound.locate?_eq_some_iff.mpr
    ⟨mapped, Region.contains_base (sound.nonempty first mapped)⟩
  rw [same] at located
  have again := sound.locate?_eq_some_iff.mpr
    ⟨other, Region.contains_base (sound.nonempty second other)⟩
  exact Option.some.inj (located.symm.trans again)

theorem pairwise_not_meets (sound : space.WellFormed) :
    space.regions.Pairwise fun first second => ¬ first.Meets second := by
  refine sound.descending.imp ?_
  rintro higher lower ends ⟨address, inHigher, inLower⟩
  rw [Region.contains_iff] at inHigher inLower
  omega

/-- **The one region that is compared with a new one is the right one.** -/
theorem overlapping?_eq_none_iff (sound : space.WellFormed) {added : Region η}
    (nonempty : 0 < added.capacity) :
    space.overlapping? added = none ↔ ∀ region ∈ space.regions, ¬ region.Meets added := by
  constructor
  · intro clear region mapped meets
    obtain ⟨below, above⟩ := (Region.meets_iff (sound.nonempty region mapped) nonempty).mp meets
    cases found : space.regions.find?
        (fun region => decide (region.base.toNat < added.finish)) with
    | none =>
        have missed := List.find?_eq_none.mp found region mapped
        simp only [decide_eq_true_eq] at missed
        omega
    | some highest =>
        rw [overlapping?, found] at clear
        have short := Option.filter_eq_none_iff.mp clear highest rfl
        simp only [decide_eq_true_eq] at short
        have ends : highest.base.toNat ≤ highest.finish := Nat.le_add_right _ _
        rcases eq_or_finish_le_of_find? sound.descending found mapped below with rfl | before <;>
          omega
  · intro clear
    rw [overlapping?, Option.filter_eq_none_iff]
    intro highest found reaches
    have mapped := List.mem_of_find?_eq_some found
    have below := List.find?_some found
    simp only [decide_eq_true_eq] at below reaches
    exact clear highest mapped
      ((Region.meets_iff (sound.nonempty highest mapped) nonempty).mpr ⟨below, reaches⟩)

end WellFormed

/-! ## Mapping -/

omit [Handler η] in
theorem insertRegion_perm (added : Region η) (regions : List (Region η)) :
    (insertRegion added regions).Perm (added :: regions) := by
  induction regions with
  | nil => exact .refl _
  | cons region rest ih =>
      rw [insertRegion]
      split
      · exact .refl _
      · exact (ih.cons region).trans (.swap added region rest)

/-- A region that meets no other takes its place among them. -/
theorem descending_insertRegion {added : Region η} {regions : List (Region η)}
    (nonempty : ∀ region ∈ added :: regions, 0 < region.capacity)
    (clear : ∀ region ∈ regions, ¬ region.Meets added)
    (descending : regions.Pairwise fun higher lower => lower.finish ≤ higher.base.toNat) :
    (insertRegion added regions).Pairwise fun higher lower =>
      lower.finish ≤ higher.base.toNat := by
  have apart : ∀ region ∈ regions,
      added.finish ≤ region.base.toNat ∨ region.finish ≤ added.base.toNat := by
    intro region mapped
    have misses := clear region mapped
    rw [Region.meets_iff (nonempty region (List.mem_cons_of_mem _ mapped))
      (nonempty added List.mem_cons_self)] at misses
    omega
  have positive := nonempty added List.mem_cons_self
  clear clear
  induction regions with
  | nil => exact List.pairwise_singleton _ _
  | cons region rest ih =>
      obtain ⟨below, ordered⟩ := List.pairwise_cons.mp descending
      have reach : region.base.toNat < region.finish :=
        Nat.lt_add_of_pos_right (nonempty region (by simp))
      have reach' : added.base.toNat < added.finish := Nat.lt_add_of_pos_right positive
      have side := apart region List.mem_cons_self
      rw [insertRegion]
      split
      · rename_i under
        rw [UInt32.lt_iff_toNat_lt] at under
        refine List.pairwise_cons.mpr ⟨fun other stands => ?_, descending⟩
        rcases List.mem_cons.mp stands with rfl | later
        · omega
        · have ends := below other later
          omega
      · rename_i high
        rw [UInt32.lt_iff_toNat_lt] at high
        refine List.pairwise_cons.mpr ⟨fun other stands => ?_, ?_⟩
        · rcases List.mem_cons.mp ((insertRegion_perm added rest).mem_iff.mp stands) with
            rfl | later
          · omega
          · exact below other later
        · refine ih (fun other stands => nonempty other ?_) ordered fun other stands =>
            apart other (List.mem_cons_of_mem _ stands)
          rcases List.mem_cons.mp stands with rfl | later
          · exact List.mem_cons_self
          · exact List.mem_cons_of_mem _ (List.mem_cons_of_mem _ later)

/-- What a region has to meet to be mapped: it has a byte, it fits the address space and it keeps
clear of the regions that are there. -/
structure Admits (space : AddressSpace η) (added : Region η) : Prop where
  nonempty : 0 < added.capacity
  inside : added.finish ≤ addressCount
  clear : ∀ region ∈ space.regions, ¬ region.Meets added

/-- Why a region is refused. -/
inductive Refuses (space : AddressSpace η) (added : Region η) : MemoryError → Prop where
  | empty (nothing : added.capacity = 0) : Refuses space added (.emptyRegion added.base)
  | outside (past : addressCount < added.finish) :
      Refuses space added (.outOfAddressSpace added.base added.capacity)
  | overlap {existing : Region η} (mapped : existing ∈ space.regions)
      (meets : existing.Meets added) : Refuses space added (.overlap added.base existing.base)

theorem Refuses.not_admits {space : AddressSpace η} {added : Region η} {error : MemoryError}
    (refuses : space.Refuses added error) : ¬ space.Admits added := by
  intro admits
  cases refuses with
  | empty nothing => exact absurd admits.nonempty (by omega)
  | outside past => exact absurd admits.inside (by omega)
  | overlap mapped meets => exact admits.clear _ mapped meets

namespace WellFormed

variable {space : AddressSpace η}

/-- **A region is mapped if nothing speaks against it, and else the error tells what does.** -/
theorem map_cases (sound : space.WellFormed) (added : Region η) :
    (space.Admits added ∧ space.map added = .ok ⟨insertRegion added space.regions⟩) ∨
      ∃ error, space.Refuses added error ∧ space.map added = .error error := by
  rw [map]
  by_cases nothing : added.capacity = 0
  · exact .inr ⟨_, .empty nothing, if_pos nothing⟩
  by_cases past : addressCount < added.finish
  · exact .inr ⟨_, .outside past, by rw [if_neg nothing, if_pos past]⟩
  have nonempty := Nat.pos_of_ne_zero nothing
  rw [if_neg nothing, if_neg past]
  cases compared : space.overlapping? added with
  | none =>
      have clear := (sound.overlapping?_eq_none_iff nonempty).mp compared
      exact .inl ⟨⟨nonempty, Nat.le_of_not_lt past, clear⟩, rfl⟩
  | some existing =>
      obtain ⟨found, reaches⟩ := Option.filter_eq_some_iff.mp compared
      have mapped := List.mem_of_find?_eq_some found
      have below := List.find?_some found
      simp only [decide_eq_true_eq] at below reaches
      have meets := (Region.meets_iff (sound.nonempty existing mapped) nonempty).mpr
        ⟨below, reaches⟩
      exact .inr ⟨_, .overlap mapped meets, rfl⟩

section Outcomes

variable (sound : space.WellFormed) {added : Region η}
include sound

theorem map_of_admits (admits : space.Admits added) :
    space.map added = .ok ⟨insertRegion added space.regions⟩ := by
  rcases sound.map_cases added with ⟨_, inserted⟩ | ⟨error, refuses, _⟩
  · exact inserted
  · exact absurd admits refuses.not_admits

theorem admits_of_map {larger : AddressSpace η} (done : space.map added = .ok larger) :
    space.Admits added ∧ larger = ⟨insertRegion added space.regions⟩ := by
  rcases sound.map_cases added with ⟨admits, inserted⟩ | ⟨error, _, refused⟩
  · rw [inserted] at done
    exact ⟨admits, (Except.ok.inj done).symm⟩
  · rw [refused] at done
    cases done

theorem refuses_of_map {error : MemoryError} (failed : space.map added = .error error) :
    space.Refuses added error := by
  rcases sound.map_cases added with ⟨_, inserted⟩ | ⟨_, refuses, refused⟩
  · rw [inserted] at failed
    cases failed
  · rw [refused] at failed
    cases failed
    exact refuses

theorem of_map {larger : AddressSpace η} (done : space.map added = .ok larger) :
    larger.WellFormed := by
  obtain ⟨admits, rfl⟩ := sound.admits_of_map done
  have same := insertRegion_perm added space.regions
  have positive : ∀ region ∈ added :: space.regions, 0 < region.capacity :=
    List.forall_mem_cons.mpr ⟨admits.nonempty, sound.nonempty⟩
  have bounded : ∀ region ∈ added :: space.regions, region.finish ≤ addressCount :=
    List.forall_mem_cons.mpr ⟨admits.inside, sound.inside⟩
  exact
    { nonempty := fun region stands => positive region (same.mem_iff.mp stands)
      inside := fun region stands => bounded region (same.mem_iff.mp stands)
      descending := descending_insertRegion positive admits.clear sound.descending }

end Outcomes

end WellFormed

/-! ## Writing -/

/-- A change of a region that leaves its addresses as they are. -/
structure Keeps (change : Region η → Region η) : Prop where
  base : ∀ region, (change region).base = region.base
  capacity : ∀ region, (change region).capacity = region.capacity

theorem Keeps.finish {change : Region η → Region η} (keeps : Keeps change) (region : Region η) :
    (change region).finish = region.finish := by
  rw [Region.finish, Region.finish, keeps.base, keeps.capacity]

theorem keeps_setByte (place : Region η → Nat) (byte : UInt8) :
    Keeps fun region : Region η => region.setByte (place region) byte where
  base _ := rfl
  capacity _ := congrArg UInt32.toNat (Handler.capacity_setByte _ _ _)

theorem Keeps.atBase {change : Region η → Region η} (keeps : Keeps change) (base : UInt32) :
    Keeps fun region => if region.base = base then change region else region where
  base region := by
    split
    · exact keeps.base region
    · rfl
  capacity region := by
    split
    · exact keeps.capacity region
    · rfl

theorem WellFormed.updateAt {space : AddressSpace η} (sound : space.WellFormed) (base : UInt32)
    {change : Region η → Region η} (keeps : Keeps change) :
    (space.updateAt base change).WellFormed := by
  have kept := keeps.atBase base
  constructor
  · simp only [AddressSpace.updateAt, List.forall_mem_map, kept.capacity]
    exact sound.nonempty
  · simp only [AddressSpace.updateAt, List.forall_mem_map, kept.finish]
    exact sound.inside
  · simp only [AddressSpace.updateAt, List.pairwise_map, kept.finish, kept.base]
    exact sound.descending

section Located

variable {space : AddressSpace η} {address other : UInt32} {region holder : Region η}

theorem mem_of_locate? (located : space.locate? address = some region) :
    region ∈ space.regions :=
  List.mem_of_find?_eq_some (Option.filter_eq_some_iff.mp located).1

theorem contains_of_locate? (located : space.locate? address = some region) :
    region.Contains address :=
  of_decide_eq_true (Option.filter_eq_some_iff.mp located).2

/-- Regions that are found and have one base are one region. -/
theorem eq_of_locate? (located : space.locate? address = some region)
    (found : space.locate? other = some holder) (same : holder.base = region.base) :
    holder = region := by
  obtain ⟨here, -⟩ := Option.filter_eq_some_iff.mp located
  obtain ⟨there, -⟩ := Option.filter_eq_some_iff.mp found
  have reaches : region.base ≤ address := by simpa using List.find?_some here
  have reaches' : holder.base ≤ other := by simpa using List.find?_some there
  generalize space.regions = regions at here there
  induction regions with
  | nil => cases here
  | cons first rest ih =>
      by_cases low : first.base ≤ address
      · rw [List.find?_cons_of_pos (by simpa using low)] at here
        cases here
        rw [List.find?_cons_of_pos (by simpa [← same] using reaches')] at there
        exact (Option.some.inj there).symm
      · rw [List.find?_cons_of_neg (by simpa using low)] at here
        by_cases low' : first.base ≤ other
        · rw [List.find?_cons_of_pos (by simpa using low')] at there
          cases there
          exact absurd (same ▸ reaches) low
        · rw [List.find?_cons_of_neg (by simpa using low')] at there
          exact ih here there

/-- Where an address is looked up does not depend on what the regions hold. -/
theorem locate?_updateAt (space : AddressSpace η) (base address : UInt32)
    {change : Region η → Region η} (keeps : Keeps change) :
    (space.updateAt base change).locate? address =
      (space.locate? address).map fun region =>
        if region.base = base then change region else region := by
  have kept := keeps.atBase base
  have sameBase : ((fun region : Region η => decide (region.base ≤ address)) ∘ fun region =>
      if region.base = base then change region else region) =
        fun region => decide (region.base ≤ address) := by
    funext region
    rw [Function.comp_apply, kept.base]
  have sameRange : ((fun region : Region η => decide (region.Contains address)) ∘ fun region =>
      if region.base = base then change region else region) =
        fun region => decide (region.Contains address) := by
    funext region
    exact decide_eq_decide.mpr (by rw [Region.Contains, Region.Contains, kept.base, kept.finish])
  rw [locate?, locate?, updateAt, List.find?_map, sameBase, Option.filter_map, sameRange]

/-- The region that was found by an address is found again by its base. -/
theorem hasRegionAt_of_locate? (located : space.locate? address = some region) :
    space.hasRegionAt region.base = true :=
  List.any_eq_true.mpr ⟨region, mem_of_locate? located, beq_self_eq_true _⟩

theorem write_of_locate? (located : space.locate? address = some region) (byte : UInt8) :
    write address byte space =
      .ok () (space.updateAt region.base fun other =>
        other.setByte (other.offset address) byte) := by
  rw [write, located, Option.map_some]
  exact if_pos (hasRegionAt_of_locate? located)

theorem write_of_unmapped (missing : space.locate? address = none) (byte : UInt8) :
    write address byte space = .error (.unmapped address) space := by
  rw [write, missing]
  rfl

/-- A byte goes to the region that has the address. -/
theorem WellFormed.updateAt_setByte (sound : space.WellFormed)
    (located : space.locate? address = some region) (byte : UInt8) :
    (space.updateAt region.base fun other => other.setByte (other.offset address) byte) =
      space.updateAt region.base fun _ => region.setByte (region.offset address) byte := by
  rw [AddressSpace.updateAt, AddressSpace.updateAt, mk.injEq]
  refine List.map_congr_left fun other stands => ?_
  split
  · rename_i same
    rw [sound.eq_of_base_eq stands (mem_of_locate? located) same]
  · rfl

end Located

section Writes

variable {related : AddressSpace η → AddressSpace η → Prop} (chains : Chains related)
  (updates : ∀ space base {change}, Keeps change → related space (space.updateAt base change))
include chains updates

theorem ends_write (address : UInt32) (byte : UInt8) (space : AddressSpace η) :
    Ends related (fun _ => True) space (write address byte) := by
  cases located : space.locate? address with
  | none => exact .of_error (write_of_unmapped located byte) (chains.refl space) trivial
  | some region =>
      have step := updates space region.base (keeps_setByte (·.offset address) byte)
      exact .of_ok (write_of_locate? located byte) step

/-- **Storing bytes keeps to what each change of a region keeps to.** -/
theorem ends_writeBytes (bytes : List UInt8) (address : UInt32) (space : AddressSpace η) :
    Ends related (fun _ => True) space (writeBytes address bytes) := by
  induction bytes generalizing address space with
  | nil => exact .of_pure chains ()
  | cons byte rest ih =>
      exact .of_bind chains (ends_write chains updates address byte space) fun _ between =>
        ih (address + 1) between

end Writes

/-! ## Sequences of calls -/

/-- What keeps the regions in order. -/
def KeepsOrder (before after : AddressSpace η) : Prop :=
  before.WellFormed → after.WellFormed

theorem KeepsOrder.chains : Chains (KeepsOrder (η := η)) where
  refl _ := id
  trans first second := second ∘ first

theorem KeepsOrder.of_updateAt (space : AddressSpace η) (base : UInt32)
    {change : Region η → Region η} (keeps : Keeps change) :
    KeepsOrder space (space.updateAt base change) :=
  fun sound => sound.updateAt base keeps

/-- A call of the address space. -/
inductive Call (η : Type) where
  | map (added : Region η)
  | read (address : UInt32) (count : Nat)
  | write (address : UInt32) (bytes : List UInt8)

/-- Performs a call, which gives the bytes that were read. -/
def Call.perform : Call η → EStateM MemoryError (AddressSpace η) (List UInt8)
  | map added => fun space =>
      match space.map added with
      | .ok larger => .ok [] larger
      | .error error => .error error space
  | read address count => fun space =>
      match space.readBytes address count with
      | .ok bytes => .ok bytes space
      | .error error => .error error space
  | write address bytes => do
      writeBytes address bytes
      return []

/-- The space that calls lead to, be they successful or not, when nothing was mapped before. -/
def afterCalls (calls : List (Call η)) : AddressSpace η :=
  calls.foldl (fun space call => finalState (call.perform space)) empty

theorem perform_map_of_ok {space larger : AddressSpace η} {added : Region η}
    (done : space.map added = .ok larger) : (Call.map added).perform space = .ok [] larger := by
  simp only [Call.perform, done]

theorem perform_map_of_error {space : AddressSpace η} {added : Region η} {error : MemoryError}
    (failed : space.map added = .error error) :
    (Call.map added).perform space = .error error space := by
  simp only [Call.perform, failed]

/-- A region that is refused leaves the space as it was. -/
theorem refuses_of_perform {space final : AddressSpace η} (sound : space.WellFormed)
    {added : Region η} {error : MemoryError}
    (failed : (Call.map added).perform space = .error error final) :
    final = space ∧ space.Refuses added error := by
  cases outcome : space.map added with
  | ok larger =>
      rw [perform_map_of_ok outcome] at failed
      cases failed
  | error reason =>
      rw [perform_map_of_error outcome] at failed
      cases failed
      exact ⟨rfl, sound.refuses_of_map outcome⟩

theorem ends_perform (call : Call η) (space : AddressSpace η) :
    Ends KeepsOrder (fun _ => True) space call.perform := by
  cases call with
  | map added =>
      cases done : space.map added with
      | ok larger => exact .of_ok (perform_map_of_ok done) fun sound => sound.of_map done
      | error error => exact .of_error (perform_map_of_error done) id trivial
  | read address count =>
      have unchanged : finalState ((Call.read address count).perform space) = space := by
        simp only [Call.perform]
        split <;> rfl
      refine ⟨fun sound => ?_, fun _ => trivial⟩
      rwa [unchanged]
  | write address bytes =>
      have stores := ends_writeBytes KeepsOrder.chains KeepsOrder.of_updateAt bytes address space
      exact .of_bind KeepsOrder.chains stores fun _ _ => .of_pure KeepsOrder.chains []

theorem wellFormed_empty : (empty : AddressSpace η).WellFormed where
  nonempty _ mapped := nomatch mapped
  inside _ mapped := nomatch mapped
  descending := .nil

/-- **Whatever is called, the regions stay in order.** -/
theorem wellFormed_afterCalls (calls : List (Call η)) : (afterCalls calls).WellFormed := by
  have run : ∀ space : AddressSpace η, space.WellFormed →
      (calls.foldl (fun space call => finalState (call.perform space)) space).WellFormed := by
    induction calls with
    | nil => exact fun _ => id
    | cons call rest ih => exact fun space sound => ih _ ((ends_perform call space).leads sound)
  exact run empty wellFormed_empty

/-- **The regions of a space share no address.** Whatever calls were made before, each region has a
byte and is in bounds, and no two regions meet. A region is mapped exactly if it has a byte, is in
bounds and meets no other; the error says why it is refused, and then nothing has changed. Every
address is looked up in the one region that has it, and only there is its byte read or stored, at a
place that the handler has. -/
theorem regions_afterCalls (calls : List (Call η)) :
    let space := afterCalls calls
    (∀ region ∈ space.regions, 0 < region.capacity ∧ region.finish ≤ addressCount) ∧
    (space.regions.Pairwise fun first second => ¬ first.Meets second) ∧
    (∀ added,
      ((∃ larger, space.map added = .ok larger) ↔
        0 < added.capacity ∧ added.finish ≤ addressCount ∧
          ∀ region ∈ space.regions, ¬ region.Meets added) ∧
      (∀ {larger}, space.map added = .ok larger →
        larger.regions.Perm (added :: space.regions)) ∧
      (∀ {error final}, (Call.map added).perform space = .error error final →
        final = space ∧ space.Refuses added error)) ∧
    (∀ address region, space.locate? address = some region ↔
      region ∈ space.regions ∧ region.Contains address) ∧
    (∀ {address region}, space.locate? address = some region →
      let place := region.offset address
      place < (Handler.capacity region.handler).toNat ∧
      space.read address = .ok (Handler.byteAt region.handler place) ∧
      space.hasRegionAt region.base = true ∧
      ∀ byte, write address byte space =
        .ok () (space.updateAt region.base fun _ =>
          ⟨region.base, Handler.setByte region.handler place byte⟩)) ∧
    (∀ {address}, space.locate? address = none →
      space.read address = .error (.unmapped address) ∧
      ∀ byte, write address byte space = .error (.unmapped address) space) := by
  intro space
  have sound : space.WellFormed := wellFormed_afterCalls calls
  refine ⟨fun region mapped => ⟨sound.nonempty region mapped, sound.inside region mapped⟩,
    sound.pairwise_not_meets, fun added => ⟨⟨?_, ?_⟩, ?_, ?_⟩,
    fun _ _ => sound.locate?_eq_some_iff, ?_, fun missing => ⟨?_, write_of_unmapped missing⟩⟩
  · rintro ⟨larger, done⟩
    obtain ⟨admits, _⟩ := sound.admits_of_map done
    exact ⟨admits.nonempty, admits.inside, admits.clear⟩
  · rintro ⟨nonempty, inside, clear⟩
    exact ⟨_, sound.map_of_admits ⟨nonempty, inside, clear⟩⟩
  · intro larger done
    obtain ⟨_, rfl⟩ := sound.admits_of_map done
    exact insertRegion_perm added space.regions
  · intro error final failed
    exact refuses_of_perform sound failed
  · intro address region located
    obtain ⟨_, inside⟩ := sound.locate?_eq_some_iff.mp located
    refine ⟨Region.offset_lt_capacity inside, ?_, hasRegionAt_of_locate? located, fun byte => ?_⟩
    · rw [read, located]
      rfl
    · rw [write_of_locate? located, sound.updateAt_setByte located, Region.setByte]
  · rw [read, missing]

/-- A region may end with the last address, and a longer one at the same base may not. -/
example :
    (afterCalls [.map (Region.ofContents 0xFFFFFFF0 0x10 #[])]).isMapped 0xFFFFFFFF = true ∧
      (afterCalls [.map (Region.ofContents 0xFFFFFFF0 0x11 #[])]).isMapped 0xFFFFFFF0 = false := by
  decide

end AddressSpace
end WordMachine
