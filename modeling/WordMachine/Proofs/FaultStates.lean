import WordMachine.Proofs.Footprints
import WordMachine.Proofs.OperandAgreement

/-!
# What a faulting step leaves behind

A step fails in one of four ways, and each leaves a core of its own kind (`Core.Leaves`). If no
instruction can be read, nothing has changed. An illegal operation leaves the pointer past the last
word that was read, a division by zero past the instruction. When memory faults while the
instruction is executed, the pointer is past it, the bytes that it stores have been stored up to the
first gap, and its footprint says which registers are left.

The bank has no part in a step (`Machine.step_leaves`).
-/

set_option autoImplicit false

namespace WordMachine

/-! ## Illegal operations -/

theorem Decoded.eq_of_ofWord_illegal {word found : UInt16} (decoded : ofWord word = .illegal found) :
    found = word := by
  simp only [ofWord, ofOpcode] at decoded
  repeat' split at decoded
  all_goals cases decoded
  all_goals rfl

/-- A fetch that finds an illegal operation has read its word last. -/
theorem yields_of_illegal {ε σ : Type} {next : WordSource ε σ} {pending : Pending}
    {start finish : σ} {word : UInt16}
    (fetched : fetchWith next pending start = .ok (.illegal word) finish) :
    ∃ before, Yields next start (before ++ [word]) finish := by
  fun_induction fetchWith next pending start with
  | case1 => cases fetched
  | case2 => cases fetched
  | case3 pending start bad rest read =>
      cases fetched
      obtain ⟨last, step, decoded⟩ := decodeNext_eq_ok read
      rw [Decoded.eq_of_ofWord_illegal decoded]
      exact ⟨[], .cons step (.nil _)⟩
  | case4 pending start found rest read extended accepted ih =>
      obtain ⟨first, step, decoded⟩ := decodeNext_eq_ok read
      obtain ⟨before, yields⟩ := ih fetched
      exact ⟨first :: before, .cons step yields⟩
  | case5 pending start found rest read refused =>
      cases fetched
      obtain ⟨last, step, decoded⟩ := decodeNext_eq_ok read
      rw [Decoded.word_of_ofWord_extension decoded]
      exact ⟨[], .cons step (.nil _)⟩

namespace Core

/-- The words of memory follow each other two addresses apart. -/
theorem finish_of_yields {memory : AddressSpace} {start finish : UInt32} {words : List UInt16}
    (yields : Yields (nextWord memory) start words finish) :
    finish = start + .ofNat (2 * words.length) := by
  induction yields with
  | nil state => exact (FlatMemory.add_ofNat_zero state).symm
  | @cons start between finish word rest read more ih =>
      have stepped : between = start + 2 := by
        rw [nextWord] at read
        split at read <;> cases read
        rfl
      rw [ih, stepped, List.length_cons, Nat.mul_succ, UInt32.ofNat_add]
      grind

/-- Words whose bytes stand in memory are read one after the other. -/
theorem yields_of_readBytes {memory : AddressSpace} {start : UInt32} {words : List UInt16}
    (placed : memory.readBytes start (words.flatMap wordBytes).length =
      .ok (words.flatMap wordBytes)) :
    ∃ finish, Yields (nextWord memory) start words finish := by
  induction words generalizing start with
  | nil => exact ⟨start, .nil start⟩
  | cons word rest ih =>
      have row := AddressSpace.row_of_readBytes placed
      rw [List.flatMap_cons, List.length_append, FlatMemory.row_append, List.map_append] at row
      obtain ⟨front, back⟩ := List.append_inj row (by simp [FlatMemory.row])
      have read : memory.readNumber start 2 = .ok (BigEndian.value (wordBytes word)) := by
        have bytes : memory.readBytes start 2 = .ok (wordBytes word) :=
          AddressSpace.readBytes_of_row front.symm
        rw [AddressSpace.readNumber, bytes]
        rfl
      have next : nextWord memory start = .ok word (start + 2) := by
        rw [nextWord, read]
        dsimp only
        rw [ofNat_value_wordBytes]
      obtain ⟨finish, more⟩ := ih (AddressSpace.readBytes_of_row back.symm)
      exact ⟨finish, .cons next more⟩

/-- From the pointer on these words have been read, up to the next address. -/
structure HasRead (core : Core) (words : List UInt16) (next : UInt32) : Prop where
  yields : Yields (nextWord core.memory) core.pointer words next
  past : next = core.pointer + .ofNat (2 * words.length)

variable {core : Core}

theorem HasRead.of_yields {words : List UInt16} {next : UInt32}
    (yields : Yields (nextWord core.memory) core.pointer words next) : core.HasRead words next :=
  ⟨yields, finish_of_yields yields⟩

/-! ## The four kinds of failure -/

/-- The core that is left behind by a step that fails. -/
inductive Leaves (core : Core) : Fault → Core → Prop where
  /-- The words at the pointer cannot be read. -/
  | unreadable {error : MemoryError} (unread : core.fetch = .error error) :
      Leaves core (.memory error) core
  /-- The last word that was read is no operation. -/
  | illegal {before : List UInt16} {word : UInt16} {next : UInt32}
      (fetched : core.fetch = .ok (.illegal word, next))
      (read : core.HasRead (before ++ [word]) next) :
      Leaves core (.illegalOpcode word core.pointer) { core with pointer := next }
  /-- The instruction divides by zero. -/
  | division {found : Instruction} {words : List UInt16} {next address : UInt32}
      (fetched : core.fetch = .ok (.instruction found, next)) (read : core.HasRead words next) :
      Leaves core (.divisionByZero address) { core with pointer := next }
  /-- Memory faults at an address that the instruction reaches. -/
  | faulty {found : Instruction} {words : List UInt16} {next missing : UInt32}
      {registers : RegisterFile} {memory : AddressSpace}
      (fetched : core.fetch = .ok (.instruction found, next)) (read : core.HasRead words next)
      (unmapped : core.memory.flat missing = none)
      (first : ({ core with pointer := next }.footprint found).stored ≠ [] →
        core.memory.flat.gap? ({ core with pointer := next }.footprint found).stored = some missing)
      (stored : core.memory.Receives ({ core with pointer := next }.footprint found).stored memory)
      (left : ({ core with pointer := next }.footprint found).left missing registers) :
      Leaves core (.memory (.unmapped missing)) ⟨registers, next, memory⟩

theorem leaves_of_step {fault : Fault} {after : Core} (failed : step core = .error fault after) :
    core.Leaves fault after := by
  cases fetched : core.fetch with
  | error error =>
      rw [step, fetched] at failed
      cases failed
      exact .unreadable fetched
  | ok outcome =>
      obtain ⟨found, next⟩ := outcome
      cases found with
      | illegal word =>
          rw [step, fetched] at failed
          cases failed
          obtain ⟨before, read⟩ := yields_of_illegal (fetch_of_core fetched)
          exact .illegal fetched (.of_yields read)
      | instruction found =>
          rw [step_of_fetch fetched] at failed
          have contains := contains_execute (wellFormed_of_fetch fetched)
            { core with pointer := next } core.pointer
          obtain ⟨words, read, _⟩ := spells_of_fetchWith (fetch_of_core fetched)
          rw [Footprint.Contains, failed] at contains
          cases contains with
          | division => exact .division fetched (.of_yields read)
          | memory unmapped first receives left =>
              exact .faulty fetched (.of_yields read) unmapped first receives left

end Core

namespace Machine

/-- **A step that fails leaves a core of one of four kinds behind, and the bank as it was.** -/
theorem step_leaves {machine after : Machine} {fault : Fault}
    (failed : machine.step = (.error fault, after)) :
    machine.core.Leaves fault after.core ∧
      after.bank = machine.bank ∧ after.configuration = machine.configuration := by
  rw [step, perform] at failed
  cases run : Core.step machine.core with
  | ok value core =>
      rw [run] at failed
      cases failed
  | error fault core =>
      rw [run] at failed
      cases failed
      exact ⟨Core.leaves_of_step run, rfl, rfl⟩

/-- The second of two registers that are to be popped lies half outside of memory. -/
def interruptedPop : Machine :=
  { standard ⟨[]⟩ with
    core :=
      { registers := (RegisterFile.cleared.set 2 7).set Core.stackIndex 0x20
        pointer := 0
        memory :=
          ⟨[Region.ofContents 0x20 6 #[0, 0, 0xCA, 0xFE, 1, 2],
            Region.ofContents 0 2 #[0x30, 0x07]]⟩ } }

theorem fetch_interruptedPop :
    interruptedPop.core.fetch = .ok (.instruction ⟨.pop, .imm 0b111⟩, 2) := by
  cbv

theorem step_leaves_interruptedPop :
    ∃ after, interruptedPop.step = (.error (.memory (.unmapped 0x26)), after) ∧
      after.core.pointer = 2 ∧ after.core.registers.get 1 = 0xCAFE ∧
      after.core.registers.get 2 = 7 ∧ after.core.registers.get Core.stackIndex = 0x20 ∧
      after.bank = interruptedPop.bank := by
  have failed : interruptedPop.step = (.error (.memory (.unmapped 0x26)), interruptedPop.step.2) := by
    rw [step, perform, Core.step_of_fetch fetch_interruptedPop]
    rfl
  obtain ⟨leaves, bank, -⟩ := step_leaves failed
  refine ⟨_, failed, ?_⟩
  generalize interruptedPop.step.2 = after at leaves bank ⊢
  obtain ⟨core, _, _⟩ := after
  cases leaves with
  | unreadable unread =>
      rw [fetch_interruptedPop] at unread
      cases unread
  | faulty fetched _ _ _ _ left =>
      rw [fetch_interruptedPop] at fetched
      cases fetched
      obtain ⟨stopped, listed, ⟨gap, inside, -, same⟩, loaded, kept⟩ := left
      have second : stopped = 2 := by
        have either : ∀ index ∈ RegisterList.indices 0b111, index = 1 ∨ index = 2 := by decide
        rcases either stopped listed with rfl | rfl
        · -- The row of the first register ends before the address of the fault.
          have before : ∀ gap < 4, (0x26 : UInt32) ≠ 0x20 + .ofNat gap := by decide
          exact absurd same (before gap inside)
        · rfl
      subst second
      obtain ⟨value, read, written⟩ := loaded 1 (by decide)
      have held : value = 0xCAFE := Except.ok.inj (read.symm.trans rfl)
      subst held
      exact ⟨rfl, written.trans rfl, kept 2 (by decide), kept Core.stackIndex (by decide), bank⟩

end Machine
end WordMachine
