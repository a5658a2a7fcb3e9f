import Mathlib.Algebra.GroupWithZero.Nat
import WordMachine.Machine.Step
import WordMachine.Proofs.Transfers

/-!
# Calls nest

A call pushes the return address, and the instruction that opens a frame pushes the base pointer
below it. These eight bytes are the saved area of the frame. The new base pointer is the address of
the area, and the stack goes on below the frame's own bytes. So from any state in which the base
pointer is right and the area untouched, closing the frame and returning restores the pointer, the
stack and the base pointer of the caller, whatever has become of everything else.

Frames opened one inside the other have areas that do not overlap, as long as all frames together
fit the address space (`Core.Nested`). It does not matter whether they go around its end or lie in
several regions. Hence they can be closed one after the other (`Core.nest_unwinds`).
-/

set_option autoImplicit false

namespace WordMachine

/-- A call and the frame that the callee opens. -/
structure FrameCall where
  condition : Condition
  immediate : UInt16
  adjust : Register
  flag : Register
  size : UInt16

namespace FrameCall

def call (frame : FrameCall) : Instruction :=
  ⟨.call frame.condition, .immRegReg frame.immediate frame.adjust frame.flag⟩

def enter (frame : FrameCall) : Instruction :=
  ⟨.enter, .imm frame.size⟩

/-- The bytes of stack that the frame takes up, with its saved area. -/
def extent (frame : FrameCall) : Nat :=
  8 + frame.size.toNat

end FrameCall

namespace Core

/-! ## Opening and closing frames -/

/-- Calls and opens a frame. -/
def openFrame (frame : FrameCall) : Execution Unit := do
  executeHere frame.call
  executeHere frame.enter

/-- Closes a frame and returns. The instruction that closes it has an immediate without effect. -/
def closeFrame (ignored : UInt16) : Execution Unit := do
  executeHere ⟨.leave, .imm ignored⟩
  executeHere ⟨.ret, .imm 0⟩

/-- Opens frames one inside the other and returns the cores just before the calls, the outermost
first. -/
def nest : List FrameCall → Execution (List Core)
  | [] => return []
  | frame :: inner => do
      let caller ← get
      openFrame frame
      return caller :: (← nest inner)

/-- The top of the stack. -/
def top (core : Core) : UInt32 :=
  core.registers.get stackIndex

/-- The base pointer. -/
def base (core : Core) : UInt32 :=
  core.registers.get baseIndex

/-- The address of the saved area of a frame that is opened here. -/
def area (core : Core) : UInt32 :=
  core.top - 8

/-- From a core on, every call is taken and finds its saved area mapped when its turn comes. -/
def Nestable : List FrameCall → Core → Prop
  | [], _ => True
  | frame :: inner, core =>
      frame.condition.holds (core.registers.readSigned frame.flag) = true ∧
        core.memory.flat.Covers core.area 8 ∧
        ∀ after, openFrame frame core = .ok () after → Nestable inner after

/-- After anything that keeps the base pointer and the saved areas of these callers. -/
structure Disturbed (callers : List Core) (core disturbed : Core) : Prop where
  base : disturbed.base = core.base
  areas : ∀ caller ∈ callers, disturbed.memory.flat.row caller.area 8 = core.memory.flat.row caller.area 8

/-- However often the core is disturbed, closing frames goes back through these callers, the
innermost first. -/
def Unwinds : List Core → Core → Prop
  | [], _ => True
  | caller :: outer, core =>
      ∀ disturbed, Disturbed (caller :: outer) core disturbed → ∀ ignored, ∃ after,
        closeFrame ignored disturbed = .ok () after ∧
          after.pointer = caller.pointer ∧ after.top = caller.top ∧ after.base = caller.base ∧
          Unwinds outer after

/-! ## One frame -/

/-- The bytes of the saved area of a frame that is opened here. -/
def saved (core : Core) : List UInt8 :=
  BigEndian.encode 4 core.base.toNat ++ BigEndian.encode 4 core.pointer.toNat

variable {core : Core}

theorem length_saved (core : Core) : core.saved.length = 8 := by
  rw [saved, List.length_append, BigEndian.length_encode, BigEndian.length_encode]

theorem extendedImmediate_of_small {value : UInt16} (small : value.toNat ≤ 0x7FFF) :
    extendedImmediate value = .ofNat value.toNat := by
  have signed : signedImmediate value = (value.toNat : Int) :=
    Int.bmod_eq_of_le (by omega) (by omega)
  rw [extendedImmediate, signed, UInt32.ofInt, ← UInt32.toNat_inj, UInt32.toNat_ofNat',
    UInt32.toNat_ofNat']
  omega

theorem pushDword_of_covers (covers : core.memory.flat.Covers (core.top - 4) 4) (value : UInt32) :
    ∃ memory : AddressSpace,
      memory.flat = core.memory.flat.overlay (core.top - 4) (BigEndian.encode 4 value.toNat) ∧
        (∀ other, memory.flat other = none ↔ core.memory.flat other = none) ∧
        pushDword value core =
          .ok () ⟨core.registers.set stackIndex (core.top - 4), core.pointer, memory⟩ := by
  obtain ⟨memory, flat, kept, stores⟩ := store_of_covers (by decide) covers value.toNat
  have unfolded : pushDword value core =
      (do
        store (core.top - 4) 4 value.toNat
        setRegister stackIndex (core.top - 4)) core := rfl
  exact ⟨memory, flat, kept, unfolded.trans (run_bind_of_ok stores)⟩

theorem popDword_of_row {value : UInt32}
    (held : core.memory.flat.row core.top 4 = (BigEndian.encode 4 value.toNat).map some) :
    popDword core =
      .ok value { core with registers := core.registers.set stackIndex (core.top + 4) } := by
  have small : value.toNat < 256 ^ 4 := value.toNat_lt
  have loaded := load_of_row held
  rw [Nat.mod_eq_of_lt small] at loaded
  have run : popDword core = (do
      setRegister stackIndex (core.top + 4)
      return UInt32.ofNat value.toNat) core := run_bind_of_ok loaded
  rw [run, UInt32.ofNat_toNat]
  rfl

theorem executeHere_run (instruction : Instruction) (core : Core) :
    executeHere instruction core = execute instruction core.pointer core :=
  rfl

theorem getRegister_run (index : Fin 16) (core : Core) :
    getRegister index core = .ok (core.registers.get index) core :=
  rfl

/-- A call that is taken. Its target is found before the push moves the stack. -/
theorem call_run {condition : Condition} {immediate : UInt16} {adjust flag : Register}
    (taken : condition.holds (core.registers.readSigned flag) = true)
    (covers : core.memory.flat.Covers (core.top - 4) 4) :
    ∃ after, executeHere ⟨.call condition, .immRegReg immediate adjust flag⟩ core = .ok () after ∧
      after.pointer = .ofInt (signedImmediate immediate + core.registers.readSigned adjust) ∧
      after.top = core.top - 4 ∧ after.base = core.base ∧
      after.memory.flat =
        core.memory.flat.overlay (core.top - 4) (BigEndian.encode 4 core.pointer.toNat) ∧
      ∀ other, after.memory.flat other = none ↔ core.memory.flat other = none := by
  obtain ⟨memory, flat, kept, pushes⟩ := pushDword_of_covers covers core.pointer
  have tested : readSigned flag core = .ok (core.registers.readSigned flag) core := rfl
  have run : executeHere ⟨.call condition, .immRegReg immediate adjust flag⟩ core =
      .ok ()
        ⟨core.registers.set stackIndex (core.top - 4),
          .ofInt (signedImmediate immediate + core.registers.readSigned adjust), memory⟩ := by
    simp only [executeHere_run, execute, executeImmRegReg]
    rw [run_bind_of_ok tested, if_pos taken]
    exact run_bind_of_ok pushes
  refine ⟨_, run, rfl, ?_, ?_, flat, kept⟩
  · exact RegisterFile.get_set_self _ _ _ (by decide)
  · exact RegisterFile.get_set_of_ne _ _ _ _ (by decide)

theorem enter_run {frame : FrameCall} (small : frame.size.toNat ≤ 0x7FFF)
    (covers : core.memory.flat.Covers (core.top - 4) 4) :
    ∃ after, executeHere frame.enter core = .ok () after ∧
      after.top = core.top - 4 - .ofNat frame.size.toNat ∧ after.base = core.top - 4 ∧
      after.memory.flat =
        core.memory.flat.overlay (core.top - 4) (BigEndian.encode 4 core.base.toNat) := by
  obtain ⟨memory, flat, _, pushes⟩ := pushDword_of_covers covers core.base
  have read : getRegister baseIndex core = .ok core.base core := rfl
  have moved : (core.registers.set stackIndex (core.top - 4)).get stackIndex = core.top - 4 :=
    RegisterFile.get_set_self _ _ _ (by decide)
  have run : executeHere frame.enter core =
      .ok ()
        ⟨((core.registers.set stackIndex (core.top - 4)).set baseIndex (core.top - 4)).set stackIndex
          (core.top - 4 - .ofNat frame.size.toNat), core.pointer, memory⟩ := by
    have found := getRegister_run stackIndex
      ⟨core.registers.set stackIndex (core.top - 4), core.pointer, memory⟩
    rw [moved] at found
    have unfolded : execute frame.enter core.pointer =
        (do
          pushDword (← getRegister baseIndex)
          let address ← getRegister stackIndex
          setRegister baseIndex address
          setRegister stackIndex (address - extendedImmediate frame.size)) := rfl
    rw [executeHere_run, unfolded, run_bind_of_ok read, run_bind_of_ok pushes, run_bind_of_ok found,
      extendedImmediate_of_small small]
    rfl
  refine ⟨_, run, ?_, ?_, flat⟩
  · exact RegisterFile.get_set_self _ _ _ (by decide)
  · refine (RegisterFile.get_set_of_ne _ _ _ _ (by decide)).trans ?_
    exact RegisterFile.get_set_self _ _ _ (by decide)

theorem openFrame_run {frame : FrameCall}
    (taken : frame.condition.holds (core.registers.readSigned frame.flag) = true)
    (covers : core.memory.flat.Covers core.area 8) (small : frame.size.toNat ≤ 0x7FFF) :
    ∃ after, openFrame frame core = .ok () after ∧
      after.top = core.area - .ofNat frame.size.toNat ∧ after.base = core.area ∧
      after.memory.flat = core.memory.flat.overlay core.area core.saved := by
  have four : UInt32.ofNat 4 = 4 := rfl
  have upper : core.area + .ofNat 4 = core.top - 4 := by
    rw [area, four]
    grind
  have halves : core.memory.flat.Covers (core.top - 4) 4 := by
    intro place inside
    rw [← upper, UInt32.add_assoc, ← UInt32.ofNat_add]
    exact covers (4 + place) (by omega)
  obtain ⟨callee, called, _, lower, same, first, kept⟩ := call_run taken halves
  have low : callee.top - 4 = core.area := by
    rw [lower, area]
    grind
  have rest : callee.memory.flat.Covers (callee.top - 4) 4 := by
    rw [low, FlatMemory.Covers.congr kept]
    exact fun place inside => covers place (by omega)
  obtain ⟨after, entered, moved, based, second⟩ := enter_run small rest
  rw [low] at moved based second
  refine ⟨after, (run_bind_of_ok called).trans entered, moved, based, ?_⟩
  rw [second, first, same, saved, ← FlatMemory.overlay_append, BigEndian.length_encode, upper]

theorem leave_run {saved : UInt32}
    (held : core.memory.flat.row core.base 4 = (BigEndian.encode 4 saved.toNat).map some)
    (ignored : UInt16) :
    ∃ after, executeHere ⟨.leave, .imm ignored⟩ core = .ok () after ∧
      after.top = core.base + 4 ∧ after.base = saved ∧ after.memory = core.memory := by
  let lowered : Core := { core with registers := core.registers.set stackIndex core.base }
  have lower : lowered.top = core.base := RegisterFile.get_set_self _ _ _ (by decide)
  have pops : popDword lowered =
      .ok saved { lowered with registers := lowered.registers.set stackIndex (core.base + 4) } := by
    rw [← lower] at held ⊢
    exact popDword_of_row held
  have unfolded : execute ⟨.leave, .imm ignored⟩ core.pointer =
      (do
        setRegister stackIndex (← getRegister baseIndex)
        setRegister baseIndex (← popDword)) := rfl
  have run : executeHere ⟨.leave, .imm ignored⟩ core =
      .ok ()
        { core with
          registers :=
            (lowered.registers.set stackIndex (core.base + 4)).set baseIndex saved } := by
    have read : getRegister baseIndex core = .ok core.base core := rfl
    have moved : setRegister stackIndex core.base core = .ok () lowered := rfl
    rw [executeHere_run, unfolded, run_bind_of_ok read, run_bind_of_ok moved, run_bind_of_ok pops]
    rfl
  refine ⟨_, run, ?_, ?_, rfl⟩
  · refine (RegisterFile.get_set_of_ne _ _ _ _ (by decide)).trans ?_
    exact RegisterFile.get_set_self _ _ _ (by decide)
  · exact RegisterFile.get_set_self _ _ _ (by decide)

theorem ret_run {target : UInt32}
    (held : core.memory.flat.row core.top 4 = (BigEndian.encode 4 target.toNat).map some) :
    ∃ after, executeHere ⟨.ret, .imm 0⟩ core = .ok () after ∧
      after.pointer = target ∧ after.top = core.top + 4 ∧ after.base = core.base ∧
      after.memory = core.memory := by
  have pops := popDword_of_row held
  have moved : (core.registers.set stackIndex (core.top + 4)).get stackIndex = core.top + 4 :=
    RegisterFile.get_set_self _ _ _ (by decide)
  have unfolded : execute ⟨.ret, .imm 0⟩ core.pointer =
      (do
        setPointer (← popDword)
        setRegister stackIndex ((← getRegister stackIndex) + extendedImmediate 0)) := rfl
  have run : executeHere ⟨.ret, .imm 0⟩ core =
      .ok ()
        { core with
          registers := (core.registers.set stackIndex (core.top + 4)).set stackIndex (core.top + 4)
          pointer := target } := by
    have jumps (start : Core) : setPointer target start = .ok () { start with pointer := target } := rfl
    have found := getRegister_run stackIndex
      { core with registers := core.registers.set stackIndex (core.top + 4), pointer := target }
    rw [moved] at found
    rw [executeHere_run, unfolded, run_bind_of_ok pops, run_bind_of_ok (jumps _),
      run_bind_of_ok found, extendedImmediate_of_small (by decide)]
    exact congrArg (fun value => (setRegister stackIndex value _ : EStateM.Result Fault Core Unit))
      (UInt32.add_zero _)
  refine ⟨_, run, rfl, ?_, ?_, rfl⟩
  · exact RegisterFile.get_set_self _ _ _ (by decide)
  · refine (RegisterFile.get_set_of_ne _ _ _ _ (by decide)).trans ?_
    exact RegisterFile.get_set_of_ne _ _ _ _ (by decide)

theorem closeFrame_run {caller : Core} (based : core.base = caller.area)
    (held : core.memory.flat.row caller.area 8 = caller.saved.map some) (ignored : UInt16) :
    ∃ after, closeFrame ignored core = .ok () after ∧
      after.pointer = caller.pointer ∧ after.top = caller.top ∧ after.base = caller.base ∧
      after.memory = core.memory := by
  have halves : core.memory.flat.row caller.area (4 + 4) = caller.saved.map some := held
  rw [FlatMemory.row_append, saved, List.map_append] at halves
  have length : (core.memory.flat.row caller.area 4).length = 4 := by simp [FlatMemory.row]
  obtain ⟨first, second⟩ := List.append_inj halves
    (by rw [length, List.length_map, BigEndian.length_encode])
  rw [← based] at first
  obtain ⟨callee, left, lower, same, kept⟩ := leave_run first ignored
  have target : callee.memory.flat.row callee.top 4 =
      (BigEndian.encode 4 caller.pointer.toNat).map some := by
    rw [kept, lower, based]
    exact second
  obtain ⟨after, returned, there, top, base, memory⟩ := ret_run target
  refine ⟨after, (run_bind_of_ok left).trans returned, there, ?_, base.trans same, memory.trans kept⟩
  rw [top, lower, based, area]
  grind

/-! ## Frames inside each other -/

/-- Each caller's base pointer is the saved area of the next one out. -/
def Linked : List Core → UInt32 → Prop
  | [], _ => True
  | caller :: outer, base => base = caller.area ∧ Linked outer caller.base

/-- Frames of these callers are open, the innermost first, and none of their saved areas reaches into
the next bytes of stack. -/
structure Nested (callers : List Core) (room : Nat) (core : Core) : Prop where
  linked : Linked callers core.base
  held : ∀ caller ∈ callers, core.memory.flat.row caller.area 8 = caller.saved.map some
  apart : ∀ caller ∈ callers, ∀ place < 8,
    (caller.area + .ofNat place - core.top).toNat + room < AddressSpace.addressCount

/-- **Open frames can be closed.** -/
theorem unwinds_of_linked {callers : List Core} (linked : Linked callers core.base)
    (held : ∀ caller ∈ callers, core.memory.flat.row caller.area 8 = caller.saved.map some) :
    Unwinds callers core := by
  induction callers generalizing core with
  | nil => trivial
  | cons caller outer ih =>
      intro disturbed keeps ignored
      have still : ∀ other ∈ caller :: outer,
          disturbed.memory.flat.row other.area 8 = other.saved.map some :=
        fun other member => (keeps.areas other member).trans (held other member)
      obtain ⟨based, linked⟩ := linked
      obtain ⟨after, closed, there, top, base, memory⟩ :=
        closeFrame_run (keeps.base.trans based) (still caller List.mem_cons_self) ignored
      refine ⟨after, closed, there, top, base, ih (base.symm ▸ linked) fun other member => ?_⟩
      rw [memory]
      exact still other (List.mem_cons_of_mem caller member)

theorem toNat_add_ofNat {distance : UInt32} {more : Nat}
    (inside : distance.toNat + more < AddressSpace.addressCount) :
    (distance + .ofNat more).toNat = distance.toNat + more := by
  rw [AddressSpace.addressCount] at inside
  rw [UInt32.toNat_add, UInt32.toNat_ofNat']
  omega

/-- **One more frame is opened inside the others.** -/
theorem Nested.push {callers : List Core} {room : Nat} {frame : FrameCall}
    (nested : Nested callers (frame.extent + room) core)
    (taken : frame.condition.holds (core.registers.readSigned frame.flag) = true)
    (covers : core.memory.flat.Covers core.area 8) (small : frame.size.toNat ≤ 0x7FFF)
    (fits : frame.extent + room ≤ AddressSpace.addressCount) :
    ∃ after, openFrame frame core = .ok () after ∧ Nested (core :: callers) room after := by
  obtain ⟨after, opened, top, base, flat⟩ := openFrame_run taken covers small
  have free := nested.apart
  have below : core.area = core.top - 8 := rfl
  have eight : UInt32.ofNat 8 = 8 := rfl
  rw [FrameCall.extent] at fits free
  have far : ∀ caller ∈ callers, ∀ place < 8,
      core.saved.length ≤ (caller.area + .ofNat place - core.area).toNat := by
    intro caller member place inside
    have above := free caller member place inside
    have shifted : caller.area + .ofNat place - core.area =
        caller.area + .ofNat place - core.top + .ofNat 8 := by
      rw [below, eight]
      grind
    rw [shifted, toNat_add_ofNat (by omega), length_saved]
    omega
  refine ⟨after, opened, ⟨base, nested.linked⟩, ?_, ?_⟩
  · intro caller member
    rw [flat]
    rcases List.mem_cons.mp member with rfl | member
    · have short : caller.saved.length ≤ AddressSpace.addressCount := by
        rw [length_saved]
        decide
      rw [← FlatMemory.row_overlay short, length_saved]
    · refine (FlatMemory.row_congr fun place inside => ?_).trans (nested.held caller member)
      exact FlatMemory.overlay_of_le (far caller member place inside)
  · intro caller member place inside
    rw [top]
    rcases List.mem_cons.mp member with rfl | member
    · have distance : caller.area + .ofNat place - (caller.area - .ofNat frame.size.toNat) =
          .ofNat place + .ofNat frame.size.toNat := by
        grind
      have short : (UInt32.ofNat place).toNat = place :=
        UInt32.toNat_ofNat_of_lt' (Nat.lt_trans inside (by decide))
      rw [distance, toNat_add_ofNat (by omega), short]
      omega
    · have above := free caller member place inside
      have distance : caller.area + .ofNat place - (core.area - .ofNat frame.size.toNat) =
          caller.area + .ofNat place - core.top + .ofNat (8 + frame.size.toNat) := by
        rw [below, UInt32.ofNat_add, eight]
        grind
      rw [distance, toNat_add_ofNat (by omega)]
      omega

theorem nest_run {frames : List FrameCall} {callers : List Core}
    (small : ∀ frame ∈ frames, frame.size.toNat ≤ 0x7FFF)
    (fits : (frames.map FrameCall.extent).sum ≤ AddressSpace.addressCount)
    (nested : Nested callers (frames.map FrameCall.extent).sum core)
    (nestable : Nestable frames core) :
    ∃ opened after, nest frames core = .ok opened after ∧ opened.length = frames.length ∧
      Nested (opened.reverse ++ callers) 0 after := by
  induction frames generalizing callers core with
  | nil => exact ⟨[], core, rfl, rfl, nested⟩
  | cons frame inner ih =>
      rw [List.forall_mem_cons] at small
      rw [List.map_cons, List.sum_cons] at fits nested
      obtain ⟨taken, covers, later⟩ := nestable
      obtain ⟨between, opens, more⟩ := nested.push taken covers small.1 fits
      obtain ⟨opened, after, run, length, final⟩ :=
        ih small.2 (Nat.le_of_add_left_le fits) more (later between opens)
      refine ⟨core :: opened, after, ?_, congrArg Nat.succ length, ?_⟩
      · rw [nest, run_get_bind, run_bind_of_ok opens, run_bind_of_ok run]
        rfl
      · rwa [List.reverse_cons, List.append_assoc]

/-- **Calls nest.** Frames that together fit the address space are opened one inside the other, if
every call is taken and every saved area is mapped. After that they can be closed, the innermost
first, whatever happens in between to registers other than the base pointer and to bytes outside of
the saved areas. Each return goes back to where its call was executed and restores the stack and the
base pointer from just before it. -/
theorem nest_unwinds (frames : List FrameCall) (core : Core)
    (small : ∀ frame ∈ frames, frame.size.toNat ≤ 0x7FFF)
    (fits : (frames.map FrameCall.extent).sum ≤ 2 ^ 32) (nestable : Nestable frames core) :
    ∃ callers after, nest frames core = .ok callers after ∧ callers.length = frames.length ∧
      Unwinds callers.reverse after := by
  have start : Nested [] (frames.map FrameCall.extent).sum core :=
    ⟨trivial, fun _ member => absurd member List.not_mem_nil,
      fun _ member => absurd member List.not_mem_nil⟩
  obtain ⟨callers, after, run, length, nested⟩ := nest_run small fits start nestable
  rw [List.append_nil] at nested
  exact ⟨callers, after, run, length, unwinds_of_linked nested.linked nested.held⟩

/-- Two calls on the condition that zero is zero, the second of them relative to the stack pointer. -/
def twoFrames : List FrameCall :=
  [⟨.zero, 0x40, ⟨0, .word⟩, ⟨0, .word⟩, 4⟩, ⟨.zero, 0, .stackPointer, ⟨0, .word⟩, 0⟩]

/-- A stack that goes around the end of the address space. -/
def wrappingStack : Core where
  registers := RegisterFile.cleared.set stackIndex 8
  pointer := 0x10
  memory := ⟨[Region.ofContents 0xFFFFFFF0 16 #[], Region.ofContents 0 8 #[]]⟩

theorem nest_unwinds_twoFrames :
    (∀ frame ∈ twoFrames, frame.size.toNat ≤ 0x7FFF) ∧
    (twoFrames.map FrameCall.extent).sum ≤ 2 ^ 32 ∧ Nestable twoFrames wrappingStack ∧
    ∃ callers after, nest twoFrames wrappingStack = .ok callers after ∧ callers.length = 2 ∧
      Unwinds callers.reverse after := by
  have small : ∀ frame ∈ twoFrames, frame.size.toNat ≤ 0x7FFF := by decide
  have fits : (twoFrames.map FrameCall.extent).sum ≤ 2 ^ 32 := by decide
  have nestable : Nestable twoFrames wrappingStack := by
    refine ⟨by decide, by decide, fun after opened => ?_⟩
    cases opened
    exact ⟨by decide, by decide, fun _ _ => trivial⟩
  exact ⟨small, fits, nestable, nest_unwinds twoFrames wrappingStack small fits nestable⟩

end Core
end WordMachine
