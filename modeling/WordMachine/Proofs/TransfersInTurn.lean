import WordMachine.Proofs.MultipleTransfers

/-!
# Transfers in turn

An instruction with a register list transfers one register after the other (`Core.InTurn`). Each of
them is one access to memory, at the address that the transfers before have come to, and a load
replaces one view before the next access is made. Behind them the base may follow, unless it was one
of the registers (`ListTransfer.Becomes`).

Stack transfers are such transfers, too. Their base is the stack pointer, which always follows, and
the low word of a register is the view of which they push and pop the words. So all four kinds of
instruction are said in one way (`ListTransfer.Performs`): what they do is what happens in turn, and
they end with a fault of memory if some access in turn has one, and only then.
-/

set_option autoImplicit false

namespace WordMachine

namespace RegisterFile

theorem write_dword (file : RegisterFile) (index : Fin 16) (value : UInt32) :
    file.write ⟨index, .dword⟩ value = file.set index value := by
  have whole : Width.dword.mask = -1 := rfl
  rw [write]
  simp only [whole]
  congr 1
  simp [Width.offset]

theorem write_zero (file : RegisterFile) (width : Width) (value : UInt32) :
    file.write ⟨0, width⟩ value = file := by
  rw [write]
  exact if_pos rfl

theorem readUnsigned_dword (file : RegisterFile) (index : Fin 16) :
    file.readUnsigned ⟨index, .dword⟩ = file.get index := by
  have whole : Width.dword.mask = -1 := rfl
  rw [readUnsigned]
  simp only [whole]
  simp [Width.offset]

theorem toNat_readUnsigned_word (file : RegisterFile) (index : Fin 16) :
    (file.readUnsigned ⟨index, .word⟩).toNat = (file.get index).toNat % 65536 := by
  have lowest : UInt32.ofNat Width.word.offset = 0 := rfl
  rw [readUnsigned, toNat_and_mask, lowest, UInt32.shiftRight_zero]
  rfl

end RegisterFile

namespace Core

/-! ## One register after the other -/

/-- Registers are loaded or stored in this order through one view, from an address on, and this is
the address and the core that it comes to. -/
inductive InTurn (width : Width) :
    Bool → List (Fin 16) → UInt32 → Core → UInt32 → Core → Prop where
  | done {loads : Bool} {address : UInt32} {core : Core} :
      InTurn width loads [] address core address core
  | load {index : Fin 16} {rest : List (Fin 16)} {address last : UInt32} {value : Nat}
      {core after : Core} (read : core.memory.readNumber address (viewBytes width) = .ok value)
      (later : InTurn width true rest (address + .ofNat (viewBytes width))
        { core with registers := core.registers.write ⟨index, width⟩ (.ofNat value) } last after) :
      InTurn width true (index :: rest) address core last after
  | store {index : Fin 16} {rest : List (Fin 16)} {address last : UInt32} {memory : AddressSpace}
      {core after : Core}
      (written : AddressSpace.writeNumber (address - .ofNat (viewBytes width)) (viewBytes width)
        (core.registers.readUnsigned ⟨index, width⟩).toNat core.memory = .ok () memory)
      (later : InTurn width false rest (address - .ofNat (viewBytes width)) { core with memory }
        last after) :
      InTurn width false (index :: rest) address core last after

/-- Registers one after the other, as the machine transfers them. -/
def transfer (width : Width) (loads : Bool) : List (Fin 16) → UInt32 → Execution UInt32 :=
  if loads then loadUp (viewBytes width) fun index => write ⟨index, width⟩
  else storeDown (viewBytes width) fun index => readUnsigned ⟨index, width⟩

variable {width : Width} {loads : Bool} {order rest : List (Fin 16)} {address last : UInt32}
  {core after : Core}

theorem transfer_load_cons (index : Fin 16) {value : Nat}
    (read : core.memory.readNumber address (viewBytes width) = .ok value) :
    transfer width true (index :: rest) address core =
      transfer width true rest (address + .ofNat (viewBytes width))
        { core with registers := core.registers.write ⟨index, width⟩ (.ofNat value) } := by
  have run : load address (viewBytes width) core = .ok value core := by rw [load, read]
  change loadUp _ _ _ _ _ = loadUp _ _ _ _ _
  rw [loadUp, run_bind_of_ok run]
  rfl

theorem transfer_store_cons (index : Fin 16) {memory : AddressSpace}
    (written : AddressSpace.writeNumber (address - .ofNat (viewBytes width)) (viewBytes width)
      (core.registers.readUnsigned ⟨index, width⟩).toNat core.memory = .ok () memory) :
    transfer width false (index :: rest) address core =
      transfer width false rest (address - .ofNat (viewBytes width)) { core with memory } := by
  have run : store (address - .ofNat (viewBytes width)) (viewBytes width)
      (core.registers.readUnsigned ⟨index, width⟩).toNat core = .ok () { core with memory } := by
    rw [store, written]
  have held : readUnsigned ⟨index, width⟩ core =
      .ok (core.registers.readUnsigned ⟨index, width⟩) core := rfl
  change storeDown _ _ _ _ _ = storeDown _ _ _ _ _
  rw [storeDown, run_bind_of_ok held, run_bind_of_ok run]

/-- What happens in turn is what the machine does. -/
theorem InTurn.run (turns : InTurn width loads order address core last after) :
    transfer width loads order address core = .ok last after := by
  induction turns with
  | @done loads => cases loads <;> rfl
  | @load index rest address last value core after read later ih =>
      exact (transfer_load_cons index read).trans ih
  | @store index rest address last memory core after written later ih =>
      exact (transfer_store_cons index written).trans ih

/-- **All registers have their turn, or an access to memory faults.** -/
theorem inTurn_or_fault (width : Width) (loads : Bool) (order : List (Fin 16)) (address : UInt32)
    (core : Core) :
    (∃ last after, InTurn width loads order address core last after) ∨
      ∃ error after, transfer width loads order address core = .error (.memory error) after := by
  induction order generalizing address core with
  | nil => exact .inl ⟨address, core, .done⟩
  | cons index rest ih =>
      cases loads with
      | true =>
          cases read : core.memory.readNumber address (viewBytes width) with
          | ok value =>
              rw [transfer_load_cons index read]
              refine (ih _ _).imp_left ?_
              rintro ⟨last, after, later⟩
              exact ⟨last, after, .load read later⟩
          | error error =>
              have failed : load address (viewBytes width) core = .error (.memory error) core := by
                rw [load, read]
              exact .inr ⟨error, core, run_bind_of_error failed⟩
      | false =>
          have held : readUnsigned ⟨index, width⟩ core =
              .ok (core.registers.readUnsigned ⟨index, width⟩) core := rfl
          cases written : AddressSpace.writeNumber (address - .ofNat (viewBytes width))
              (viewBytes width) (core.registers.readUnsigned ⟨index, width⟩).toNat core.memory with
          | ok _ memory =>
              rw [transfer_store_cons index written]
              refine (ih _ _).imp_left ?_
              rintro ⟨last, after, later⟩
              exact ⟨last, after, .store written later⟩
          | error error memory =>
              have failed : store (address - .ofNat (viewBytes width)) (viewBytes width)
                  (core.registers.readUnsigned ⟨index, width⟩).toNat core =
                    .error (.memory error) { core with memory } := by
                rw [store, written]
              refine .inr ⟨error, { core with memory }, ?_⟩
              change storeDown _ _ _ _ _ = _
              rw [storeDown, run_bind_of_ok held, run_bind_of_error failed]

end Core

/-! ## Instructions with a register list -/

/-- What an instruction with a register list is to do: whether it loads, through which view, from
which base, and whether the base follows. -/
structure ListTransfer where
  loads : Bool
  width : Width
  base : Register
  follows : Bool

namespace ListTransfer

/-- The registers of a mask in the order in which they are transferred. -/
def order (list : ListTransfer) (mask : UInt16) : List (Fin 16) :=
  if list.loads then RegisterList.indices mask else (RegisterList.indices mask).reverse

/-- The core after the base has followed to an address, unless it was transferred itself. -/
def followed (list : ListTransfer) (order : List (Fin 16)) (last : UInt32) (core : Core) : Core :=
  if list.follows = true ∧ list.base.index ∉ order then
    { core with registers := core.registers.write list.base last }
  else
    core

/-- All registers have been transferred in turn, and the base has followed. -/
def Becomes (list : ListTransfer) (order : List (Fin 16)) (before after : Core) : Prop :=
  ∃ last between,
    Core.InTurn list.width list.loads order (before.registers.readUnsigned list.base) before last
      between ∧
    after = list.followed order last between

/-- From a core an action does just this, and otherwise there is a fault of memory. -/
def Performs (list : ListTransfer) (order : List (Fin 16)) (action : Execution Unit)
    (core : Core) : Prop :=
  (∀ after, list.Becomes order core after → action core = .ok () after) ∧
    ((∀ after, ¬ list.Becomes order core after) →
      ∃ error after, action core = .error (.memory error) after)

variable {list : ListTransfer} {order : List (Fin 16)} {mask : UInt16} {core : Core}

theorem mem_order {index : Fin 16} : index ∈ list.order mask ↔ index ∈ RegisterList.indices mask := by
  rw [ListTransfer.order]
  split
  · rfl
  · rw [List.mem_reverse]

/-- **Loads go up, stores go down.** So no register has two turns. -/
theorem pairwise_order (list : ListTransfer) (mask : UInt16) :
    (list.order mask).Pairwise fun first second =>
      if list.loads then first < second else second < first := by
  have ascending := Core.pairwise_indices mask
  rw [ListTransfer.order]
  cases list.loads with
  | true => exact ascending
  | false => exact List.pairwise_reverse.mpr ascending

theorem performs_of_run {action : Execution Unit} {follow : UInt32 → Execution Unit}
    (run : action core =
      (Core.transfer list.width list.loads order (core.registers.readUnsigned list.base) >>=
        follow) core)
    (follows : ∀ last between, follow last between = .ok () (list.followed order last between)) :
    list.Performs order action core := by
  constructor
  · rintro after ⟨last, between, turns, rfl⟩
    rw [run, run_bind_of_ok turns.run, follows]
  · intro never
    rcases Core.inTurn_or_fault list.width list.loads order
      (core.registers.readUnsigned list.base) core with ⟨last, between, turns⟩ | ⟨error, after, failed⟩
    · exact absurd ⟨last, between, turns, rfl⟩ (never _)
    · exact ⟨error, after, run.trans (run_bind_of_error failed)⟩

end ListTransfer

namespace Core

/-! ## Stack transfers -/

/-- The view of which a stack transfer moves the values. -/
def stackWidth (mask : UInt16) : Width :=
  if RegisterList.flag mask then .dword else .word

theorem viewBytes_stackWidth (mask : UInt16) : viewBytes (stackWidth mask) = stackSize mask := by
  rw [stackWidth, stackSize]
  split <;> rfl

theorem store_congr {address : UInt32} {bytes value other : Nat}
    (same : value % 256 ^ bytes = other % 256 ^ bytes) :
    store address bytes value = store address bytes other := by
  funext core
  rw [store, AddressSpace.writeNumber, BigEndian.encode_eq_of_mod same, ← AddressSpace.writeNumber]
  rfl

/-- Of a register only the view that is moved reaches memory. -/
theorem storeDown_stackView (mask : UInt16) :
    storeDown (stackSize mask) getRegister =
      storeDown (viewBytes (stackWidth mask)) fun index => readUnsigned ⟨index, stackWidth mask⟩ := by
  rw [viewBytes_stackWidth]
  funext order address core
  induction order generalizing address core with
  | nil => rfl
  | cons index rest ih =>
      have low : (core.registers.get index).toNat % 256 ^ stackSize mask =
          (core.registers.readUnsigned ⟨index, stackWidth mask⟩).toNat % 256 ^ stackSize mask := by
        rw [stackWidth, stackSize]
        split
        · rw [RegisterFile.readUnsigned_dword]
        · rw [RegisterFile.toNat_readUnsigned_word]
          exact (Nat.mod_mod _ _).symm
      have whole : getRegister index core = .ok (core.registers.get index) core := rfl
      have view : readUnsigned ⟨index, stackWidth mask⟩ core =
          .ok (core.registers.readUnsigned ⟨index, stackWidth mask⟩) core := rfl
      rw [storeDown, storeDown, run_bind_of_ok whole, run_bind_of_ok view, store_congr low]
      simp only [bind, EStateM.bind]
      cases store (address - .ofNat (stackSize mask)) (stackSize mask)
        (core.registers.readUnsigned ⟨index, stackWidth mask⟩).toNat core with
      | ok _ after => exact ih _ after
      | error fault after => rfl

/-- A push or a pop as the transfer of a list. -/
def stackTransfer (loads : Bool) (mask : UInt16) : ListTransfer :=
  ⟨loads, stackWidth mask, Register.stackPointer, true⟩

variable {loads : Bool} {mask : UInt16} {base : Register} {width : Width}

theorem moveStack_eq_followed (loads : Bool) (mask : UInt16) (last : UInt32) (between : Core) :
    moveStack mask last between =
      .ok () ((stackTransfer loads mask).followed ((stackTransfer loads mask).order mask) last
        between) := by
  have listed : stackIndex ∈ (stackTransfer loads mask).order mask ↔
      RegisterList.lists mask stackIndex = true := by
    rw [ListTransfer.mem_order, RegisterList.mem_indices]
    exact and_iff_right (by decide)
  rw [moveStack_run, ListTransfer.followed]
  by_cases member : RegisterList.lists mask stackIndex = true
  · rw [if_pos member, if_neg fun both => both.2 (listed.mpr member)]
  · rw [if_neg member, if_pos ⟨rfl, mt listed.mp member⟩]
    exact congrArg _ (congrArg (Core.mk · _ _)
      (RegisterFile.write_dword between.registers stackIndex last).symm)

theorem performs_pushList (mask : UInt16) (core : Core) :
    (stackTransfer false mask).Performs ((stackTransfer false mask).order mask) (pushList mask)
      core := by
  refine ListTransfer.performs_of_run ?_ (moveStack_eq_followed false mask)
  have top : core.registers.readUnsigned Register.stackPointer = core.registers.get stackIndex :=
    RegisterFile.readUnsigned_dword core.registers stackIndex
  have run : pushList mask core =
      (storeDown (stackSize mask) getRegister (RegisterList.indices mask).reverse
        (core.registers.get stackIndex) >>= moveStack mask) core := rfl
  rw [run, storeDown_stackView, ← top]
  rfl

theorem performs_popList (mask : UInt16) (core : Core) :
    (stackTransfer true mask).Performs ((stackTransfer true mask).order mask) (popList mask)
      core := by
  refine ListTransfer.performs_of_run ?_ (moveStack_eq_followed true mask)
  have top : core.registers.readUnsigned Register.stackPointer = core.registers.get stackIndex :=
    RegisterFile.readUnsigned_dword core.registers stackIndex
  have run : popList mask core =
      (loadUp (stackSize mask) (fun index => write (stackView mask index))
        (RegisterList.indices mask) (core.registers.get stackIndex) >>= moveStack mask) core := rfl
  rw [run, ← viewBytes_stackWidth, ← top]
  rfl

/-! ## Multiple transfers -/

/-- A multiple transfer as the transfer of a list. -/
def multipleTransfer (loads : Bool) (width : Width) (mask : UInt16) (base : Register) :
    ListTransfer :=
  ⟨loads, width, base, RegisterList.flag mask⟩

/-- The zero register cannot be listed, but what is written to it does not matter. -/
theorem writeBack_eq_followed (loads : Bool) (width : Width) (mask : UInt16) (base : Register)
    (last : UInt32) (between : Core) :
    writeBack mask base last between =
      .ok () ((multipleTransfer loads width mask base).followed
        ((multipleTransfer loads width mask base).order mask) last between) := by
  rw [writeBack_run, ListTransfer.followed]
  by_cases zero : base.index = 0
  · have ignored : between.registers.write base last = between.registers := by
      obtain ⟨index, view⟩ := base
      obtain rfl : index = 0 := zero
      exact RegisterFile.write_zero between.registers view last
    have same : (multipleTransfer loads width mask base).base = base := rfl
    rw [same, ignored, ite_self, ite_self]
  · have listed : base.index ∈ (multipleTransfer loads width mask base).order mask ↔
        RegisterList.lists mask base.index = true := by
      rw [ListTransfer.mem_order, RegisterList.mem_indices]
      exact and_iff_right zero
    have asked : (RegisterList.flag mask && !RegisterList.lists mask base.index) = true ↔
        (multipleTransfer loads width mask base).follows = true ∧
          base.index ∉ (multipleTransfer loads width mask base).order mask := by
      rw [Bool.and_eq_true_iff, Bool.not_eq_true', listed, Bool.not_eq_true]
      rfl
    by_cases moves : (RegisterList.flag mask && !RegisterList.lists mask base.index) = true
    · rw [if_pos moves]
      exact congrArg _ (if_pos (asked.mp moves)).symm
    · rw [if_neg moves]
      exact congrArg _ (if_neg (mt asked.mpr moves)).symm

theorem performs_loadMultiple (width : Width) (mask : UInt16) (base : Register) (core : Core) :
    (multipleTransfer true width mask base).Performs
      ((multipleTransfer true width mask base).order mask) (loadMultiple width mask base) core :=
  ListTransfer.performs_of_run rfl (writeBack_eq_followed true width mask base)

theorem performs_storeMultiple (width : Width) (mask : UInt16) (base : Register) (core : Core) :
    (multipleTransfer false width mask base).Performs
      ((multipleTransfer false width mask base).order mask) (storeMultiple width mask base) core :=
  ListTransfer.performs_of_run rfl (writeBack_eq_followed false width mask base)

end Core
end WordMachine
