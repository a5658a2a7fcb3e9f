import WordMachine.Proofs.ViewNumbers

/-!
# Views that overlap

The views of a register share bits: its two bytes lie in the low word side by side, and all of them in
the dword. Where a view lies is computed from its width when it is read and when it is written;
`Width.extract`, `Width.extractSigned` and `Width.merge` have it written out, one width after the other.

What is read through a view after another one was written is settled bit by bit: a bit that both views
have is new, every other one is old (`RegisterFile.testBit_readUnsigned_write`). After any changes to
a register file, each bit is what the last change that reaches it has put there
(`RegisterFile.bit_after`). So changes that reach different bits may be exchanged, and a change that
reaches all bits of an earlier one makes up for it.
-/

set_option autoImplicit false

namespace WordMachine

/-! ## Views written out -/

namespace Width

/-- The bits of a view, extended with zeros. -/
def extract : Width → UInt32 → UInt32
  | word, contents => contents &&& 0xFFFF
  | lowByte, contents => contents &&& 0xFF
  | highByte, contents => contents >>> (8 : UInt32) &&& 0xFF
  | dword, contents => contents

/-- The bits of a view as an integer of that many bits with a sign. -/
def extractSigned : Width → UInt32 → Int
  | word, contents => contents.toUInt16.toInt16.toInt
  | lowByte, contents => contents.toUInt8.toInt8.toInt
  | highByte, contents => (contents >>> 8).toUInt8.toInt8.toInt
  | dword, contents => contents.toInt32.toInt

/-- The contents of a register with the bits of a view replaced. -/
def merge : Width → UInt32 → UInt32 → UInt32
  | word, contents, value => contents &&& 0xFFFF0000 ||| value &&& 0xFFFF
  | lowByte, contents, value => contents &&& 0xFFFFFF00 ||| value &&& 0xFF
  | highByte, contents, value => contents &&& 0xFFFF00FF ||| (value &&& 0xFF) <<< (8 : UInt32)
  | dword, _, value => value

end Width

namespace RegisterFile

section WrittenOut

variable (file : RegisterFile) (view : Register)

theorem readUnsigned_eq_extract :
    file.readUnsigned view = view.width.extract (file.get view.index) := by
  obtain ⟨index, width⟩ := view
  have whole (value : UInt32) : value >>> UInt32.ofNat 0 = value := UInt32.shiftRight_zero
  cases width with
  | word => exact congrArg (· &&& 0xFFFF) (whole _)
  | lowByte => exact congrArg (· &&& 0xFF) (whole _)
  | highByte => rfl
  | dword => exact (congrArg (· &&& 0xFFFFFFFF) (whole _)).trans UInt32.and_neg_one

theorem write_eq_set_merge (value : UInt32) :
    file.write view value =
      file.set view.index (view.width.merge (file.get view.index) value) := by
  have whole (field : UInt32) : field <<< UInt32.ofNat 0 = field := UInt32.shiftLeft_zero
  rw [write]
  refine congrArg (file.set view.index) ?_
  cases view.width with
  | word => exact congrArg (_ ||| ·) (whole (value &&& 0xFFFF))
  | lowByte => exact congrArg (_ ||| ·) (whole (value &&& 0xFF))
  | highByte => rfl
  | dword =>
      have none (contents : UInt32) : contents &&& ~~~Width.dword.mask = 0 := UInt32.and_zero
      have all : value &&& Width.dword.mask = value := UInt32.and_neg_one
      simp only [Width.offset, whole, none, all, UInt32.zero_or, Width.merge]

/-- A view is read with a sign as an integer of its width is, in two's complement. -/
theorem readSigned_eq_toInt :
    file.readSigned view =
      (BitVec.ofNat view.width.bits (file.readUnsigned view).toNat).toInt := by
  rw [BitVec.toInt_eq_toNat_bmod, BitVec.toNat_ofNat, Nat.mod_eq_of_lt (toNat_readUnsigned_lt _ _)]
  rfl

theorem readSigned_eq_extractSigned :
    file.readSigned view = view.width.extractSigned (file.get view.index) := by
  -- An integer of a width reads its bits in two's complement as well.
  have reads {bits : Nat} {field : UInt32} {number : BitVec bits}
      (same : field.toNat = number.toNat) : Int.bmod field.toNat (2 ^ bits) = number.toInt := by
    rw [same, BitVec.toInt_eq_toNat_bmod]
  rw [readSigned, readUnsigned_eq_extract]
  cases view.width with
  | word => exact reads ((toNat_and_mask _ .word).trans (UInt32.toNat_toUInt16 _).symm)
  | lowByte => exact reads ((toNat_and_mask _ .lowByte).trans (UInt32.toNat_toUInt8 _).symm)
  | highByte => exact reads ((toNat_and_mask _ .highByte).trans (UInt32.toNat_toUInt8 _).symm)
  | dword => exact reads rfl

end WrittenOut

/-! ## Reading one view after another was written -/

theorem toNat_readUnsigned_write (file : RegisterFile) (view : Register) (value : UInt32) :
    ((file.write view value).readUnsigned view).toNat =
      if view.index = 0 then 0 else value.toNat % 2 ^ view.width.bits := by
  obtain ⟨index, width⟩ := view
  by_cases zero : index = 0
  · subst zero
    rw [readUnsigned_zero, if_pos rfl]
    rfl
  · rw [readUnsigned_write _ zero, toNat_and_mask, if_neg zero]

/-- **A view has the new bits where it overlaps the one written**, and its old bits elsewhere. -/
theorem testBit_readUnsigned_write (file : RegisterFile) (view other : Register) (value : UInt32)
    {place : Nat} (inside : place < other.width.bits) :
    ((file.write view value).readUnsigned other).toNat.testBit place =
      if view.Covers other.index (other.width.offset + place) ∧ other.index ≠ 0 then
        value.toNat.testBit (other.width.offset + place - view.width.offset)
      else
        (file.readUnsigned other).toNat.testBit place := by
  rw [testBit_readUnsigned, testBit_readUnsigned, decide_eq_true inside, Bool.true_and,
    Bool.true_and, bit_write]

/-! ## Writes in turn -/

/-- Views that share no bit may be written in either order. -/
theorem write_comm (file : RegisterFile) {one other : Register} (apart : one.Apart other)
    (value more : UInt32) :
    (file.write one value).write other more = (file.write other more).write one value := by
  refine eq_of_bits fun index place => ?_
  rw [bit_write, bit_write, bit_write, bit_write]
  -- At most one of the two writes reaches the bit.
  by_cases covers : one.Covers index place
  · have free := apart index place covers
    simp only [free, false_and, if_false]
  · simp only [covers, false_and, if_false]

/-- Of two writes to a view the last one counts. -/
theorem write_again (file : RegisterFile) (view : Register) (value more : UInt32) :
    (file.write view value).write view more = file.write view more := by
  refine eq_of_bits fun index place => ?_
  rw [bit_write, bit_write, bit_write]
  split <;> rfl

/-! ## Changes in turn -/

/-- What is done to a register file. -/
inductive Change where
  | write (view : Register) (value : UInt32)
  | set (index : Fin 16) (value : UInt32)
  | reset

namespace Change

/-- The bit that a change puts in a place, if it reaches it. -/
def puts? (index : Fin 16) (place : Nat) : Change → Option Bool
  | write view value =>
      if view.Covers index place ∧ index ≠ 0 then
        some (value.toNat.testBit (place - view.width.offset))
      else
        none
  | set target value =>
      if index = target ∧ index ≠ 0 then some (value.toNat.testBit place) else none
  | reset => some false

end Change

/-- The file after a change. -/
def apply (file : RegisterFile) : Change → RegisterFile
  | .write view value => file.write view value
  | .set index value => file.set index value
  | .reset => cleared

/-- The file after several changes in turn. -/
def afterChanges (file : RegisterFile) (changes : List Change) : RegisterFile :=
  changes.foldl apply file

theorem bit_cleared (index : Fin 16) (place : Nat) : cleared.bit index place = false := by
  have empty : cleared.get index = 0 := by
    rw [get, cleared, Vector.getElem?_replicate]
    split
    · rfl
    · split <;> rfl
  rw [bit, empty]
  exact Nat.zero_testBit place

theorem bit_apply (file : RegisterFile) (change : Change) (index : Fin 16) (place : Nat) :
    (file.apply change).bit index place =
      (change.puts? index place).getD (file.bit index place) := by
  cases change with
  | write view value =>
      rw [apply, bit_write, Change.puts?]
      split <;> rfl
  | set target value =>
      rw [apply, bit_set, Change.puts?]
      split <;> rfl
  | reset => exact bit_cleared index place

/-- **A bit is what the last change that reaches it has put there.** -/
theorem bit_afterChanges (file : RegisterFile) (changes : List Change) (index : Fin 16)
    (place : Nat) :
    (file.afterChanges changes).bit index place =
      (changes.reverse.findSome? (Change.puts? index place)).getD (file.bit index place) := by
  induction changes generalizing file with
  | nil => rfl
  | cons first rest ih =>
      have later : (file.afterChanges (first :: rest)).bit index place = _ := ih (file.apply first)
      rw [later, bit_apply, List.reverse_cons, List.findSome?_append, Option.getD_or,
        List.findSome?_singleton]

/-- **Views obey the laws of overlapping.** A view that is written has the low bits of the value, and
no bit outside of it changes; so another view has new bits where the two overlap and old ones
elsewhere. A view is read with a sign in two's complement. Views that share no bit are written in
either order, and of two writes to one view the last one counts. Reading, with a sign or without, and
writing are what they are when they are written out for each width. After any changes each bit is that
of the last change which reaches it, and the register of index zero reads zero. -/
theorem views_obey_overlap (file : RegisterFile) (view other : Register) (value : UInt32) :
    ((file.write view value).readUnsigned view).toNat =
      (if view.index = 0 then 0 else value.toNat % 2 ^ view.width.bits) ∧
    (∀ index place, ¬ view.Covers index place →
      (file.write view value).bit index place = file.bit index place) ∧
    (∀ place < other.width.bits,
      ((file.write view value).readUnsigned other).toNat.testBit place =
        if view.Covers other.index (other.width.offset + place) ∧ other.index ≠ 0 then
          value.toNat.testBit (other.width.offset + place - view.width.offset)
        else
          (file.readUnsigned other).toNat.testBit place) ∧
    file.readSigned other =
      (BitVec.ofNat other.width.bits (file.readUnsigned other).toNat).toInt ∧
    (view.Apart other → ∀ more,
      (file.write view value).write other more = (file.write other more).write view value) ∧
    (∀ more, (file.write view value).write view more = file.write view more) ∧
    (file.readUnsigned other = other.width.extract (file.get other.index) ∧
      file.readSigned other = other.width.extractSigned (file.get other.index) ∧
      file.write view value =
        file.set view.index (view.width.merge (file.get view.index) value)) ∧
    ∀ changes : List Change,
      (∀ index place, (file.afterChanges changes).bit index place =
        (changes.reverse.findSome? (Change.puts? index place)).getD (file.bit index place)) ∧
      ∀ width, (file.afterChanges changes).readUnsigned ⟨0, width⟩ = 0 ∧
        (file.afterChanges changes).readSigned ⟨0, width⟩ = 0 := by
  refine ⟨toNat_readUnsigned_write file view value, ?_, ?_, readSigned_eq_toInt file other, ?_, ?_,
    ?_, ?_⟩
  · intro index place outside
    rw [bit_write, if_neg fun both => outside both.1]
  · intro place inside
    exact testBit_readUnsigned_write file view other value inside
  · intro apart more
    exact write_comm file apart value more
  · intro more
    exact write_again file view value more
  · exact ⟨readUnsigned_eq_extract file other, readSigned_eq_extractSigned file other,
      write_eq_set_merge file view value⟩
  · intro changes
    exact ⟨bit_afterChanges file changes, fun width =>
      ⟨readUnsigned_zero _ width, readSigned_zero _ width⟩⟩

/-- A file with one register in use. -/
def oneRegister : RegisterFile :=
  cleared.set 3 0x12345678

/-- A word is written over its bytes; the bytes are written in either order, the register of index
zero in between. -/
theorem views_obey_overlap_bytes :
    ((oneRegister.write ⟨3, .word⟩ 0xFFFFABCD).readUnsigned ⟨3, .highByte⟩).toNat.testBit 2 = false ∧
    (oneRegister.readUnsigned ⟨3, .highByte⟩).toNat.testBit 2 = true ∧
    (oneRegister.write ⟨3, .word⟩ 0xFFFFABCD).bit 3 20 = oneRegister.bit 3 20 ∧
    ((⟨3, .highByte⟩ : Register).Apart ⟨3, .lowByte⟩ ∧
      (oneRegister.write ⟨3, .highByte⟩ 0x122).write ⟨3, .lowByte⟩ 0x80 =
        (oneRegister.write ⟨3, .lowByte⟩ 0x80).write ⟨3, .highByte⟩ 0x122) ∧
    (oneRegister.afterChanges
      [.set 3 7, .write ⟨0, .dword⟩ 0xFFFFFFFF, .reset, .write ⟨3, .word⟩ 1]).readUnsigned
        ⟨0, .dword⟩ = 0 := by
  have apart : (⟨3, .highByte⟩ : Register).Apart ⟨3, .lowByte⟩ := by decide
  obtain ⟨-, outside, bits, -⟩ :=
    views_obey_overlap oneRegister ⟨3, .word⟩ ⟨3, .highByte⟩ 0xFFFFABCD
  obtain ⟨-, -, -, -, commute, -, -, changed⟩ :=
    views_obey_overlap oneRegister ⟨3, .highByte⟩ ⟨3, .lowByte⟩ 0x122
  exact ⟨(bits 2 (by decide)).trans (by decide), by decide, outside 3 20 (by decide),
    ⟨apart, commute apart 0x80⟩, ((changed _).2 .dword).1⟩

end RegisterFile
end WordMachine
