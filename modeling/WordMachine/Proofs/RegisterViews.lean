import WordMachine.RegisterFile

/-!
# Registers bit by bit

A view is a run of bits of one register. Replacing a view puts the low bits of the value in these
places and leaves every other bit of every register alone (`RegisterFile.bit_write`), so what an
instruction may change is said by naming views (`RegisterFile.AgreesOutside`). The register of index
zero is no exception to be remembered: it reads zero before and after.
-/

set_option autoImplicit false

namespace WordMachine

/-! ## Runs of bits in a word -/

section Runs

variable {bits offset : Nat}

theorem getLsbD_lowest (narrow : bits ≤ 32) (place : Nat) :
    (UInt32.ofNat (2 ^ bits - 1)).toBitVec.getLsbD place = decide (place < bits) := by
  have lowest : (UInt32.ofNat (2 ^ bits - 1)).toBitVec = BitVec.ofNat 32 (2 ^ bits - 1) := rfl
  rw [lowest, BitVec.getLsbD_ofNat]
  refine (congrArg _ (Nat.testBit_two_pow_sub_one bits place)).trans ?_
  rw [← Bool.decide_and]
  exact decide_eq_decide.mpr ⟨And.right, fun below => ⟨Nat.lt_of_lt_of_le below narrow, below⟩⟩

theorem toNat_shiftCount (inside : offset < 32) :
    ((UInt32.ofNat offset).toBitVec % 32).toNat = offset := by
  show offset % 2 ^ 32 % 32 = offset
  omega

theorem getLsbD_shiftLeft (inside : offset < 32) (value : UInt32) (place : Nat) :
    (value <<< UInt32.ofNat offset).toBitVec.getLsbD place =
      (decide (place < 32) && !decide (place < offset) &&
        value.toBitVec.getLsbD (place - offset)) := by
  rw [UInt32.toBitVec_shiftLeft, BitVec.shiftLeft_eq', toNat_shiftCount inside,
    BitVec.getLsbD_shiftLeft]

/-- **Replacing a run of bits** puts the low bits of a value there and leaves the other bits alone. -/
theorem testBit_replaceRun (inside : offset < 32) (fits : offset + bits ≤ 32)
    (word value : UInt32) (place : Nat) :
    (word &&& ~~~(UInt32.ofNat (2 ^ bits - 1) <<< UInt32.ofNat offset) |||
        (value &&& UInt32.ofNat (2 ^ bits - 1)) <<< UInt32.ofNat offset).toNat.testBit place =
      if offset ≤ place ∧ place < offset + bits then value.toNat.testBit (place - offset)
      else word.toNat.testBit place := by
  show BitVec.getLsbD (UInt32.toBitVec _) place =
    if _ then value.toBitVec.getLsbD _ else word.toBitVec.getLsbD _
  simp only [UInt32.toBitVec_or, UInt32.toBitVec_and, UInt32.toBitVec_not, BitVec.getLsbD_or,
    BitVec.getLsbD_and, BitVec.getLsbD_not, getLsbD_shiftLeft inside,
    getLsbD_lowest (Nat.le_trans (Nat.le_add_left bits offset) fits)]
  by_cases within : offset ≤ place ∧ place < offset + bits
  · have small : place < 32 := by omega
    have above : ¬ place < offset := by omega
    have below : place - offset < bits := by omega
    simp only [within, and_self, small, above, below, decide_true, decide_false, Bool.not_true,
      Bool.not_false, Bool.and_true, Bool.true_and, Bool.and_false, Bool.false_or, if_true]
  · have outside : place < offset ∨ ¬ place - offset < bits := by omega
    rw [if_neg within]
    rcases outside with below | above
    · simp only [below, decide_true, Bool.not_true, Bool.and_false, Bool.false_and, Bool.not_false,
        Bool.and_true, Bool.or_false, Bool.and_eq_left_iff_imp, decide_eq_true_iff]
      exact BitVec.lt_of_getLsbD
    · simp only [above, decide_false, Bool.and_false, Bool.not_false, Bool.and_true, Bool.or_false,
        Bool.and_eq_left_iff_imp, decide_eq_true_iff]
      exact BitVec.lt_of_getLsbD

end Runs

/-! ## The bits of a view -/

/-- A bit of a register belongs to its view of this width. -/
def Width.Covers (width : Width) (place : Nat) : Prop :=
  width.offset ≤ place ∧ place < width.offset + width.bits

instance (width : Width) (place : Nat) : Decidable (width.Covers place) :=
  inferInstanceAs (Decidable (_ ∧ _))

/-- A bit of a register belongs to the view that an operand names. -/
def Register.Covers (view : Register) (index : Fin 16) (place : Nat) : Prop :=
  view.index = index ∧ view.width.Covers place

instance (view : Register) (index : Fin 16) (place : Nat) : Decidable (view.Covers index place) :=
  inferInstanceAs (Decidable (_ ∧ _))

namespace Width

theorem covers_dword {place : Nat} : dword.Covers place ↔ place < 32 := by
  have whole : dword.offset + dword.bits = 32 := rfl
  rw [Covers, whole]
  exact and_iff_right (Nat.zero_le place)

theorem bits_le (width : Width) : width.bits ≤ 32 := by
  cases width <;> decide

theorem offset_lt (width : Width) : width.offset < 32 := by
  cases width <;> decide

theorem offset_add_bits_le (width : Width) : width.offset + width.bits ≤ 32 := by
  cases width <;> decide

end Width

namespace RegisterFile

/-! ## Whole registers -/

section Whole

variable (file : RegisterFile) (index other : Fin 16) (value : UInt32)

theorem get_zero : file.get 0 = 0 :=
  if_pos rfl

theorem get_set :
    (file.set index value).get other = if other = index ∧ other ≠ 0 then value else file.get other := by
  by_cases zero : other = 0
  · subst zero
    rw [get_zero, get_zero, if_neg fun both => both.2 rfl]
  by_cases ignored : index = 0
  · subst ignored
    rw [set, if_pos rfl, if_neg fun both => zero both.1]
  have inside : index.val - 1 < 15 := by omega
  have apart : index.val - 1 = other.val - 1 ↔ other = index := by
    have := Fin.val_ne_of_ne zero
    have := Fin.val_ne_of_ne ignored
    rw [Fin.ext_iff]
    simp only [Fin.val_zero] at *
    omega
  rw [set, if_neg ignored, get, if_neg zero, get, if_neg zero, Vector.getElem?_setIfInBounds,
    if_pos inside]
  simp only [apart, zero, ne_eq, not_false_eq_true, and_true]
  split <;> rfl

theorem get_set_self (writable : index ≠ 0) : (file.set index value).get index = value := by
  rw [get_set, if_pos ⟨rfl, writable⟩]

theorem get_set_of_ne (apart : other ≠ index) : (file.set index value).get other = file.get other := by
  rw [get_set, if_neg fun both => apart both.1]

theorem readUnsigned_zero (width : Width) : file.readUnsigned ⟨0, width⟩ = 0 := by
  rw [readUnsigned, get_zero, UInt32.zero_shiftRight, UInt32.zero_and]

theorem readSigned_zero (width : Width) : file.readSigned ⟨0, width⟩ = 0 := by
  rw [readSigned, readUnsigned_zero]
  exact Int.zero_bmod

theorem get_write_of_ne (file : RegisterFile) {view : Register} {other : Fin 16}
    (apart : view.index ≠ other) (value : UInt32) :
    (file.write view value).get other = file.get other := by
  rw [write, get_set, if_neg fun both => apart both.1.symm]

theorem get_write_congr {file before : RegisterFile} {view : Register} {index : Fin 16}
    (own : view.index = index) (same : file.get index = before.get index) (value : UInt32) :
    (file.write view value).get index = (before.write view value).get index := by
  subst own
  rw [write, write, get_set, get_set, same]

end Whole

/-! ## Bits -/

/-- A bit of a register. There are 32 of them; those above are clear. -/
def bit (file : RegisterFile) (index : Fin 16) (place : Nat) : Bool :=
  (file.get index).toNat.testBit place

section Bits

variable (file : RegisterFile)

theorem bit_eq_getLsbD (index : Fin 16) (place : Nat) :
    file.bit index place = (file.get index).toBitVec.getLsbD place :=
  rfl

theorem bit_of_le {place : Nat} (above : 32 ≤ place) (index : Fin 16) :
    file.bit index place = false :=
  BitVec.getLsbD_of_ge _ place above

theorem bit_set (index other : Fin 16) (value : UInt32) (place : Nat) :
    (file.set index value).bit other place =
      if other = index ∧ other ≠ 0 then value.toNat.testBit place else file.bit other place := by
  rw [bit, get_set]
  split <;> rfl

/-- **Replacing a view replaces its bits and no other.** -/
theorem bit_write (view : Register) (value : UInt32) (index : Fin 16) (place : Nat) :
    (file.write view value).bit index place =
      if view.Covers index place ∧ index ≠ 0 then
        value.toNat.testBit (place - view.width.offset)
      else
        file.bit index place := by
  rw [write, bit_set]
  by_cases target : index = view.index ∧ index ≠ 0
  · obtain ⟨rfl, writable⟩ := target
    have covers : view.Covers view.index place ∧ view.index ≠ 0 ↔ view.width.Covers place :=
      ⟨fun both => both.1.2, fun within => ⟨⟨rfl, within⟩, writable⟩⟩
    rw [if_pos ⟨rfl, writable⟩]
    refine (testBit_replaceRun view.width.offset_lt view.width.offset_add_bits_le _ value
      place).trans ?_
    simp only [covers]
    rfl
  · rw [if_neg target, if_neg]
    rintro ⟨⟨same, _⟩, writable⟩
    exact target ⟨same.symm, writable⟩

end Bits

theorem get_eq_of_bits {before after : RegisterFile} {index : Fin 16}
    (same : ∀ place, after.bit index place = before.bit index place) :
    after.get index = before.get index :=
  UInt32.toNat_inj.mp (Nat.eq_of_testBit_eq same)

/-! ## Views -/

theorem readUnsigned_congr {before after : RegisterFile} {view : Register}
    (same : after.get view.index = before.get view.index) :
    after.readUnsigned view = before.readUnsigned view := by
  rw [readUnsigned, readUnsigned, same]

/-- The bits of a view, read from its lowest one on. -/
theorem testBit_readUnsigned (file : RegisterFile) (view : Register) (place : Nat) :
    (file.readUnsigned view).toNat.testBit place =
      (decide (place < view.width.bits) && file.bit view.index (view.width.offset + place)) := by
  show BitVec.getLsbD (file.readUnsigned view).toBitVec place = _
  rw [readUnsigned, UInt32.toBitVec_and, BitVec.getLsbD_and, Width.mask,
    getLsbD_lowest view.width.bits_le, UInt32.toBitVec_shiftRight, BitVec.ushiftRight_eq',
    toNat_shiftCount view.width.offset_lt, BitVec.getLsbD_ushiftRight, Bool.and_comm,
    bit_eq_getLsbD]

theorem toNat_mask (width : Width) : width.mask.toNat = 2 ^ width.bits - 1 := by
  cases width <;> rfl

theorem toNat_and_mask (value : UInt32) (width : Width) :
    (value &&& width.mask).toNat = value.toNat % 2 ^ width.bits := by
  rw [UInt32.toNat_and, toNat_mask, Nat.and_two_pow_sub_one_eq_mod]

theorem and_mask_of_lt {value : UInt32} {width : Width} (fits : value.toNat < 2 ^ width.bits) :
    value &&& width.mask = value := by
  rw [← UInt32.toNat_inj, toNat_and_mask, Nat.mod_eq_of_lt fits]

theorem toNat_readUnsigned_lt (file : RegisterFile) (view : Register) :
    (file.readUnsigned view).toNat < 2 ^ view.width.bits := by
  rw [readUnsigned, toNat_and_mask]
  exact Nat.mod_lt _ (Nat.two_pow_pos _)

/-- **A view that was replaced is read as what was put there**, as far as there is room. -/
theorem readUnsigned_write (file : RegisterFile) {view : Register} (writable : view.index ≠ 0)
    (value : UInt32) : (file.write view value).readUnsigned view = value &&& view.width.mask := by
  rw [← UInt32.toNat_inj, toNat_and_mask]
  refine Nat.eq_of_testBit_eq fun place => ?_
  rw [testBit_readUnsigned, bit_write, Nat.testBit_mod_two_pow, Nat.add_sub_cancel_left]
  by_cases inside : place < view.width.bits
  · have covers : view.Covers view.index (view.width.offset + place) :=
      ⟨rfl, Nat.le_add_right _ _, Nat.add_lt_add_left inside _⟩
    rw [if_pos ⟨covers, writable⟩]
  · rw [decide_eq_false inside, Bool.false_and, Bool.false_and]

/-- Of the value only the bits count that the view has. -/
theorem write_congr_mask (file : RegisterFile) (view : Register) {value other : UInt32}
    (same : other.toNat % 2 ^ view.width.bits = value.toNat % 2 ^ view.width.bits) :
    file.write view other = file.write view value := by
  have masked : other &&& view.width.mask = value &&& view.width.mask := by
    rw [← UInt32.toNat_inj, toNat_and_mask, toNat_and_mask, same]
  rw [write, write, masked]

/-! ## Files that agree outside of some views -/

/-- From one file to the other, no bit has changed but those of these views. -/
def AgreesOutside (views : List Register) (before after : RegisterFile) : Prop :=
  ∀ index place, (∀ view ∈ views, ¬ view.Covers index place) →
    after.bit index place = before.bit index place

namespace AgreesOutside

variable {views more : List Register} {before between after : RegisterFile}

theorem refl (views : List Register) (file : RegisterFile) : AgreesOutside views file file :=
  fun _ _ _ => rfl

theorem trans (first : AgreesOutside views before between)
    (second : AgreesOutside views between after) : AgreesOutside views before after :=
  fun index place outside => (second index place outside).trans (first index place outside)

theorem mono (agrees : AgreesOutside views before after) (within : ∀ view ∈ views, view ∈ more) :
    AgreesOutside more before after :=
  fun index place outside =>
    agrees index place fun view listed => outside view (within view listed)

theorem write {view : Register} (listed : view ∈ views) (file : RegisterFile) (value : UInt32) :
    AgreesOutside views file (file.write view value) := by
  intro index place outside
  rw [bit_write, if_neg fun both => outside view listed both.1]

/-- Two views are replaced, one after the other. -/
theorem write_write (file : RegisterFile) (first second : Register) (value other : UInt32) :
    AgreesOutside [second, first] file ((file.write first value).write second other) :=
  .trans (.write (List.mem_cons_of_mem _ List.mem_cons_self) _ _) (.write List.mem_cons_self _ _)

/-- Setting a register changes no other one. -/
theorem set {index : Fin 16} (listed : ⟨index, .dword⟩ ∈ views) (file : RegisterFile)
    (value : UInt32) : AgreesOutside views file (file.set index value) := by
  intro other place outside
  rw [bit_set]
  split
  · rename_i target
    -- Places that no view covers lie above the register.
    have above : 32 ≤ place := by
      refine Nat.le_of_not_lt fun small => outside _ listed ⟨target.1.symm, ?_⟩
      exact Width.covers_dword.mpr small
    rw [bit_of_le file above]
    exact BitVec.getLsbD_of_ge value.toBitVec place above
  · rfl

theorem get_eq (agrees : AgreesOutside views before after) {index : Fin 16}
    (apart : ∀ view ∈ views, view.index ≠ index) : after.get index = before.get index :=
  get_eq_of_bits fun place =>
    agrees index place fun view listed covers => apart view listed covers.1

end AgreesOutside

end RegisterFile
end WordMachine
