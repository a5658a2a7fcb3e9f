import Mathlib.Data.List.Induction
import WordMachine.Proofs.JumpTargets
import WordMachine.Proofs.Spellings

/-!
# The grammar of literals and identifiers

A literal is an optional minus sign before a number, and a number is digits of a radix, behind the
mark of that radix or, in decimal, also without one (`Assembly.Literal`). An identifier is a letter
or underscore before letters, digits and underscores (`Assembly.Identifier`). These are said here by
tables and by the way texts are built, digit after digit, and not by the functions that read.

The functions that read accept just these texts and give the number that was built
(`Assembly.integer?_eq_some_iff`, `Assembly.isIdentifier_iff`). What makes the first of them more
than an induction over digits is that the reader settles on a radix before it looks at the digits.
It never settles on the wrong one, because the letter of a mark is no decimal digit.

So a constant is of exactly one kind, a literal, a label's name or neither
(`Assembly.Constant.existsUnique_of`), and its kind decides what the assembler makes of it
(`Assembly.Scope.constant_of_kind`, `Assembly.Scope.immediate_of_kind`).
-/

set_option autoImplicit false

namespace WordMachine.Assembly

/-! ## Digits -/

/-- The digits, each with its value. The letters come in both cases. -/
def digitTable : List (Char × Nat) :=
  [('0', 0), ('1', 1), ('2', 2), ('3', 3), ('4', 4), ('5', 5), ('6', 6), ('7', 7), ('8', 8), ('9', 9),
    ('a', 10), ('b', 11), ('c', 12), ('d', 13), ('e', 14), ('f', 15),
    ('A', 10), ('B', 11), ('C', 12), ('D', 13), ('E', 14), ('F', 15)]

/-- A character is a digit of a radix and has a value. -/
def Digit (radix : Nat) (c : Char) (value : Nat) : Prop :=
  (c, value) ∈ digitTable ∧ value < radix

instance (radix : Nat) (c : Char) (value : Nat) : Decidable (Digit radix c value) :=
  inferInstanceAs (Decidable (_ ∧ _))

/-- Digits of a radix, at least one, and the number that they stand for. -/
inductive Numeral (radix : Nat) : List Char → Nat → Prop where
  | single {c : Char} {value : Nat} (digit : Digit radix c value) : Numeral radix [c] value
  | next {digits : List Char} {c : Char} {upper value : Nat} (higher : Numeral radix digits upper)
      (digit : Digit radix c value) : Numeral radix (digits ++ [c]) (radix * upper + value)

/-- What can stand before digits, with the radix that it announces. -/
def radixMarks : List (List Char × Nat) :=
  [(['0', 'x'], 16), (['0', 'X'], 16), (['0', 'b'], 2), (['0', 'B'], 2), (['0', 'c'], 8),
    (['0', 'C'], 8), (['0', 'd'], 10), (['0', 'D'], 10), ([], 10)]

/-- A number without sign. -/
inductive Unsigned : List Char → Nat → Prop where
  | marked {mark digits : List Char} {radix magnitude : Nat} (announced : (mark, radix) ∈ radixMarks)
      (digits_read : Numeral radix digits magnitude) (fits : magnitude < 2 ^ 63) :
      Unsigned (mark ++ digits) magnitude

/-- A literal and its value. -/
inductive Literal : List Char → Int → Prop where
  | positive {text : List Char} {magnitude : Nat} (number : Unsigned text magnitude) :
      Literal text magnitude
  | negative {text : List Char} {magnitude : Nat} (number : Unsigned text magnitude) :
      Literal ('-' :: text) (-magnitude)

def IsLetter (c : Char) : Prop :=
  'A' ≤ c ∧ c ≤ 'Z' ∨ 'a' ≤ c ∧ c ≤ 'z'

def IsDecimal (c : Char) : Prop :=
  '0' ≤ c ∧ c ≤ '9'

inductive Identifier : List Char → Prop where
  | named {first : Char} {rest : List Char} (starts : IsLetter first ∨ first = '_')
      (continues : ∀ c ∈ rest, IsLetter c ∨ IsDecimal c ∨ c = '_') : Identifier (first :: rest)

/-! ## Characters -/

theorem isAlpha_iff {c : Char} : c.isAlpha = true ↔ IsLetter c := by
  have upper : c.isUpper = true ↔ 'A' ≤ c ∧ c ≤ 'Z' := decide_eq_true_iff
  have lower : c.isLower = true ↔ 'a' ≤ c ∧ c ≤ 'z' :=
    Bool.and_eq_true_iff.trans (and_congr decide_eq_true_iff decide_eq_true_iff)
  exact Bool.or_eq_true_iff.trans (or_congr upper lower)

theorem isDigit_iff {c : Char} : c.isDigit = true ↔ IsDecimal c := by
  rw [Char.isDigit]
  simp only [Bool.and_eq_true_iff, decide_eq_true_eq]
  rfl

/-- What can be checked of the first 128 characters holds of each of them. -/
theorem of_first_codes {motive : Char → Prop}
    (codes : ∀ code < 128, motive (Char.ofNat code)) {c : Char} (small : c.toNat < 128) :
    motive c := by
  have settled := codes c.toNat small
  rwa [Char.ofNat_toNat] at settled

theorem toNat_lt_of_le {c last : Char} (below : c ≤ last) (small : last.toNat < 128) :
    c.toNat < 128 :=
  Nat.lt_of_le_of_lt (UInt32.le_iff_toNat_le.mp below) small

/-- Letters and digits are within the first 128 characters. -/
theorem toNat_lt_of_isAlphanum {c : Char} (kind : c.isAlphanum = true) : c.toNat < 128 := by
  rw [Char.isAlphanum, Bool.or_eq_true_iff] at kind
  rcases kind with letter | digit
  · rcases isAlpha_iff.mp letter with upper | lower
    · exact toNat_lt_of_le upper.2 (by decide)
    · exact toNat_lt_of_le lower.2 (by decide)
  · exact toNat_lt_of_le (isDigit_iff.mp digit).2 (by decide)

theorem digitTable_sound : ∀ entry ∈ digitTable,
    entry.1.isAlphanum = true ∧ digitValue entry.1 = entry.2 := by
  decide

variable {radix : Nat} {c : Char} {digits text : List Char} {value magnitude : Nat}

theorem digitTable_complete (digit : isDigitOf 16 c = true) : (c, digitValue c) ∈ digitTable :=
  of_first_codes (motive := fun c => isDigitOf 16 c = true → (c, digitValue c) ∈ digitTable)
    (by decide +kernel) (toNat_lt_of_isAlphanum (Bool.and_eq_true_iff.mp digit).1) digit

/-- What the reader takes for a digit of a radix is one, as long as the letters suffice. -/
theorem digit_iff (small : radix ≤ 16) :
    Digit radix c value ↔ isDigitOf radix c = true ∧ digitValue c = value := by
  have of_radix (radix : Nat) :
      isDigitOf radix c = true ↔ c.isAlphanum = true ∧ digitValue c < radix := by
    rw [isDigitOf, Bool.and_eq_true_iff, decide_eq_true_eq]
  rw [of_radix]
  constructor
  · rintro ⟨listed, below⟩
    obtain ⟨kind, same⟩ := digitTable_sound _ listed
    rw [show digitValue c = value from same]
    exact ⟨⟨kind, below⟩, rfl⟩
  · rintro ⟨⟨kind, below⟩, rfl⟩
    have hexadecimal := (of_radix 16).mpr ⟨kind, Nat.lt_of_lt_of_le below small⟩
    exact ⟨digitTable_complete hexadecimal, below⟩

/-! ## Numbers -/

/-- **Digits stand for the number that the reader adds up.** -/
theorem numeral_iff (small : radix ≤ 16) :
    Numeral radix digits value ↔
      (digits ≠ [] ∧ digits.all (isDigitOf radix) = true) ∧ digitsValue radix digits = value := by
  constructor
  · intro numeral
    induction numeral with
    | @single c value digit =>
        obtain ⟨kind, rfl⟩ := (digit_iff small).mp digit
        refine ⟨⟨List.cons_ne_nil _ _, ?_⟩, ?_⟩
        · rw [List.all_cons, kind, List.all_nil, Bool.and_true]
        · rw [digitsValue, List.foldl_cons, List.foldl_nil, Nat.zero_mul, Nat.zero_add]
    | @next digits c upper value higher digit ih =>
        obtain ⟨⟨-, each⟩, rfl⟩ := ih
        obtain ⟨kind, rfl⟩ := (digit_iff small).mp digit
        refine ⟨⟨List.append_ne_nil_of_right_ne_nil _ (List.cons_ne_nil _ _), ?_⟩, ?_⟩
        · rw [List.all_append, each, List.all_cons, kind, List.all_nil, Bool.and_true,
            Bool.and_true]
        · rw [digitsValue_append, Nat.mul_comm]
  · -- The last digit comes last, so the induction takes it off at the end.
    rintro ⟨⟨nonempty, each⟩, rfl⟩
    induction digits using List.reverseRecOn with
    | nil => exact absurd rfl nonempty
    | append_singleton before last ih =>
        rw [List.all_append, Bool.and_eq_true_iff, List.all_cons, Bool.and_eq_true_iff] at each
        obtain ⟨earlier, kind, -⟩ := each
        have digit : Digit radix last (digitValue last) := (digit_iff small).mpr ⟨kind, rfl⟩
        by_cases only : before = []
        · subst only
          rw [digitsValue_append, digitsValue, List.foldl_nil, Nat.zero_mul, Nat.zero_add]
          exact .single digit
        · rw [digitsValue_append, Nat.mul_comm]
          exact .next (ih only earlier) digit

/-! ## Marks -/

/-- A letter that becomes one of the first 128 characters is one of them. -/
theorem toNat_lt_of_toLower {letter : Char} (small : letter.toLower.toNat < 128) :
    letter.toNat < 128 := by
  by_cases upper : 'A' ≤ letter ∧ letter ≤ 'Z'
  · exact toNat_lt_of_le upper.2 (by decide)
  · have same : letter.toLower = letter := dif_neg upper
    rwa [same] at small

theorem toNat_lt_of_radixOf? {letter : Char} (announces : radixOf? letter = some radix) :
    letter.toNat < 128 ∧ radix ∈ [2, 8, 10, 16] := by
  unfold radixOf? at announces
  split at announces
  case h_5 => cases announces
  all_goals
    rename_i lower
    cases announces
    exact ⟨toNat_lt_of_toLower (by rw [lower]; decide), by decide⟩

theorem mem_radixMarks_of_radixOf? {letter : Char} (announces : radixOf? letter = some radix) :
    (['0', letter], radix) ∈ radixMarks := by
  obtain ⟨small, listed⟩ := toNat_lt_of_radixOf? announces
  exact of_first_codes (motive := fun letter => ∀ radix ∈ [2, 8, 10, 16],
    radixOf? letter = some radix → (['0', letter], radix) ∈ radixMarks) (by decide +kernel) small
    radix listed announces

/-- A mark is a zero and the letter of the radix, or nothing before decimal digits. -/
theorem radixMarks_sound : ∀ entry ∈ radixMarks, entry = ([], 10) ∨
    ∃ letter, entry.1 = ['0', letter] ∧ radixOf? letter = some entry.2 := by
  have marks : ∀ entry ∈ radixMarks, entry = ([], 10) ∨ entry.1 = ['0', entry.1.getLastD '0'] ∧
      radixOf? (entry.1.getLastD '0') = some entry.2 := by
    decide
  intro entry listed
  exact (marks entry listed).imp_right fun marked => ⟨_, marked⟩

/-- The letter of a mark is no decimal digit. -/
theorem isDigitOf_of_radixOf? {letter : Char} (announces : radixOf? letter = some radix) :
    isDigitOf 10 letter = false := by
  have small := (toNat_lt_of_radixOf? announces).1
  exact of_first_codes (motive := fun letter =>
    (radixOf? letter).isSome = true → isDigitOf 10 letter = false) (by decide +kernel) small
    (Option.isSome_of_eq_some announces)

/-- **The reader settles on the right radix.** Behind a mark it is that of the mark, and decimal
digits are never taken for a mark and something else. -/
theorem exists_mark_iff :
    (∃ mark, text = mark ++ digits ∧ (mark, radix) ∈ radixMarks) ∧
        digits.all (isDigitOf radix) = true ↔
      splitRadix text = (radix, digits) ∧ digits.all (isDigitOf radix) = true := by
  refine and_congr_left fun each => ⟨?_, fun split => ?_⟩
  · rintro ⟨mark, rfl, listed⟩
    rcases radixMarks_sound _ listed with bare | ⟨letter, written, announces⟩
    · obtain ⟨rfl, rfl⟩ := Prod.mk.inj bare
      rcases splitRadix_cases digits with decimal | ⟨letter, rest, radix, rfl, announces, -⟩
      · exact decimal
      · rw [List.all_cons, List.all_cons, isDigitOf_of_radixOf? announces, Bool.false_and,
          Bool.and_false] at each
        cases each
    · dsimp only at written announces
      subst written
      rw [List.cons_append, List.cons_append, List.nil_append, splitRadix, announces]
  · rcases splitRadix_cases text with decimal | ⟨letter, rest, known, rfl, announces, marked⟩
    · obtain ⟨rfl, rfl⟩ := Prod.mk.inj (decimal.symm.trans split)
      exact ⟨[], rfl, by decide⟩
    · obtain ⟨rfl, rfl⟩ := Prod.mk.inj (marked.symm.trans split)
      exact ⟨['0', letter], rfl, mem_radixMarks_of_radixOf? announces⟩

/-! ## Literals -/

theorem splitRadix_fst_le (text : List Char) : (splitRadix text).1 ≤ 16 := by
  rcases splitRadix_cases text with decimal | ⟨letter, rest, radix, -, announces, marked⟩
  · rw [decimal]
    exact Nat.le_of_ble_eq_true rfl
  · rw [marked]
    have small : ∀ radix ∈ [2, 8, 10, 16], radix ≤ 16 := by decide
    exact small radix (toNat_lt_of_radixOf? announces).2

theorem magnitude?_eq_some_iff : magnitude? text = some magnitude ↔ Unsigned text magnitude := by
  have bounded := splitRadix_fst_le text
  have whole : magnitude? text = some magnitude ↔
      Numeral (splitRadix text).1 (splitRadix text).2 magnitude ∧ magnitude < 2 ^ 63 := by
    rw [numeral_iff bounded]
    simp only [magnitude?]
    constructor
    · intro read
      split at read
      · rename_i proper
        cases read
        exact ⟨⟨⟨proper.1, proper.2.1⟩, rfl⟩, proper.2.2⟩
      · cases read
    · rintro ⟨⟨⟨nonempty, each⟩, rfl⟩, fits⟩
      rw [if_pos ⟨nonempty, each, fits⟩]
  rw [whole]
  constructor
  · rintro ⟨numeral, fits⟩
    have each := ((numeral_iff bounded).mp numeral).1.2
    obtain ⟨⟨mark, written, listed⟩, -⟩ := exists_mark_iff.mpr ⟨rfl, each⟩
    rw [written]
    exact .marked listed numeral fits
  · rintro ⟨listed, numeral, fits⟩
    rename_i mark digits radix
    have small : radix ≤ 16 := by
      have each : ∀ entry ∈ radixMarks, entry.2 ≤ 16 := by decide
      exact each _ listed
    have each := ((numeral_iff small).mp numeral).1.2
    have split := (exists_mark_iff.mp ⟨⟨mark, rfl, listed⟩, each⟩).1
    rw [split]
    exact ⟨numeral, fits⟩

theorem not_unsigned_of_minus : ¬ Unsigned ('-' :: text) magnitude := by
  intro number
  have digits : ('-' :: text).all (isDigitOf 10) = false := rfl
  have refused : magnitude? ('-' :: text) = none := by
    rw [magnitude?, show splitRadix ('-' :: text) = (10, '-' :: text) from rfl]
    dsimp only
    rw [digits, if_neg fun proper => Bool.false_ne_true proper.2.1]
  cases refused.symm.trans (magnitude?_eq_some_iff.mpr number)

theorem integer?_minus (text : List Char) :
    integer? ('-' :: text) = (magnitude? text).map fun magnitude : Nat => -(magnitude : Int) := by
  rw [integer?]
  cases magnitude? text <;> rfl

theorem integer?_of_unsigned (unsigned : ∀ rest, text ≠ '-' :: rest) :
    integer? text = (magnitude? text).map fun magnitude : Nat => (magnitude : Int) := by
  rw [integer?.eq_2 text unsigned]
  cases magnitude? text <;> rfl

/-- **The reader of literals accepts the literals, with their values, and nothing else.** -/
theorem integer?_eq_some_iff {value : Int} : integer? text = some value ↔ Literal text value := by
  by_cases minus : ∃ rest, text = '-' :: rest
  · obtain ⟨rest, rfl⟩ := minus
    rw [integer?_minus, Option.map_eq_some_iff]
    simp only [magnitude?_eq_some_iff]
    constructor
    · rintro ⟨magnitude, number, rfl⟩
      exact .negative number
    · intro literal
      cases literal with
      | positive number => exact absurd number not_unsigned_of_minus
      | negative number => exact ⟨_, number, rfl⟩
  · have unsigned : ∀ rest, text ≠ '-' :: rest := fun rest same => minus ⟨rest, same⟩
    rw [integer?_of_unsigned unsigned, Option.map_eq_some_iff]
    simp only [magnitude?_eq_some_iff]
    constructor
    · rintro ⟨magnitude, number, rfl⟩
      exact .positive number
    · intro literal
      cases literal with
      | positive number => exact ⟨_, number, rfl⟩
      | negative number => exact absurd rfl (unsigned _)

theorem integer?_eq_none_iff : integer? text = none ↔ ∀ value, ¬ Literal text value := by
  rw [Option.eq_none_iff_forall_ne_some]
  exact forall_congr' fun value => not_congr integer?_eq_some_iff

/-! ## Identifiers -/

theorem startsIdentifier_iff : startsIdentifier c = true ↔ IsLetter c ∨ c = '_' := by
  rw [startsIdentifier, Bool.or_eq_true_iff, isAlpha_iff, beq_iff_eq]

theorem continuesIdentifier_iff :
    continuesIdentifier c = true ↔ IsLetter c ∨ IsDecimal c ∨ c = '_' := by
  rw [continuesIdentifier, Bool.or_eq_true_iff, Char.isAlphanum, Bool.or_eq_true_iff, isAlpha_iff,
    isDigit_iff, beq_iff_eq, or_assoc]

/-- **The reader of identifiers accepts the identifiers and nothing else.** -/
theorem isIdentifier_iff : isIdentifier text = true ↔ Identifier text := by
  cases text with
  | nil =>
      constructor
      · intro named
        cases named
      · intro named
        cases named
  | cons first rest =>
      rw [isIdentifier, Bool.and_eq_true_iff, startsIdentifier_iff, List.all_eq_true]
      simp only [continuesIdentifier_iff]
      constructor
      · rintro ⟨starts, continues⟩
        exact .named starts continues
      · rintro ⟨starts, continues⟩
        exact ⟨starts, continues⟩

/-- No literal is an identifier. -/
theorem Literal.not_identifier {value : Int} (literal : Literal text value) : ¬ Identifier text := by
  intro named
  have none := integer?_of_isIdentifier (isIdentifier_iff.mpr named)
  cases none.symm.trans (integer?_eq_some_iff.mpr literal)

/-! ## Kinds of constants -/

/-- What a constant can be. -/
inductive Constant where
  | literal (value : Int)
  | label
  | illegal

namespace Constant

/-- The text of a constant, by its kind. -/
inductive Of (text : List Char) : Constant → Prop where
  | literal {value : Int} (number : Literal text value) : Of text (.literal value)
  | label (named : Identifier text) : Of text .label
  | illegal (unnumbered : ∀ value, ¬ Literal text value) (unnamed : ¬ Identifier text) :
      Of text .illegal

/-- **Every text is a constant of exactly one kind.** -/
theorem existsUnique_of (text : List Char) : ∃! kind, Of text kind := by
  by_cases numbered : ∃ value, Literal text value
  · obtain ⟨value, number⟩ := numbered
    refine ⟨.literal value, .literal number, fun other kind => ?_⟩
    cases kind with
    | literal again =>
        have one := integer?_eq_some_iff.mpr number
        cases one.symm.trans (integer?_eq_some_iff.mpr again)
        rfl
    | label named => exact absurd named number.not_identifier
    | illegal unnumbered => exact absurd number (unnumbered value)
  · have unnumbered : ∀ value, ¬ Literal text value := fun value number => numbered ⟨value, number⟩
    by_cases named : Identifier text
    · refine ⟨.label, .label named, fun other kind => ?_⟩
      cases kind with
      | literal number => exact absurd number (unnumbered _)
      | label => rfl
      | illegal _ unnamed => exact absurd named unnamed
    · refine ⟨.illegal, .illegal unnumbered named, fun other kind => ?_⟩
      cases kind with
      | literal number => exact absurd number (unnumbered _)
      | label again => exact absurd again named
      | illegal => rfl

end Constant

/-- The number of a constant, all labels being known. -/
def Constant.number (symbols : SymbolTable) (text : List Char) (least greatest : Int) :
    Constant → Except StatementError Int
  | .literal value => checkRange value least greatest
  | .label =>
      match symbols.address? (String.ofList text) with
      | some address => checkRange address.toNat least greatest
      | none => .error (.unresolvedSymbol (String.ofList text))
  | .illegal => .error (.illegalConstant (String.ofList text))

/-- The immediate of a constant. A label may come later. -/
def Constant.immediate (symbols : SymbolTable) (text : List Char) :
    Constant → Except StatementError Immediate
  | .literal value =>
      (checkRange value Scope.leastImmediate Scope.greatestImmediate).map fun number =>
        .value (UInt16.ofInt number)
  | .label =>
      match symbols.address? (String.ofList text) with
      | some address =>
          (checkRange address.toNat 0 Scope.greatestImmediate).map fun number =>
            .value (UInt16.ofInt number)
      | none => .ok (.forward (String.ofList text))
  | .illegal => .error (.illegalConstant (String.ofList text))

namespace Scope

variable {scope : Scope} {operand : List Char} {kind : Constant}

theorem constant_of_kind (expands : scope.expand operand = .ok text) (classified : kind.Of text)
    (least greatest : Int) :
    scope.constant operand least greatest = kind.number scope.symbols text least greatest := by
  simp only [constant, expands, bind, Except.bind]
  cases classified with
  | literal number => rw [integer?_eq_some_iff.mpr number, Constant.number]
  | label named =>
      have letters := isIdentifier_iff.mpr named
      rw [integer?_of_isIdentifier letters, letters, Constant.number]
      rfl
  | illegal unnumbered unnamed =>
      have refused := eq_false_of_ne_true (mt isIdentifier_iff.mp unnamed)
      rw [integer?_eq_none_iff.mpr unnumbered, refused, Constant.number]
      rfl

theorem immediate_of_kind (expands : scope.expand operand = .ok text) (classified : kind.Of text) :
    scope.immediate operand = kind.immediate scope.symbols text := by
  simp only [immediate, expands, bind, Except.bind]
  cases classified with
  | literal number =>
      rw [integer?_eq_some_iff.mpr number, Constant.immediate]
      rfl
  | label named =>
      have letters := isIdentifier_iff.mpr named
      rw [integer?_of_isIdentifier letters, letters, Constant.immediate]
      rfl
  | illegal unnumbered unnamed =>
      have refused := eq_false_of_ne_true (mt isIdentifier_iff.mp unnamed)
      rw [integer?_eq_none_iff.mpr unnumbered, refused, Constant.immediate]
      rfl

end Scope

end WordMachine.Assembly
