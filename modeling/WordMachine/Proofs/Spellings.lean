import Mathlib.Data.List.Forall2
import WordMachine.Proofs.InstructionStream
import WordMachine.Proofs.Splicing
import WordMachine.Proofs.WrittenForm

/-!
# Spellings

A statement need not be written as a listing shows it. Case does not matter in a mnemonic and in the
name of a register, a register may leave out its view, a number has many forms, and there may be
blanks around an operand. All that is needed is that the mnemonic is one, that each operand is
accepted for a register or for a number (`Assembly.Operand.Spelled`), and that commas part them.

What is accepted never holds a character that would end it early, a comma or a colon say
(`Assembly.Operand.Spelled.piece`), since no such character comes from one of another case. So the
statement is taken apart into just its parts, and it is read as the instruction that has its
operands, in written order, in the fields of its format (`Assembly.Scope.statement_spelled`).
-/

set_option autoImplicit false

namespace WordMachine

open WordMachine.Text
open WordMachine.Assembly

/-! ## Blanks around a text -/

namespace Text

variable {text blanks : List Char}

theorem trimEnd_append_blanks (blank : ∀ c ∈ blanks, isBlank c = true) :
    trimEnd (text ++ blanks) = trimEnd text := by
  have turned : ∀ c ∈ blanks.reverse, isBlank c = true := fun c stands =>
    blank c (List.mem_reverse.mp stands)
  rw [trimEnd, List.reverse_append, List.dropWhile_append_of_pos turned, trimEnd]

theorem trim_append_blanks (blank : ∀ c ∈ blanks, isBlank c = true) {front core : List Char}
    (leading : ∀ c ∈ front, isBlank c = true) (framed : Framed core) :
    trim (front ++ core ++ blanks) = core := by
  have started : trimStart (front ++ core ++ blanks) = core ++ blanks := by
    obtain ⟨c, rest, rfl, solid⟩ := framed.first
    rw [trimStart, List.append_assoc, List.dropWhile_append_of_pos leading]
    exact List.dropWhile_cons_of_neg (by simp [solid])
  rw [trim, started, trimEnd_append_blanks blank, framed.trimEnd_eq]

/-- A text is what is left when it is trimmed, with blanks on either side. -/
theorem exists_blanks (text : List Char) :
    ∃ front back, (∀ c ∈ front, isBlank c = true) ∧ (∀ c ∈ back, isBlank c = true) ∧
      text = front ++ trim text ++ back := by
  refine ⟨text.takeWhile isBlank, ((trimStart text).reverse.takeWhile isBlank).reverse,
    fun c stands => List.mem_takeWhile_imp stands,
    fun c stands => List.mem_takeWhile_imp (List.mem_reverse.mp stands), ?_⟩
  have back : trimStart text =
      trim text ++ ((trimStart text).reverse.takeWhile isBlank).reverse := by
    rw [trim, trimEnd, ← List.reverse_append, List.takeWhile_append_dropWhile, List.reverse_reverse]
  rw [List.append_assoc, ← back, trimStart, List.takeWhile_append_dropWhile]

end Text

/-! ## Characters that end a part -/

namespace Assembly

/-- The characters that end a part of a statement. -/
def endings : List Char :=
  (blankRanges.flatMap fun range =>
      (List.range (range.2 - range.1 + 1)).map fun step => Char.ofNat (range.1 + step)) ++
    [',', ':', ';', '\\']

theorem mem_endings {c : Char} (ends : isSolid c = false) : c ∈ endings := by
  rw [endings, List.mem_append]
  by_cases blank : isBlank c = true
  · obtain ⟨range, listed, within⟩ := List.any_eq_true.mp blank
    rw [Bool.and_eq_true, decide_eq_true_eq, decide_eq_true_eq] at within
    refine .inl (List.mem_flatMap.mpr ⟨range, listed, List.mem_map.mpr
      ⟨c.toNat - range.1, List.mem_range.mpr (by omega), ?_⟩⟩)
    rw [Nat.add_sub_cancel' within.1, Char.ofNat_toNat]
  · refine .inr ?_
    by_contra others
    simp only [List.mem_cons, List.not_mem_nil, or_false, not_or] at others
    rw [isSolid_iff.mpr ⟨Bool.eq_false_iff.mpr blank, others⟩] at ends
    cases ends

/-- They are no letters and no digits, and they are their own capitals. -/
theorem plain_endings : ∀ c ∈ endings,
    upperChar c = [c] ∧ c.isAlphanum = false ∧ radixOf? c = none := by
  have each : endings.all (fun c =>
      decide (upperChar c = [c] ∧ c.isAlphanum = false ∧ radixOf? c = none)) = true := by
    decide +kernel
  exact fun c listed => of_decide_eq_true (List.all_eq_true.mp each c listed)

/-- Among characters of a kind that no ending is of, all are solid. -/
theorem isSolid_of_kind (kind : Char → Prop) (others : ∀ c ∈ endings, ¬ kind c) {c : Char}
    (same : kind c) : isSolid c = true := by
  cases ends : isSolid c with
  | true => rfl
  | false => exact absurd same (others c (mem_endings ends))

theorem piece_of_all {text : List Char} (nonempty : text ≠ []) (each : text.all isSolid = true) :
    Piece text :=
  ⟨nonempty, List.all_eq_true.mp each⟩

/-! ## Capitals -/

/-- What is a piece in capitals is a piece. -/
theorem piece_of_upper {text : List Char} (piece : Piece (upper text)) : Piece text where
  nonempty := by
    rintro rfl
    exact piece.nonempty rfl
  solid c stands := by
    cases ends : isSolid c with
    | true => rfl
    | false =>
        have kept : c ∈ upper text := List.mem_flatMap.mpr ⟨c, stands, by
          rw [(plain_endings c (mem_endings ends)).1]
          exact List.mem_cons_self⟩
        rw [← ends]
        exact piece.solid c kept

theorem Form.piece_of_mem_mnemonics : ∀ mnemonic ∈ mnemonics, Piece mnemonic.toList := by
  have each : ∀ mnemonic ∈ mnemonics,
      mnemonic.toList ≠ [] ∧ mnemonic.toList.all isSolid = true := by
    decide +kernel
  intro mnemonic listed
  exact piece_of_all (each mnemonic listed).1 (each mnemonic listed).2

/-- No blank and no comma is within a mnemonic. -/
theorem piece_of_ofMnemonic? {mnemonic : List Char} {form : Form}
    (found : Form.ofMnemonic? (String.ofList (upper mnemonic)) = some form) : Piece mnemonic := by
  have capitals := Form.piece_of_mem_mnemonics _ (Form.mem_mnemonics_of_ofMnemonic? found)
  rw [String.toList_ofList] at capitals
  exact piece_of_upper capitals

end Assembly

/-! ## Registers -/

namespace Register

theorem piece_of_mem_names : ∀ entry ∈ names, Piece entry.1 := by
  have each : ∀ entry ∈ names, entry.1 ≠ [] ∧ entry.1.all isSolid = true := by
    decide +kernel
  intro entry listed
  exact piece_of_all (each entry listed).1 (each entry listed).2

/-- No blank and no comma is within the name of a register. -/
theorem piece_of_parse? {text : List Char} {register : Register}
    (named : parse? text = some register) : Piece (trim text) := by
  refine piece_of_upper ?_
  rw [parse?] at named
  split at named
  · rename_i capitals
    rw [capitals]
    exact piece_of_all (List.cons_ne_nil _ _) (by decide)
  · rename_i capitals
    rw [capitals]
    exact piece_of_all (List.cons_ne_nil _ _) (by decide)
  · obtain ⟨before, after, whole, -⟩ := List.lookup_eq_some_iff.mp named
    have piece := piece_of_mem_names (complete (upper (trim text)), register) (by
      rw [whole]
      exact List.mem_append_right _ List.mem_cons_self)
    constructor
    · intro nothing
      rw [nothing] at piece
      exact piece.nonempty rfl
    · intro c stands
      refine piece.solid c ?_
      rw [complete]
      split
      · split
        · exact List.mem_append_left _ stands
        · exact stands
      · exact stands

end Register

/-! ## Numbers -/

namespace Assembly

/-- A number is written in decimal or has its radix in front. -/
theorem splitRadix_cases (text : List Char) :
    splitRadix text = (10, text) ∨
      ∃ letter rest radix, text = '0' :: letter :: rest ∧ radixOf? letter = some radix ∧
        splitRadix text = (radix, rest) := by
  unfold splitRadix
  split
  · rename_i letter rest
    cases known : radixOf? letter with
    | none => exact .inl rfl
    | some radix => exact .inr ⟨letter, rest, radix, rfl, known, rfl⟩
  · exact .inl rfl

theorem piece_of_digits {radix : Nat} {digits : List Char} (nonempty : digits ≠ [])
    (each : digits.all (isDigitOf radix) = true) : Piece digits where
  nonempty := nonempty
  solid c stands := by
    refine isSolid_of_kind (isDigitOf radix · = true) (fun other listed same => ?_)
      (List.all_eq_true.mp each c stands)
    simp only [isDigitOf, (plain_endings other listed).2.1, Bool.false_and, Bool.false_eq_true] at same

theorem piece_of_magnitude? {text : List Char} {value : Nat}
    (found : magnitude? text = some value) : Piece text := by
  simp only [magnitude?] at found
  split at found
  · rename_i digits
    obtain ⟨nonempty, each, -⟩ := digits
    rcases splitRadix_cases text with decimal | ⟨letter, rest, radix, rfl, announces, split⟩
    · rw [decimal] at nonempty each
      exact piece_of_digits nonempty each
    · rw [split] at nonempty each
      have solid : isSolid letter = true :=
        isSolid_of_kind (radixOf? · = some radix) (fun other listed same => by
          rw [(plain_endings other listed).2.2] at same
          cases same) announces
      exact ⟨List.cons_ne_nil _ _, List.forall_mem_cons.mpr
        ⟨by decide, List.forall_mem_cons.mpr ⟨solid, (piece_of_digits nonempty each).solid⟩⟩⟩
  · cases found

/-- No blank and no comma is within a number. -/
theorem piece_of_integer? {text : List Char} {value : Int} (found : integer? text = some value) :
    Piece text := by
  unfold integer? at found
  split at found
  · rename_i rest
    cases digits : magnitude? rest with
    | none =>
        rw [digits] at found
        cases found
    | some magnitude =>
        exact ⟨List.cons_ne_nil _ _,
          List.forall_mem_cons.mpr ⟨by decide, (piece_of_magnitude? digits).solid⟩⟩
  · cases digits : magnitude? text with
    | none =>
        rw [digits] at found
        cases found
    | some magnitude => exact piece_of_magnitude? digits

/-! ## Operands -/

/-- An operand as it is meant. -/
inductive Operand where
  | register (view : Register)
  | literal (value : Int)
  deriving DecidableEq, Repr

namespace Operand

/-- The text is accepted for the operand. -/
def Spelled : Operand → List Char → Prop
  | .register view, text => Register.parse? text = some view
  | .literal value, text =>
      integer? (trim text) = some value ∧ Scope.leastImmediate ≤ value ∧
        value ≤ Scope.greatestImmediate

instance (operand : Operand) (text : List Char) : Decidable (operand.Spelled text) :=
  match operand with
  | .register view => inferInstanceAs (Decidable (Register.parse? text = some view))
  | .literal value => inferInstanceAs (Decidable (integer? (trim text) = some value ∧
      Scope.leastImmediate ≤ value ∧ value ≤ Scope.greatestImmediate))

variable {operand : Operand} {text : List Char}

/-- No character of an operand ends it early, blanks around it apart. -/
theorem Spelled.piece (spelled : operand.Spelled text) : Piece (trim text) := by
  cases operand with
  | register view =>
      rw [Spelled] at spelled
      exact Register.piece_of_parse? spelled
  | literal value =>
      rw [Spelled] at spelled
      exact piece_of_integer? spelled.1

/-- Blanks around an operand do not count. -/
theorem Spelled.of_trim {other : List Char} (spelled : operand.Spelled text)
    (same : trim other = trim text) : operand.Spelled other := by
  cases operand with
  | register view =>
      rw [Spelled, Register.parse?, same]
      exact spelled
  | literal value =>
      rw [Spelled, same]
      exact spelled

theorem Spelled.trim (spelled : operand.Spelled text) : operand.Spelled (trim text) :=
  spelled.of_trim spelled.piece.framed.trim_eq

theorem pieces_of_spelled {written : List Operand} {texts : List (List Char)}
    (spelled : List.Forall₂ Spelled written texts) : ∀ text ∈ texts, Piece (Text.trim text) := by
  induction spelled with
  | nil => exact fun _ stands => nomatch stands
  | cons first more ih => exact List.forall_mem_cons.mpr ⟨first.piece, ih⟩

theorem spelled_of_map_trim {written : List Operand} {texts others : List (List Char)}
    (spelled : List.Forall₂ Spelled written texts)
    (same : others.map Text.trim = texts.map Text.trim) : List.Forall₂ Spelled written others := by
  induction spelled generalizing others with
  | nil =>
      rw [List.map_eq_nil_iff.mp same]
      exact .nil
  | cons first more ih =>
      obtain ⟨text, rest, rfl, trims, later⟩ := List.map_eq_cons_iff.mp same
      exact .cons (first.of_trim trims) (ih later)

end Operand

/-! ## Statements taken apart -/

/-- A mnemonic and, after a blank, operands parted by commas. -/
def spelledLine (mnemonic : List Char) (texts : List (List Char)) : List Char :=
  mnemonic ++ ' ' :: [','].intercalate texts

section Line

variable {mnemonic : List Char} {texts : List (List Char)}

theorem mem_of_trim {text : List Char} {c : Char} (stands : c ∈ text) :
    c ∈ trim text ∨ isBlank c = true := by
  obtain ⟨front, back, leading, trailing, whole⟩ := exists_blanks text
  rw [whole, List.mem_append, List.mem_append] at stands
  rcases stands with (blank | inside) | blank
  · exact .inr (leading c blank)
  · exact .inl inside
  · exact .inr (trailing c blank)

/-- The characters of such a line are those of its parts, commas and blanks. -/
theorem mem_spelledLine {c : Char} (named : Piece mnemonic)
    (pieces : ∀ text ∈ texts, Piece (trim text)) (stands : c ∈ spelledLine mnemonic texts) :
    isSolid c = true ∨ c = ',' ∨ isBlank c = true := by
  rw [spelledLine, List.mem_append, List.mem_cons] at stands
  rcases stands with front | rfl | back
  · exact .inl (named.solid c front)
  · exact .inr (.inr rfl)
  · rcases mem_intercalate back with ⟨text, operand, inside⟩ | between
    · rcases mem_of_trim inside with solid | blank
      · exact .inl ((pieces text operand).solid c solid)
      · exact .inr (.inr blank)
    · exact .inr (.inl (List.mem_singleton.mp between))

theorem ne_of_mem_spelledLine {c ending : Char} (named : Piece mnemonic)
    (pieces : ∀ text ∈ texts, Piece (trim text))
    (ends : isSolid ending = false ∧ ending ≠ ',' ∧ isBlank ending = false)
    (stands : c ∈ spelledLine mnemonic texts) : c ≠ ending := by
  rintro rfl
  rcases mem_spelledLine named pieces stands with solid | comma | blank
  · rw [ends.1] at solid
    cases solid
  · exact ends.2.1 comma
  · rw [ends.2.2] at blank
    cases blank

theorem exists_intercalate (separator : List Char) (texts : List (List Char)) :
    ∃ front, ∀ last, separator.intercalate (texts ++ [last]) = front ++ last := by
  by_cases nonempty : texts = []
  · exact ⟨[], fun last => by rw [nonempty, List.nil_append, List.intercalate_singleton]; rfl⟩
  · exact ⟨separator.intercalate texts ++ separator, intercalate_concat separator nonempty⟩

/-- Without the blanks at its end the line has the same parts. -/
theorem exists_trim_spelledLine (named : Piece mnemonic) (nonempty : texts ≠ [])
    (pieces : ∀ text ∈ texts, Piece (trim text)) :
    ∃ others, others ≠ [] ∧ others.map trim = texts.map trim ∧
      Framed (spelledLine mnemonic others) ∧
      trimEnd (spelledLine mnemonic texts) = spelledLine mnemonic others := by
  obtain ⟨init, last, rfl⟩ : ∃ init last, texts = init ++ [last] :=
    ⟨_, _, (List.dropLast_concat_getLast nonempty).symm⟩
  have piece := pieces last (List.mem_append_right _ List.mem_cons_self)
  obtain ⟨front, back, leading, trailing, whole⟩ := exists_blanks last
  generalize trim last = core at piece whole
  obtain ⟨head, joined⟩ := exists_intercalate [','] init
  have shorter : spelledLine mnemonic (init ++ [front ++ core]) =
      mnemonic ++ (' ' :: (head ++ front)) ++ core := by
    rw [spelledLine, joined]
    simp
  have ended : spelledLine mnemonic (init ++ [last]) =
      spelledLine mnemonic (init ++ [front ++ core]) ++ back := by
    rw [shorter, spelledLine, joined, whole]
    simp
  have framed : Framed (spelledLine mnemonic (init ++ [front ++ core])) := by
    rw [shorter]
    exact named.framed.append _ piece.framed
  refine ⟨init ++ [front ++ core], by simp, ?_, framed, ?_⟩
  · rw [List.map_append, List.map_append, List.map_singleton, List.map_singleton, whole,
      trim_append_blanks trailing leading piece.framed, Framed.trim_append leading piece.framed]
  · rw [ended, trimEnd_append_blanks trailing, framed.trimEnd_eq]

/-- **A line is taken apart into its mnemonic and its operands**, which lose the blanks around
them. -/
theorem splitStatement_spelledLine (named : Piece mnemonic) (nonempty : texts ≠ [])
    (pieces : ∀ text ∈ texts, Piece (trim text)) :
    splitStatement (spelledLine mnemonic texts) = (mnemonic, texts.map trim) := by
  obtain ⟨others, some_left, same, framed, ended⟩ := exists_trim_spelledLine named nonempty pieces
  have solid : ∀ c ∈ mnemonic, (!isBlank c) = true := by
    intro c stands
    rw [(isSolid_iff.mp (named.solid c stands)).1]
    rfl
  have trimmed : trim (spelledLine mnemonic texts) = spelledLine mnemonic others := by
    have started : trimStart (spelledLine mnemonic texts) = spelledLine mnemonic texts := by
      obtain ⟨c, rest, rfl, opens⟩ := named.framed.first
      exact List.dropWhile_cons_of_neg (by simp [opens])
    rw [trim, started, ended]
  have uncut : ∀ text ∈ others, ',' ∉ text := by
    intro text listed comma
    have kept : trim text ∈ texts.map trim := same ▸ List.mem_map_of_mem listed
    obtain ⟨original, stands, trims⟩ := List.mem_map.mp kept
    rcases mem_of_trim comma with inside | blank
    · exact not_mem_of_piece (trims ▸ pieces original stands) inside
    · cases blank
  rw [splitStatement, trimmed, spelledLine, List.span_eq_takeWhile_dropWhile,
    List.takeWhile_append_of_pos solid, List.dropWhile_append_of_pos solid,
    List.takeWhile_cons_of_neg (by decide), List.dropWhile_cons_of_neg (by decide), List.append_nil]
  refine congrArg (Prod.mk mnemonic) ?_
  rw [← same]
  obtain ⟨first, rest, rfl⟩ := List.exists_cons_of_ne_nil some_left
  rw [List.forall_mem_cons] at uncut
  have spaced : ' ' :: [','].intercalate (first :: rest) =
      [','].intercalate ((' ' :: first) :: rest) := by
    cases rest with
    | nil => rw [List.intercalate_singleton, List.intercalate_singleton]
    | cons => rw [List.intercalate_cons_cons, List.intercalate_cons_cons]; rfl
  have apart : ∀ text ∈ (' ' :: first) :: rest, ',' ∉ text :=
    List.forall_mem_cons.mpr ⟨fun comma => uncut.1 (List.mem_of_ne_of_mem (by decide) comma), uncut.2⟩
  rw [spaced, List.splitOn_intercalate ',' apart (List.cons_ne_nil _ _)]
  rfl

end Line

/-- A line without a newline is the only line of its text. -/
theorem logicalLines_of_single (file : String) {line : List Char} (single : '\n' ∉ line)
    (framed : Framed (trimEnd line)) (closed : '\\' ∉ trimEnd line) :
    logicalLines file (String.ofList line) = [⟨⟨file, 1⟩, trimEnd line⟩] := by
  have left : line ≠ [] := by
    rintro rfl
    exact framed.ne_nil rfl
  have open_end : continued? (trimEnd line) = none := by
    rw [continued?, if_neg]
    intro last
    exact closed (List.mem_of_getLast? last)
  have physical : physicalLines line = [line] := by
    rw [physicalLines, List.splitOn_eq_singleton single]
    simp [left]
  rw [logicalLines, String.toList_ofList, physical, joinLines]
  simp only [if_neg framed.ne_nil, open_end]
  rfl

/-! ## Statements read -/

/-- The operands of an instruction, given in the order in which they are written. -/
inductive Operand.Arranged : List Operand → Operands → Prop where
  | imm (value : Int) : Arranged [.literal value] (.imm (.ofInt value))
  | immReg (ra : Register) (value : Int) :
      Arranged [.register ra, .literal value] (.immReg (.ofInt value) ra)
  | immRegReg (ra : Register) (value : Int) (rb : Register) :
      Arranged [.register ra, .literal value, .register rb] (.immRegReg (.ofInt value) rb ra)
  | regRegReg (ra rc rb : Register) :
      Arranged [.register ra, .register rc, .register rb] (.regRegReg rc rb ra)
  | regRegRegReg (ra rb rd rc : Register) :
      Arranged [.register ra, .register rb, .register rd, .register rc]
        (.regRegRegReg rd rc rb ra)

theorem Operand.Arranged.texts_ne_nil {written : List Operand} {operands : Operands}
    {texts : List (List Char)} (arranged : Arranged written operands)
    (spelled : List.Forall₂ Spelled written texts) : texts ≠ [] := by
  rintro rfl
  cases spelled
  cases arranged

namespace Scope

variable {scope : Scope} {text : List Char}

theorem register_spelled (known : scope.macros = .empty) {view : Register}
    (spelled : (Operand.register view).Spelled text) : scope.register (trim text) = .ok view := by
  have named := spelled.trim
  rw [Operand.Spelled] at named
  simp only [Scope.register, expand_of_piece known spelled.piece, bind, Except.bind, named]
  rfl

theorem immediate_spelled (known : scope.macros = .empty) {value : Int}
    (spelled : (Operand.literal value).Spelled text) :
    scope.immediate (trim text) = .ok (.value (.ofInt value)) := by
  have piece := spelled.piece
  rw [Operand.Spelled] at spelled
  obtain ⟨number, least, greatest⟩ := spelled
  have within : ¬ (value < leastImmediate ∨ greatestImmediate < value) := by omega
  simp only [Scope.immediate, expand_of_piece known piece, bind, Except.bind, number, checkRange,
    if_neg within]
  rfl

/-- **A statement is read as the instruction that has its operands in written order**, as long as
there are no macros. -/
theorem statement_spelled (known : scope.macros = .empty) {mnemonic : String} {opcode : Opcode}
    {written : List Operand} {texts : List (List Char)} {operands : Operands}
    (found : Form.ofMnemonic? mnemonic = some (.plain opcode))
    (arranged : Operand.Arranged written operands) (agrees : operands.format = opcode.format)
    (operation : opcode ≠ .leave) (spelled : List.Forall₂ Operand.Spelled written texts) :
    scope.statement mnemonic (texts.map trim) = .ok ⟨⟨opcode, operands⟩, none⟩ := by
  have nonempty : texts.map trim ≠ [] := mt List.map_eq_nil_iff.mp (arranged.texts_ne_nil spelled)
  have counted : expectOperands mnemonic (texts.map trim) (writtenOperands opcode) = .ok () := by
    rw [expectOperands, writtenOperands, if_neg operation, ← agrees, List.length_map,
      ← spelled.length_eq]
    cases arranged <;> rfl
  rw [statement_of_plain found nonempty]
  unfold plainStatement
  rw [counted, ← agrees]
  cases arranged with
  | imm value =>
      obtain _ | ⟨first, ⟨⟩⟩ := spelled
      simp only [List.map, Operands.format, immediate_spelled known first, bind, Except.bind]
      rfl
  | immReg ra value =>
      obtain _ | ⟨first, _ | ⟨second, ⟨⟩⟩⟩ := spelled
      simp only [List.map, Operands.format, register_spelled known first,
        immediate_spelled known second, bind, Except.bind]
      rfl
  | immRegReg ra value rb =>
      obtain _ | ⟨first, _ | ⟨second, _ | ⟨third, ⟨⟩⟩⟩⟩ := spelled
      simp only [List.map, Operands.format, register_spelled known first,
        immediate_spelled known second, register_spelled known third, bind, Except.bind]
      rfl
  | regRegReg ra rc rb =>
      obtain _ | ⟨first, _ | ⟨second, _ | ⟨third, ⟨⟩⟩⟩⟩ := spelled
      simp only [List.map, Operands.format, register_spelled known first,
        register_spelled known second, register_spelled known third, bind, Except.bind]
      rfl
  | regRegRegReg ra rb rd rc =>
      obtain _ | ⟨first, _ | ⟨second, _ | ⟨third, _ | ⟨fourth, ⟨⟩⟩⟩⟩⟩ := spelled
      simp only [List.map, Operands.format, register_spelled known first,
        register_spelled known second, register_spelled known third,
        register_spelled known fourth, bind, Except.bind]
      rfl

end Scope

end Assembly

/-! ## Lines assembled -/

namespace Assembler

section Lines

variable {mnemonic : List Char} {opcode : Opcode} {written : List Operand}
  {texts : List (List Char)} {operands : Operands}
  (found : Form.ofMnemonic? (String.ofList (upper mnemonic)) = some (.plain opcode))
  (arranged : Operand.Arranged written operands) (agrees : operands.format = opcode.format)
  (operation : opcode ≠ .leave) (spelled : List.Forall₂ Operand.Spelled written texts)
include found arranged agrees operation spelled

/-- Reading a line emits the instruction that has its operands in written order. -/
theorem readLine_spelled (source : Source) (place : SourceLine) {start : Assembler}
    (known : start.scope.macros = .empty) :
    readLine source ⟨place, spelledLine mnemonic texts⟩ start =
      .ok () (start.append place ⟨⟨opcode, operands⟩, none⟩
        (Instruction.canonicalEncoding ⟨opcode, operands⟩)) := by
  have named := piece_of_ofMnemonic? found
  have pieces := Operand.pieces_of_spelled spelled
  have nonempty := arranged.texts_ne_nil spelled
  rw [readLine, stripComment_of_not_mem fun _ => ne_of_mem_spelledLine named pieces (by decide),
    splitLabel_of_not_mem fun _ => ne_of_mem_spelledLine named pieces (by decide)]
  dsimp only
  rw [readStatement_of_form (splitStatement_spelledLine named nonempty pieces) found]
  have read := Scope.statement_spelled known found arranged agrees operation spelled
  have encoded := @Instruction.encoding_of_wellFormed ⟨opcode, operands⟩ agrees
  rw [run_get_bind, read]
  exact run_bind_eq_ok.mpr ⟨_, _, rfl, by simp only [emit, encoded]; rfl⟩

/-- **A line alone is assembled to the bytes of its instruction.** -/
theorem assembleAll_spelled (source : Source) (allowance : Nat) (place : SourceLine) :
    ∃ final, assembleAll source allowance
        { initial with queue := [⟨place, spelledLine mnemonic texts⟩] } =
      .ok (Instruction.canonicalBytes ⟨opcode, operands⟩).toArray final := by
  let line : LogicalLine := ⟨place, spelledLine mnemonic texts⟩
  let after := initial.append place ⟨⟨opcode, operands⟩, none⟩
    (Instruction.canonicalEncoding ⟨opcode, operands⟩)
  have read : (Turn.next source { initial with queue := [line] } line []).outcome = .ok () after :=
    readLine_spelled found arranged agrees operation spelled source place rfl
  have ran : readQueue source (1 + allowance) { initial with queue := [line] } = .ok () after := by
    rw [Nat.add_comm, readQueue_succ rfl, read]
    exact readQueue_nil _ rfl
  refine ⟨{ after with patches := #[], code := .empty }, ?_⟩
  rw [assembleAll, run_get_bind]
  refine run_bind_eq_ok.mpr ⟨(), after, ran,
    run_bind_eq_ok.mpr ⟨(), { after with patches := #[] }, rfl, ?_⟩⟩
  have bytes : after.code.bytes = (Instruction.canonicalBytes ⟨opcode, operands⟩).toArray := by
    apply Array.ext'
    exact Code.toList_append _ _
  rw [← bytes]
  rfl

/-- The same as a text of its own. -/
theorem assemble_spelled (single : '\n' ∉ spelledLine mnemonic texts) :
    assemble (String.ofList (spelledLine mnemonic texts)) =
      .ok (Instruction.canonicalBytes ⟨opcode, operands⟩).toArray := by
  have named := piece_of_ofMnemonic? found
  obtain ⟨others, -, same, framed, ended⟩ := exists_trim_spelledLine named
    (arranged.texts_ne_nil spelled) (Operand.pieces_of_spelled spelled)
  have again := Operand.spelled_of_map_trim spelled same
  have closed : '\\' ∉ spelledLine mnemonic others := fun stands =>
    ne_of_mem_spelledLine named (Operand.pieces_of_spelled again) (by decide) stands rfl
  have lines : initial.enqueue unnamedText (String.ofList (spelledLine mnemonic texts)) =
      { initial with queue := [⟨⟨unnamedText, 1⟩, spelledLine mnemonic others⟩] } := by
    rw [enqueue, logicalLines_of_single _ single (ended ▸ framed) (ended ▸ closed), ended]
    rfl
  obtain ⟨final, run⟩ := assembleAll_spelled found arranged agrees operation again
    (FileTree.empty.toSource []) 0 ⟨unnamedText, 1⟩
  rw [assemble, assembleFrom, lines, run]

end Lines

end Assembler
end WordMachine
