import WordMachine.Proofs.LiteralGrammar

/-!
# Readers from parser combinators

Literals and identifiers can be read by parsers that are put together from the combinators of a
library (`ParserCombinators`). Which library that is does not matter as long as its combinators do
what theirs are known for (`ParserCombinators.Laws`): runs of characters are as long as they can
be, the first alternative that succeeds is taken for good, and a parser of everything fails if
something is left.

Put together like this, the reader of literals tries the marks one after the other and decimal
digits last. It does not come back to an alternative if the one it took leaves something: `0b12` is
not read as a decimal number once `0b1` has been taken. And where the digits behind a mark are
missing, the zero is taken for a number, with the letter left over. Either way the text is refused,
just as by the reader that splits off the radix first. So both accept the same literals
(`ParserCombinators.Laws.integer?_eq`) and the same identifiers
(`ParserCombinators.Laws.isIdentifier_eq`), which are those of the grammar
(`Assembly.readers_accept_grammar`).
-/

set_option autoImplicit false

namespace WordMachine

open Assembly

/-- A parser takes the first part of a text and leaves the rest, or it fails. -/
abbrev Parser (α : Type) :=
  List Char → Option (α × List Char)

/-- A library of parsers and of ways to put parsers together. -/
structure ParserCombinators where
  tag : List Char → Parser (List Char)
  tagNoCase : List Char → Parser (List Char)
  oneChar : Char → Parser Char
  takeWhile1 : (Char → Bool) → Parser (List Char)
  alpha1 : Parser (List Char)
  alphanumeric1 : Parser (List Char)
  digit1 : Parser (List Char)
  hexDigit1 : Parser (List Char)
  octDigit1 : Parser (List Char)
  alt {α : Type} : List (Parser α) → Parser α
  opt {α : Type} : Parser α → Parser (Option α)
  pair {α β : Type} : Parser α → Parser β → Parser (α × β)
  preceded {α β : Type} : Parser α → Parser β → Parser β
  map {α β : Type} : Parser α → (α → β) → Parser β
  recognize {α : Type} : Parser α → Parser (List Char)
  many0 {α : Type} : Parser α → Parser (List α)
  allConsuming {α : Type} : Parser α → Parser α

namespace ParserCombinators

/-! ## The readers -/

section Readers

variable (lib : ParserCombinators)

/-- A letter or underscore, followed by letters, digits and underscores. -/
def identifier : Parser (List Char) :=
  lib.recognize <|
    lib.pair (lib.alt [lib.alpha1, lib.tag ['_']])
      (lib.many0 (lib.alt [lib.alphanumeric1, lib.tag ['_']]))

def isIdentifier (text : List Char) : Bool :=
  (lib.allConsuming lib.identifier text).isSome

def isBinaryDigit (c : Char) : Bool :=
  c == '0' || c == '1'

/-- Digits with their radix. -/
def radixLiteral : Parser (Nat × List Char) :=
  lib.alt [
    lib.map (lib.preceded (lib.tagNoCase ['0', 'x']) lib.hexDigit1) fun digits => (16, digits),
    lib.map (lib.preceded (lib.tagNoCase ['0', 'b']) (lib.takeWhile1 isBinaryDigit)) fun digits =>
      (2, digits),
    lib.map (lib.preceded (lib.tagNoCase ['0', 'c']) lib.octDigit1) fun digits => (8, digits),
    lib.map (lib.preceded (lib.tagNoCase ['0', 'd']) lib.digit1) fun digits => (10, digits),
    lib.map lib.digit1 fun digits => (10, digits)]

/-- The number that digits stand for, if 64 bits with a sign hold it. -/
def numberOf? (radix : Nat) (digits : List Char) : Option Nat :=
  if digits ≠ [] ∧ digits.all (isDigitOf radix) ∧ digitsValue radix digits < 2 ^ 63 then
    some (digitsValue radix digits)
  else
    none

def integer? (text : List Char) : Option Int := do
  let ((sign, radix, digits), _) ←
    lib.allConsuming (lib.pair (lib.opt (lib.oneChar '-')) lib.radixLiteral) text
  let magnitude ← numberOf? radix digits
  match sign with
  | some _ => return -(magnitude : Int)
  | none => return (magnitude : Int)

end Readers

/-! ## What combinators are known for -/

/-- A parser takes the longest run of characters of a kind, if there are any. -/
def TakesRun (kind : Char → Bool) (parser : Parser (List Char)) : Prop :=
  ∀ text, parser text =
    if text.takeWhile kind = [] then none else some (text.takeWhile kind, text.dropWhile kind)

def isHexDigit (c : Char) : Bool :=
  c.isDigit || decide ('a' ≤ c ∧ c ≤ 'f') || decide ('A' ≤ c ∧ c ≤ 'F')

def isOctDigit (c : Char) : Bool :=
  decide ('0' ≤ c ∧ c ≤ '7')

/-- What the readers rely on. Of texts without case only the marks of radices are asked for, and a
parser is only repeated if it takes something. -/
structure Laws (lib : ParserCombinators) : Prop where
  tag_of_isPrefix (pattern rest : List Char) : lib.tag pattern (pattern ++ rest) = some (pattern, rest)
  tag_of_not_isPrefix {pattern text : List Char} (other : ¬ pattern <+: text) :
    lib.tag pattern text = none
  /-- The tag is taken in whichever case it stands. -/
  tagNoCase_mark {letter other : Char} (mark : letter ∈ ['x', 'b', 'c', 'd'])
    (same : other.toLower = letter) (rest : List Char) :
    lib.tagNoCase ['0', letter] ('0' :: other :: rest) = some (['0', other], rest)
  tagNoCase_other {letter : Char} {text : List Char} (mark : letter ∈ ['x', 'b', 'c', 'd'])
    (other : ∀ c rest, text = '0' :: c :: rest → c.toLower ≠ letter) :
    lib.tagNoCase ['0', letter] text = none
  oneChar_same (c : Char) (rest : List Char) : lib.oneChar c (c :: rest) = some (c, rest)
  oneChar_other {c : Char} {text : List Char} (other : ∀ rest, text ≠ c :: rest) :
    lib.oneChar c text = none
  takeWhile1 (kind : Char → Bool) : TakesRun kind (lib.takeWhile1 kind)
  alpha1 : TakesRun Char.isAlpha lib.alpha1
  alphanumeric1 : TakesRun Char.isAlphanum lib.alphanumeric1
  digit1 : TakesRun Char.isDigit lib.digit1
  hexDigit1 : TakesRun isHexDigit lib.hexDigit1
  octDigit1 : TakesRun isOctDigit lib.octDigit1
  alt_nil {α : Type} (text : List Char) : lib.alt ([] : List (Parser α)) text = none
  /-- The first alternative that succeeds is taken. -/
  alt_cons {α : Type} (first : Parser α) (others : List (Parser α)) (text : List Char) :
    lib.alt (first :: others) text = (first text).or (lib.alt others text)
  opt {α : Type} (parser : Parser α) (text : List Char) :
    lib.opt parser text = some ((parser text).elim (none, text) fun taken => (some taken.1, taken.2))
  pair {α β : Type} (first : Parser α) (second : Parser β) (text : List Char) :
    lib.pair first second text =
      (first text).bind fun one => (second one.2).map fun two => ((one.1, two.1), two.2)
  preceded {α β : Type} (first : Parser α) (second : Parser β) (text : List Char) :
    lib.preceded first second text = (first text).bind fun one => second one.2
  map {α β : Type} (parser : Parser α) (f : α → β) (text : List Char) :
    lib.map parser f text = (parser text).map fun taken => (f taken.1, taken.2)
  /-- The result is the part of the text that was taken. -/
  recognize_some {α : Type} {parser : Parser α} {result : α} {taken rest : List Char}
    (succeeds : parser (taken ++ rest) = some (result, rest)) :
    lib.recognize parser (taken ++ rest) = some (taken, rest)
  recognize_none {α : Type} {parser : Parser α} {text : List Char} (fails : parser text = none) :
    lib.recognize parser text = none
  many0_none {α : Type} {parser : Parser α} {text : List Char} (fails : parser text = none) :
    lib.many0 parser text = some ([], text)
  many0_some {α : Type} {parser : Parser α} {text rest : List Char} {result : α}
    (succeeds : parser text = some (result, rest)) (shorter : rest.length < text.length) :
    lib.many0 parser text =
      (lib.many0 parser rest).map fun others => (result :: others.1, others.2)
  allConsuming {α : Type} (parser : Parser α) (text : List Char) :
    lib.allConsuming parser text = (parser text).filter fun taken => taken.2.isEmpty

/-! ## Kinds of digits -/

/-- Kinds of characters are the same if they are on the first 128 and have no others. -/
theorem eq_of_first_codes {first second : Char → Bool}
    (agree : ∀ code < 128, first (Char.ofNat code) = second (Char.ofNat code))
    (one : ∀ c, first c = true → c.toNat < 128) (two : ∀ c, second c = true → c.toNat < 128) :
    first = second := by
  funext c
  by_cases small : c.toNat < 128
  · exact of_first_codes (motive := fun c => first c = second c) agree small
  · rw [eq_false_of_ne_true (mt (one c) small), eq_false_of_ne_true (mt (two c) small)]

theorem toNat_lt_of_isDigitOf {radix : Nat} (c : Char) (digit : isDigitOf radix c = true) :
    c.toNat < 128 :=
  toNat_lt_of_isAlphanum (Bool.and_eq_true_iff.mp digit).1

theorem toNat_lt_of_isDigit (c : Char) (digit : c.isDigit = true) : c.toNat < 128 :=
  toNat_lt_of_le (isDigit_iff.mp digit).2 (by decide)

theorem isDigit_eq : Char.isDigit = isDigitOf 10 :=
  eq_of_first_codes (by decide +kernel) toNat_lt_of_isDigit toNat_lt_of_isDigitOf

theorem isHexDigit_eq : isHexDigit = isDigitOf 16 := by
  refine eq_of_first_codes (by decide +kernel) (fun c digit => ?_) toNat_lt_of_isDigitOf
  rw [isHexDigit, Bool.or_eq_true_iff, Bool.or_eq_true_iff, decide_eq_true_eq,
    decide_eq_true_eq] at digit
  rcases digit with (decimal | small) | large
  · exact toNat_lt_of_isDigit c decimal
  · exact toNat_lt_of_le small.2 (by decide)
  · exact toNat_lt_of_le large.2 (by decide)

theorem isOctDigit_eq : isOctDigit = isDigitOf 8 :=
  eq_of_first_codes (by decide +kernel)
    (fun _ digit => toNat_lt_of_le (of_decide_eq_true digit).2 (by decide)) toNat_lt_of_isDigitOf

theorem isBinaryDigit_eq : isBinaryDigit = isDigitOf 2 := by
  refine eq_of_first_codes (by decide +kernel) (fun c digit => ?_) toNat_lt_of_isDigitOf
  rw [isBinaryDigit, Bool.or_eq_true_iff, beq_iff_eq, beq_iff_eq] at digit
  rcases digit with rfl | rfl <;> decide

/-! ## Literals -/

theorem numberOf?_eq_none {radix : Nat} {digits : List Char}
    (others : digits.all (isDigitOf radix) = false) : numberOf? radix digits = none := by
  rw [numberOf?, others, if_neg fun proper => Bool.false_ne_true proper.2.1]

/-- Digits that have to be the whole text make a number just if the whole text does. -/
theorem numberOf?_of_run {radix : Nat} (text : List Char)
    {otherwise : Option ((Nat × List Char) × List Char)}
    (refused : (otherwise.filter fun taken => taken.2.isEmpty) = none) :
    ((if text.takeWhile (isDigitOf radix) = [] then otherwise
      else some ((radix, text.takeWhile (isDigitOf radix)),
        text.dropWhile (isDigitOf radix))).filter fun taken => taken.2.isEmpty).bind
        (fun taken => numberOf? taken.1.1 taken.1.2) = numberOf? radix text := by
  by_cases each : ∀ c ∈ text, isDigitOf radix c = true
  · rw [List.takeWhile_eq_self_iff.mpr each, List.dropWhile_eq_nil_iff.mpr each]
    by_cases empty : text = []
    · rw [if_pos empty, refused, empty]
      rfl
    · rw [if_neg empty]
      rfl
  · have others : text.all (isDigitOf radix) = false := by
      rwa [Bool.eq_false_iff, ne_eq, List.all_eq_true]
    have left : (text.dropWhile (isDigitOf radix)).isEmpty = false := by
      rwa [List.isEmpty_eq_false_iff, ne_eq, List.dropWhile_eq_nil_iff]
    rw [numberOf?_eq_none others]
    split
    · rw [refused]
      rfl
    · rw [Option.filter_some, left]
      rfl

/-! ## Characters of identifiers -/

theorem continuesIdentifier_of_isAlphanum (c : Char) (kind : c.isAlphanum = true) :
    continuesIdentifier c = true := by
  rw [continuesIdentifier, kind, Bool.true_or]

theorem continuesIdentifier_of_isAlpha (c : Char) (kind : c.isAlpha = true) :
    continuesIdentifier c = true :=
  continuesIdentifier_of_isAlphanum c (by rw [Char.isAlphanum, kind, Bool.true_or])

theorem dropWhile_dropWhile_of_imp {narrow wide : Char → Bool}
    (within : ∀ c, narrow c = true → wide c = true) (text : List Char) :
    (text.dropWhile narrow).dropWhile wide = text.dropWhile wide := by
  induction text with
  | nil => rfl
  | cons c rest ih =>
      by_cases here : narrow c = true
      · rw [List.dropWhile_cons_of_pos here, ih, List.dropWhile_cons_of_pos (within c here)]
      · rw [List.dropWhile_cons_of_neg here]

/-! ## The readers and the laws -/

theorem known_of_mark {letter : Char} (mark : letter ∈ ['x', 'b', 'c', 'd']) :
    letter.toLower = letter ∧ radixOf? letter ≠ none := by
  simp only [List.mem_cons, List.not_mem_nil, or_false] at mark
  rcases mark with rfl | rfl | rfl | rfl <;> decide

namespace Laws

variable {lib : ParserCombinators} (laws : lib.Laws)

include laws

theorem digits_behind_mark {radix : Nat} {small : Char} {run : Parser (List Char)}
    (takes : TakesRun (isDigitOf radix) run) (mark : small ∈ ['x', 'b', 'c', 'd']) (letter : Char)
    (rest : List Char) :
    lib.map (lib.preceded (lib.tagNoCase ['0', small]) run) (fun digits => (radix, digits))
        ('0' :: letter :: rest) =
      if letter.toLower = small then
        if rest.takeWhile (isDigitOf radix) = [] then none
        else some ((radix, rest.takeWhile (isDigitOf radix)), rest.dropWhile (isDigitOf radix))
      else none := by
  rw [laws.map, laws.preceded]
  by_cases lower : letter.toLower = small
  · rw [laws.tagNoCase_mark mark lower, Option.bind_some, takes, if_pos lower]
    split <;> rfl
  · rw [laws.tagNoCase_other mark, if_neg lower]
    · rfl
    · intro c more whole
      obtain ⟨rfl, -⟩ := List.cons.inj (List.cons.inj whole).2
      exact lower

theorem no_digits_behind_mark {radix : Nat} {small : Char} {run : Parser (List Char)}
    {text : List Char} (mark : small ∈ ['x', 'b', 'c', 'd'])
    (bare : ∀ letter rest, text = '0' :: letter :: rest → radixOf? letter = none) :
    lib.map (lib.preceded (lib.tagNoCase ['0', small]) run) (fun digits => (radix, digits)) text =
      none := by
  rw [laws.map, laws.preceded, laws.tagNoCase_other mark]
  · rfl
  · rintro letter rest whole rfl
    have unknown := bare letter rest whole
    obtain ⟨same, announces⟩ := known_of_mark mark
    rw [radixOf?, same] at announces
    exact announces unknown

theorem decimal_digits (text : List Char) :
    lib.map lib.digit1 (fun digits => ((10 : Nat), digits)) text =
      if text.takeWhile (isDigitOf 10) = [] then none
      else some ((10, text.takeWhile (isDigitOf 10)), text.dropWhile (isDigitOf 10)) := by
  have takes := laws.digit1
  rw [isDigit_eq] at takes
  rw [laws.map, takes]
  split <;> rfl

/-- Behind a mark the digits of its radix are taken. If there are none the zero of the mark is
taken for a number, and the letter is left. -/
theorem radixLiteral_of_mark {radix : Nat} {letter : Char} (announces : radixOf? letter = some radix)
    (rest : List Char) :
    lib.radixLiteral ('0' :: letter :: rest) =
      if rest.takeWhile (isDigitOf radix) = [] then some ((10, ['0']), letter :: rest)
      else some ((radix, rest.takeWhile (isDigitOf radix)), rest.dropWhile (isDigitOf radix)) := by
  have zero : lib.map lib.digit1 (fun digits => ((10 : Nat), digits)) ('0' :: letter :: rest) =
      some ((10, ['0']), letter :: rest) := by
    have first : isDigitOf 10 '0' = true := by decide
    have second : ¬ isDigitOf 10 letter = true := by
      rw [isDigitOf_of_radixOf? announces]
      exact Bool.false_ne_true
    rw [laws.decimal_digits, List.takeWhile_cons_of_pos first, List.dropWhile_cons_of_pos first,
      List.takeWhile_cons_of_neg second, List.dropWhile_cons_of_neg second,
      if_neg (List.cons_ne_nil _ _)]
  have hexadecimal := laws.hexDigit1
  have binary := laws.takeWhile1 isBinaryDigit
  have octal := laws.octDigit1
  have decimal := laws.digit1
  rw [isHexDigit_eq] at hexadecimal
  rw [isBinaryDigit_eq] at binary
  rw [isOctDigit_eq] at octal
  rw [isDigit_eq] at decimal
  rw [radixLiteral]
  simp only [laws.alt_cons, laws.alt_nil, zero, isBinaryDigit_eq]
  rw [laws.digits_behind_mark hexadecimal (by decide), laws.digits_behind_mark binary (by decide),
    laws.digits_behind_mark octal (by decide), laws.digits_behind_mark decimal (by decide)]
  unfold radixOf? at announces
  split at announces
  case h_5 => cases announces
  all_goals
    rename_i lower
    cases announces
    simp only [lower, if_true, Char.reduceEq, if_false, Option.none_or, Option.or_none]
    split <;> rfl

/-- Without a mark decimal digits are taken. -/
theorem radixLiteral_of_decimal {text : List Char}
    (bare : ∀ letter rest, text = '0' :: letter :: rest → radixOf? letter = none) :
    lib.radixLiteral text =
      if text.takeWhile (isDigitOf 10) = [] then none
      else some ((10, text.takeWhile (isDigitOf 10)), text.dropWhile (isDigitOf 10)) := by
  rw [radixLiteral]
  simp only [laws.alt_cons, laws.alt_nil, laws.decimal_digits]
  rw [laws.no_digits_behind_mark (by decide) bare, laws.no_digits_behind_mark (by decide) bare,
    laws.no_digits_behind_mark (by decide) bare, laws.no_digits_behind_mark (by decide) bare]
  simp only [Option.none_or, Option.or_none]

/-- A number without sign that takes the whole text is the one that is read. -/
theorem unsigned_eq (text : List Char) :
    ((lib.radixLiteral text).filter fun taken => taken.2.isEmpty).bind
      (fun taken => numberOf? taken.1.1 taken.1.2) = magnitude? text := by
  have whole : magnitude? text = numberOf? (splitRadix text).1 (splitRadix text).2 := rfl
  by_cases marked : ∃ letter rest radix, text = '0' :: letter :: rest ∧ radixOf? letter = some radix
  · obtain ⟨letter, rest, radix, rfl, announces⟩ := marked
    have split : splitRadix ('0' :: letter :: rest) = (radix, rest) := by
      rw [splitRadix, announces]
    rw [laws.radixLiteral_of_mark announces, numberOf?_of_run, whole, split]
    rfl
  · have bare : ∀ letter rest, text = '0' :: letter :: rest → radixOf? letter = none := by
      intro letter rest written
      cases announces : radixOf? letter with
      | none => rfl
      | some radix => exact absurd ⟨letter, rest, radix, written, announces⟩ marked
    have split : splitRadix text = (10, text) := by
      rcases splitRadix_cases text with decimal | ⟨letter, rest, radix, written, announces, -⟩
      · exact decimal
      · exact absurd ⟨letter, rest, radix, written, announces⟩ marked
    rw [laws.radixLiteral_of_decimal bare, numberOf?_of_run, whole, split]
    rfl

/-- What stands behind the sign decides. -/
theorem integer?_of_sign {text rest : List Char} {sign : Option Char}
    (signed : lib.opt (lib.oneChar '-') text = some (sign, rest)) :
    lib.integer? text = (magnitude? rest).map fun magnitude : Nat =>
      if sign.isSome then -(magnitude : Int) else (magnitude : Int) := by
  rw [ParserCombinators.integer?, laws.allConsuming, laws.pair, signed, Option.bind_some,
    ← laws.unsigned_eq]
  cases lib.radixLiteral rest with
  | none => rfl
  | some taken =>
      obtain ⟨⟨radix, digits⟩, left⟩ := taken
      cases left with
      | cons c more => rfl
      | nil =>
          change (numberOf? radix digits).bind _ = (numberOf? radix digits).map _
          cases numberOf? radix digits with
          | none => rfl
          | some magnitude => cases sign <;> rfl

/-- **Both readers of literals agree.** -/
theorem integer?_eq (text : List Char) : lib.integer? text = Assembly.integer? text := by
  by_cases minus : ∃ rest, text = '-' :: rest
  · obtain ⟨rest, rfl⟩ := minus
    have signed := laws.opt (lib.oneChar '-') ('-' :: rest)
    rw [laws.oneChar_same] at signed
    rw [laws.integer?_of_sign signed, integer?_minus]
    rfl
  · have unsigned : ∀ rest, text ≠ '-' :: rest := fun rest same => minus ⟨rest, same⟩
    have signed := laws.opt (lib.oneChar '-') text
    rw [laws.oneChar_other unsigned] at signed
    rw [laws.integer?_of_sign signed, integer?_of_unsigned unsigned]
    rfl

/-! ## Identifiers -/

section Pieces

variable {kind : Char → Bool} {run : Parser (List Char)} {c : Char}

/-- A piece of an identifier is a run of characters or an underscore. Whatever it takes, what is
left of the identifier behind it stays the same. -/
theorem exists_piece (takes : TakesRun kind run)
    (within : ∀ c, kind c = true → continuesIdentifier c = true)
    (fits : (kind c || c == '_') = true) (rest : List Char) :
    ∃ taken left, lib.alt [run, lib.tag ['_']] (c :: rest) = some (taken, left) ∧
      left.length ≤ rest.length ∧
      left.dropWhile continuesIdentifier = rest.dropWhile continuesIdentifier := by
  rw [laws.alt_cons, takes]
  by_cases here : kind c = true
  · rw [List.takeWhile_cons_of_pos here, List.dropWhile_cons_of_pos here,
      if_neg (List.cons_ne_nil _ _), Option.some_or]
    exact ⟨_, _, rfl, List.length_dropWhile_le _ _, dropWhile_dropWhile_of_imp within rest⟩
  · rw [Bool.or_eq_true_iff, beq_iff_eq] at fits
    obtain rfl := fits.resolve_left here
    have underscore := laws.tag_of_isPrefix ['_'] rest
    rw [List.takeWhile_cons_of_neg here, if_pos rfl, Option.none_or, laws.alt_cons]
    rw [List.singleton_append] at underscore
    rw [underscore, Option.some_or]
    exact ⟨_, _, rfl, Nat.le_refl _, rfl⟩

theorem no_piece (takes : TakesRun kind run) {text : List Char}
    (others : ∀ c rest, text = c :: rest → (kind c || c == '_') = false) :
    lib.alt [run, lib.tag ['_']] text = none := by
  have nothing : text.takeWhile kind = [] := by
    cases text with
    | nil => rfl
    | cons c rest =>
        have refused := (Bool.or_eq_false_iff.mp (others c rest rfl)).1
        rw [List.takeWhile_cons_of_neg (by rw [refused]; exact Bool.false_ne_true)]
  have untagged : ¬ ['_'] <+: text := by
    rintro ⟨rest, rfl⟩
    cases (Bool.or_eq_false_iff.mp (others '_' rest rfl)).2
  rw [laws.alt_cons, laws.alt_cons, laws.alt_nil, takes, if_pos nothing,
    laws.tag_of_not_isPrefix untagged]
  rfl

end Pieces

/-- Piece after piece everything is taken that can stand within an identifier. -/
theorem exists_pieces (text : List Char) :
    ∃ pieces, lib.many0 (lib.alt [lib.alphanumeric1, lib.tag ['_']]) text =
      some (pieces, text.dropWhile continuesIdentifier) := by
  induction size : text.length using Nat.strongRecOn generalizing text with
  | ind size ih =>
      cases text with
      | nil =>
          refine ⟨[], laws.many0_none (laws.no_piece laws.alphanumeric1 fun c rest whole => ?_)⟩
          cases whole
      | cons c rest =>
          by_cases continues : continuesIdentifier c = true
          · obtain ⟨taken, left, found, shorter, same⟩ :=
              laws.exists_piece laws.alphanumeric1 continuesIdentifier_of_isAlphanum continues rest
            have smaller : left.length < (c :: rest).length := Nat.lt_succ_of_le shorter
            obtain ⟨pieces, further⟩ := ih left.length (size ▸ smaller) left rfl
            rw [laws.many0_some found smaller, further, same,
              List.dropWhile_cons_of_pos continues]
            exact ⟨_, rfl⟩
          · rw [List.dropWhile_cons_of_neg continues]
            refine ⟨[], laws.many0_none (laws.no_piece laws.alphanumeric1 fun other more whole => ?_)⟩
            obtain ⟨rfl, rfl⟩ := List.cons.inj whole
            exact eq_false_of_ne_true continues

theorem identifier_of_starts {first : Char} (starts : startsIdentifier first = true)
    (rest : List Char) :
    lib.identifier (first :: rest) = some
      (first :: rest.takeWhile continuesIdentifier, rest.dropWhile continuesIdentifier) := by
  obtain ⟨taken, left, found, -, same⟩ :=
    laws.exists_piece laws.alpha1 continuesIdentifier_of_isAlpha starts rest
  obtain ⟨pieces, further⟩ := laws.exists_pieces left
  have whole : first :: rest =
      (first :: rest.takeWhile continuesIdentifier) ++ rest.dropWhile continuesIdentifier := by
    rw [List.cons_append, List.takeWhile_append_dropWhile]
  rw [whole, identifier]
  apply laws.recognize_some
  · rw [← whole, laws.pair, found, Option.bind_some, further, same]
    rfl

theorem identifier_eq_none {text : List Char}
    (others : ∀ first rest, text = first :: rest → startsIdentifier first = false) :
    lib.identifier text = none := by
  refine laws.recognize_none ?_
  rw [laws.pair, laws.no_piece laws.alpha1 others]
  rfl

/-- **Both readers of identifiers agree.** -/
theorem isIdentifier_eq (text : List Char) :
    lib.isIdentifier text = Assembly.isIdentifier text := by
  rw [ParserCombinators.isIdentifier, laws.allConsuming]
  cases text with
  | nil =>
      rw [laws.identifier_eq_none fun first rest whole => by cases whole]
      rfl
  | cons first rest =>
      rw [Assembly.isIdentifier]
      cases starts : startsIdentifier first with
      | false =>
          rw [laws.identifier_eq_none fun other more whole => (List.cons.inj whole).1 ▸ starts]
          rfl
      | true =>
          have whole : rest.all continuesIdentifier =
              (rest.dropWhile continuesIdentifier).isEmpty := by
            rw [Bool.eq_iff_iff, List.all_eq_true, List.isEmpty_iff, List.dropWhile_eq_nil_iff]
          rw [laws.identifier_of_starts starts, Option.filter_some, Bool.true_and, whole]
          cases (rest.dropWhile continuesIdentifier).isEmpty <;> rfl

end Laws

/-! ## A library with these laws -/

namespace Standard

def run (kind : Char → Bool) : Parser (List Char) := fun text =>
  if text.takeWhile kind = [] then none else some (text.takeWhile kind, text.dropWhile kind)

def tag (pattern : List Char) : Parser (List Char) := fun text =>
  if pattern <+: text then some (pattern, text.drop pattern.length) else none

def tagNoCase (pattern : List Char) : Parser (List Char) := fun text =>
  let taken := text.take pattern.length
  if taken.map Char.toLower = pattern.map Char.toLower then
    some (taken, text.drop pattern.length)
  else
    none

def oneChar (c : Char) : Parser Char
  | [] => none
  | first :: rest => if first = c then some (c, rest) else none

variable {α β : Type}

def alt (alternatives : List (Parser α)) : Parser α := fun text =>
  alternatives.foldr (fun parser others => (parser text).or others) none

def many0 (parser : Parser α) (text : List Char) : Option (List α × List Char) :=
  match parser text with
  | none => some ([], text)
  | some (result, rest) =>
      if rest.length < text.length then
        (many0 parser rest).map fun others => (result :: others.1, others.2)
      else
        none
termination_by text.length

end Standard

/-- The combinators by their simplest definitions. -/
def standard : ParserCombinators where
  tag := Standard.tag
  tagNoCase := Standard.tagNoCase
  oneChar := Standard.oneChar
  takeWhile1 := Standard.run
  alpha1 := Standard.run Char.isAlpha
  alphanumeric1 := Standard.run Char.isAlphanum
  digit1 := Standard.run Char.isDigit
  hexDigit1 := Standard.run isHexDigit
  octDigit1 := Standard.run isOctDigit
  alt := Standard.alt
  opt parser text := some ((parser text).elim (none, text) fun taken => (some taken.1, taken.2))
  pair first second text :=
    (first text).bind fun one => (second one.2).map fun two => ((one.1, two.1), two.2)
  preceded first second text := (first text).bind fun one => second one.2
  map parser f text := (parser text).map fun taken => (f taken.1, taken.2)
  recognize parser text :=
    (parser text).map fun taken => (text.take (text.length - taken.2.length), taken.2)
  many0 := Standard.many0
  allConsuming parser text := (parser text).filter fun taken => taken.2.isEmpty

theorem eq_zero_of_toLower {c : Char} (same : c.toLower = '0') : c = '0' :=
  of_first_codes (motive := fun c => c.toLower = '0' → c = '0') (by decide +kernel)
    (toNat_lt_of_toLower (by rw [same]; decide)) same

theorem standard_laws : standard.Laws where
  tag_of_isPrefix pattern rest := by
    have prefixed : pattern <+: pattern ++ rest := List.prefix_append _ _
    change Standard.tag _ _ = _
    rw [Standard.tag, if_pos prefixed, List.drop_left]
  tag_of_not_isPrefix other := if_neg other
  tagNoCase_mark := by
    intro letter other mark same rest
    refine if_pos ?_
    change [_, _] = [_, _]
    rw [same, (known_of_mark mark).1]
  tagNoCase_other := by
    intro letter text mark other
    refine if_neg fun same => ?_
    rcases text with - | ⟨zero, - | ⟨c, rest⟩⟩
    · cases same
    · cases (List.cons.inj same).2
    · obtain ⟨first, others⟩ := List.cons.inj same
      have second : c.toLower = letter.toLower := (List.cons.inj others).1
      rw [(known_of_mark mark).1] at second
      exact other c rest (by rw [eq_zero_of_toLower first]) second
  oneChar_same c rest := if_pos rfl
  oneChar_other := by
    intro c text other
    cases text with
    | nil => rfl
    | cons first rest =>
        refine if_neg ?_
        rintro rfl
        exact other rest rfl
  takeWhile1 kind text := rfl
  alpha1 text := rfl
  alphanumeric1 text := rfl
  digit1 text := rfl
  hexDigit1 text := rfl
  octDigit1 text := rfl
  alt_nil text := rfl
  alt_cons first others text := rfl
  opt parser text := rfl
  pair first second text := rfl
  preceded first second text := rfl
  map parser f text := rfl
  recognize_some := by
    intro α parser result taken rest succeeds
    change Option.map _ (parser (taken ++ rest)) = _
    rw [succeeds, Option.map_some, List.length_append, Nat.add_sub_cancel, List.take_left]
  recognize_none := by
    intro α parser text fails
    change Option.map _ (parser text) = none
    rw [fails, Option.map_none]
  many0_none := by
    intro α parser text fails
    change Standard.many0 parser text = _
    rw [Standard.many0, fails]
  many0_some := by
    intro α parser text rest result succeeds shorter
    change Standard.many0 parser text = _
    rw [Standard.many0, succeeds]
    exact if_pos shorter
  allConsuming parser text := rfl

end ParserCombinators

/-! ## What is accepted -/

namespace Assembly

/-- **Exactly the literals and the identifiers of the grammar are accepted.** This goes for the
readers put together from the combinators of any library that has their laws, and for the readers of
the assembler, which give the same results. No text is a literal and an identifier. So every text is
a constant of exactly one kind, and what the assembler makes of an operand that stands for it is
decided by that kind. -/
theorem readers_accept_grammar {lib : ParserCombinators} (laws : lib.Laws) (text : List Char) :
    (∀ value, lib.integer? text = some value ↔ Literal text value) ∧
      (lib.isIdentifier text = true ↔ Identifier text) ∧
      integer? text = lib.integer? text ∧
      isIdentifier text = lib.isIdentifier text ∧
      (∀ value, Literal text value → ¬ Identifier text) ∧
      (∃! kind, Constant.Of text kind) ∧
      ∀ kind, Constant.Of text kind → ∀ (scope : Scope) (operand : List Char),
        scope.expand operand = .ok text →
          (∀ least greatest, scope.constant operand least greatest =
            kind.number scope.symbols text least greatest) ∧
          scope.immediate operand = kind.immediate scope.symbols text := by
  rw [laws.integer?_eq, laws.isIdentifier_eq]
  exact ⟨fun _ => integer?_eq_some_iff, isIdentifier_iff, rfl, rfl,
    fun _ literal => literal.not_identifier, Constant.existsUnique_of text,
    fun _ classified _ _ expands =>
      ⟨Scope.constant_of_kind expands classified, Scope.immediate_of_kind expands classified⟩⟩

/-- A hexadecimal number with a sign, as a literal and as the immediate of an instruction. -/
theorem negative_hexadecimal_accepted :
    ParserCombinators.standard.Laws ∧
      ParserCombinators.standard.integer? ['-', '0', 'X', '1', 'f'] = some (-31) ∧
      Scope.empty.immediate [' ', '-', '0', 'X', '1', 'f'] = .ok (.value 0xFFE1) := by
  have laws := ParserCombinators.standard_laws
  have digits : Numeral 16 ['1', 'f'] 31 :=
    .next (.single (show Digit 16 '1' 1 by decide)) (show Digit 16 'f' 15 by decide)
  have announced : (['0', 'X'], 16) ∈ radixMarks := by decide
  have literal : Literal ['-', '0', 'X', '1', 'f'] (-31) :=
    .negative (.marked announced digits (by decide))
  obtain ⟨numbers, -, -, -, -, -, outcomes⟩ := readers_accept_grammar laws ['-', '0', 'X', '1', 'f']
  have expands : Scope.empty.expand [' ', '-', '0', 'X', '1', 'f'] =
      .ok ['-', '0', 'X', '1', 'f'] := by
    rfl
  exact ⟨laws, (numbers _).mpr literal, (outcomes _ (.literal literal) _ _ expands).2⟩

end Assembly

end WordMachine
