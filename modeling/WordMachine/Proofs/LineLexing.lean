import Mathlib.Data.List.TakeDrop
import Mathlib.Data.List.TakeWhile
import WordMachine.Assembly.Line

/-!
# Taking written lines apart

A line that is written as a mnemonic, a gap and operands parted by a comma and a blank is taken
apart into just these parts (`Assembly.splitStatement_composeLine`). This needs nothing but that
the parts have no character that would end them (`Assembly.Piece`). Such a line has no comment and
no label, and it is a logical line for itself: a text of such lines has them for its logical lines,
numbered from one on (`Assembly.logicalLines_of_whole`).
-/

set_option autoImplicit false

namespace WordMachine

open WordMachine.Text

/-! ## Texts that are not trimmed -/

namespace Text

/-- A text starts and ends with a character that is no blank. -/
structure Framed (text : List Char) : Prop where
  first : ∃ c rest, text = c :: rest ∧ isBlank c = false
  last : ∃ front c, text = front ++ [c] ∧ isBlank c = false

namespace Framed

theorem of_solid {text : List Char} (nonempty : text ≠ [])
    (solid : ∀ c ∈ text, isBlank c = false) : Framed text where
  first := by
    cases text with
    | nil => exact absurd rfl nonempty
    | cons c rest => exact ⟨c, rest, rfl, solid c List.mem_cons_self⟩
  last := ⟨_, _, (List.dropLast_concat_getLast nonempty).symm, solid _ (List.getLast_mem nonempty)⟩

theorem append {front back : List Char} (middle : List Char) (opens : Framed front)
    (closes : Framed back) : Framed (front ++ middle ++ back) where
  first := by
    obtain ⟨c, rest, rfl, solid⟩ := opens.first
    exact ⟨c, rest ++ middle ++ back, rfl, solid⟩
  last := by
    obtain ⟨rest, c, rfl, solid⟩ := closes.last
    exact ⟨front ++ middle ++ rest, c, (List.append_assoc _ _ _).symm, solid⟩

theorem intercalate {separator : List Char} {texts : List (List Char)} (nonempty : texts ≠ [])
    (framed : ∀ text ∈ texts, Framed text) : Framed (separator.intercalate texts) := by
  induction texts with
  | nil => exact absurd rfl nonempty
  | cons text rest ih =>
      rw [List.forall_mem_cons] at framed
      cases rest with
      | nil =>
          rw [List.intercalate_singleton]
          exact framed.1
      | cons next more =>
          rw [List.intercalate_cons_cons]
          exact framed.1.append separator (ih (List.cons_ne_nil _ _) framed.2)

theorem ne_nil {text : List Char} (framed : Framed text) : text ≠ [] := by
  obtain ⟨c, rest, rfl, _⟩ := framed.first
  exact List.cons_ne_nil _ _

theorem trimEnd_eq {text : List Char} (framed : Framed text) : trimEnd text = text := by
  obtain ⟨front, c, rfl, solid⟩ := framed.last
  rw [trimEnd, List.reverse_append, List.reverse_singleton, List.singleton_append,
    List.dropWhile_cons_of_neg (by simp [solid]), List.reverse_cons, List.reverse_reverse]

/-- Blanks in front of a text are trimmed away. -/
theorem trim_append {blanks text : List Char} (blank : ∀ c ∈ blanks, isBlank c = true)
    (framed : Framed text) : trim (blanks ++ text) = text := by
  have started : text.dropWhile isBlank = text := by
    obtain ⟨c, rest, rfl, solid⟩ := framed.first
    exact List.dropWhile_cons_of_neg (by simp [solid])
  rw [trim, trimStart, List.dropWhile_append_of_pos blank, started, framed.trimEnd_eq]

theorem trim_eq {text : List Char} (framed : Framed text) : trim text = text :=
  @trim_append [] text (fun _ stands => nomatch stands) framed

end Framed

end Text

namespace Assembly

/-! ## Lines made of a mnemonic and operands -/

/-- Whether a character can stand anywhere in a statement without ending a part of it. -/
def isSolid (c : Char) : Bool :=
  !isBlank c && c != ',' && c != ':' && c != ';' && c != '\\'

theorem isSolid_iff {c : Char} :
    isSolid c = true ↔ isBlank c = false ∧ c ≠ ',' ∧ c ≠ ':' ∧ c ≠ ';' ∧ c ≠ '\\' := by
  simp only [isSolid, Bool.and_eq_true, Bool.not_eq_true', bne_iff_ne, and_assoc]

/-- A part of a statement: it is not empty and has only characters that do not end it. -/
structure Piece (text : List Char) : Prop where
  nonempty : text ≠ []
  solid : ∀ c ∈ text, isSolid c = true

theorem Piece.framed {text : List Char} (piece : Piece text) : Framed text :=
  .of_solid piece.nonempty fun c stands => (isSolid_iff.mp (piece.solid c stands)).1

/-- A mnemonic and, after a gap, operands parted by a comma and a blank. -/
def composeLine (mnemonic : List Char) (gap : Nat) (operands : List (List Char)) : List Char :=
  if operands = [] then mnemonic
  else mnemonic ++ List.replicate gap ' ' ++ [',', ' '].intercalate operands

section Compose

variable {mnemonic : List Char} {gap : Nat} {operands : List (List Char)}

theorem framed_composeLine (named : Piece mnemonic) (pieces : ∀ text ∈ operands, Piece text) :
    Framed (composeLine mnemonic gap operands) := by
  rw [composeLine]
  split
  · exact named.framed
  · rename_i nonempty
    exact named.framed.append _
      (.intercalate nonempty fun text stands => (pieces text stands).framed)

theorem mem_intercalate {separator : List Char} {texts : List (List Char)} {c : Char}
    (stands : c ∈ separator.intercalate texts) : (∃ text ∈ texts, c ∈ text) ∨ c ∈ separator := by
  induction texts with
  | nil => exact nomatch stands
  | cons text rest ih =>
      cases rest with
      | nil =>
          rw [List.intercalate_singleton] at stands
          exact .inl ⟨text, List.mem_cons_self, stands⟩
      | cons next more =>
          rw [List.intercalate_cons_cons, List.mem_append, List.mem_append] at stands
          rcases stands with (here | between) | later
          · exact .inl ⟨text, List.mem_cons_self, here⟩
          · exact .inr between
          · rcases ih later with ⟨other, further, inside⟩ | between
            · exact .inl ⟨other, List.mem_cons_of_mem _ further, inside⟩
            · exact .inr between

/-- The characters of a line are those of its parts, commas and blanks. -/
theorem mem_composeLine {c : Char} (named : Piece mnemonic)
    (pieces : ∀ text ∈ operands, Piece text) (stands : c ∈ composeLine mnemonic gap operands) :
    isSolid c = true ∨ c = ',' ∨ c = ' ' := by
  rw [composeLine] at stands
  split at stands
  · exact .inl (named.solid c stands)
  · rw [List.mem_append, List.mem_append] at stands
    rcases stands with (front | blank) | back
    · exact .inl (named.solid c front)
    · exact .inr (.inr (List.eq_of_mem_replicate blank))
    · rcases mem_intercalate back with ⟨text, operand, inside⟩ | between
      · exact .inl ((pieces text operand).solid c inside)
      · simpa using Or.inr between

theorem ne_of_mem_composeLine {c ending : Char} (named : Piece mnemonic)
    (pieces : ∀ text ∈ operands, Piece text)
    (ends : isSolid ending = false ∧ ending ≠ ',' ∧ ending ≠ ' ')
    (stands : c ∈ composeLine mnemonic gap operands) : c ≠ ending := by
  rintro rfl
  rcases mem_composeLine named pieces stands with solid | comma | blank
  · rw [ends.1] at solid
    cases solid
  · exact ends.2.1 comma
  · exact ends.2.2 blank

/-! ## Taking such lines apart -/

theorem stripComment_of_not_mem {line : List Char} (plain : ∀ c ∈ line, c ≠ ';') :
    stripComment line = line := by
  fun_induction stripComment line with
  | case1 rest => exact absurd rfl (plain ';' (by simp))
  | case2 rest => exact absurd rfl (plain ';' List.mem_cons_self)
  | case3 c rest _ _ ih => rw [ih fun other stands => plain other (List.mem_cons_of_mem _ stands)]
  | case4 => rfl

theorem splitLabel_of_not_mem {line : List Char} (plain : ∀ c ∈ line, c ≠ ':') :
    splitLabel line = (none, line) := by
  have kept : ∀ c ∈ line, (c != ':') = true := fun c stands => bne_iff_ne.mpr (plain c stands)
  rw [splitLabel, List.span_eq_takeWhile_dropWhile, List.takeWhile_eq_self_iff.mpr kept,
    List.dropWhile_eq_nil_iff.mpr kept]

theorem append_intercalate (blanks operand : List Char) (rest : List (List Char)) :
    blanks ++ [',', ' '].intercalate (operand :: rest) =
      [','].intercalate ((blanks ++ operand) :: rest.map (' ' :: ·)) := by
  induction rest generalizing blanks operand with
  | nil => rw [List.intercalate_singleton, List.map_nil, List.intercalate_singleton]
  | cons next more ih =>
      have later := ih [' '] next
      rw [List.singleton_append, List.singleton_append] at later
      rw [List.intercalate_cons_cons, List.map_cons, List.intercalate_cons_cons, ← later]
      simp

theorem not_mem_of_piece {text : List Char} (piece : Piece text) : ',' ∉ text := by
  intro stands
  exact (isSolid_iff.mp (piece.solid _ stands)).2.1 rfl

theorem splitOn_operands {operand : List Char} {rest : List (List Char)} (gap : Nat)
    (pieces : ∀ text ∈ operand :: rest, Piece text) :
    ((List.replicate gap ' ' ++ [',', ' '].intercalate (operand :: rest)).splitOn ',').map trim =
      operand :: rest := by
  rw [List.forall_mem_cons] at pieces
  have uncut : ∀ text ∈ (List.replicate gap ' ' ++ operand) :: rest.map (' ' :: ·),
      ',' ∉ text := by
    rw [List.forall_mem_cons, List.forall_mem_map]
    refine ⟨fun stands => ?_, fun text further stands => ?_⟩
    · rcases List.mem_append.mp stands with blank | inside
      · exact absurd (List.eq_of_mem_replicate blank) (by decide)
      · exact not_mem_of_piece pieces.1 inside
    · rcases List.mem_cons.mp stands with blank | inside
      · exact absurd blank (by decide)
      · exact not_mem_of_piece (pieces.2 text further) inside
  have first : trim (List.replicate gap ' ' ++ operand) = operand :=
    pieces.1.framed.trim_append fun c stands => by rw [List.eq_of_mem_replicate stands]; rfl
  have others : (rest.map (' ' :: ·)).map trim = rest := by
    rw [List.map_map]
    refine (List.map_congr_left fun text further => ?_).trans (List.map_id rest)
    exact @Framed.trim_append [' '] text (List.forall_mem_singleton.mpr rfl)
      (pieces.2 text further).framed
  rw [append_intercalate, List.splitOn_intercalate ',' uncut (List.cons_ne_nil _ _),
    List.map_cons, first, others]

theorem splitStatement_composeLine (named : Piece mnemonic) (apart : gap ≠ 0)
    (pieces : ∀ text ∈ operands, Piece text) :
    splitStatement (composeLine mnemonic gap operands) = (mnemonic, operands) := by
  have solid : ∀ c ∈ mnemonic, (!isBlank c) = true := by
    intro c stands
    rw [(isSolid_iff.mp (named.solid c stands)).1]
    rfl
  rw [splitStatement, (framed_composeLine named pieces).trim_eq, List.span_eq_takeWhile_dropWhile]
  cases operands with
  | nil =>
      rw [composeLine, if_pos rfl, List.takeWhile_eq_self_iff.mpr solid,
        List.dropWhile_eq_nil_iff.mpr solid]
  | cons operand rest =>
      obtain ⟨more, rfl⟩ := Nat.exists_eq_succ_of_ne_zero apart
      rw [composeLine, if_neg (List.cons_ne_nil _ _), List.append_assoc,
        List.takeWhile_append_of_pos solid, List.dropWhile_append_of_pos solid,
        List.replicate_succ, List.cons_append, List.takeWhile_cons_of_neg (by decide),
        List.dropWhile_cons_of_neg (by decide), List.append_nil]
      exact congrArg (Prod.mk mnemonic) (splitOn_operands (more + 1) pieces)

end Compose

/-! ## Lines of a text -/

/-- A physical line that is a logical line for itself. -/
structure Whole (line : List Char) : Prop where
  framed : Framed line
  single : '\n' ∉ line
  closed : '\\' ∉ line

theorem Whole.of_composeLine {mnemonic : List Char} {gap : Nat} {operands : List (List Char)}
    (named : Piece mnemonic) (pieces : ∀ text ∈ operands, Piece text) :
    Whole (composeLine mnemonic gap operands) where
  framed := framed_composeLine named pieces
  single stands := ne_of_mem_composeLine named pieces (by decide) stands rfl
  closed stands := ne_of_mem_composeLine named pieces (by decide) stands rfl

theorem Whole.dropReturn_eq {line : List Char} (whole : Whole line) : dropReturn line = line := by
  obtain ⟨front, c, rfl, solid⟩ := whole.framed.last
  have kept : c ≠ '\r' := by
    rintro rfl
    cases solid
  rw [dropReturn, List.getLast?_concat, if_neg (by simpa using kept)]

theorem Whole.continued?_eq {line : List Char} (whole : Whole line) : continued? line = none := by
  have closed := whole.closed
  obtain ⟨front, c, rfl, _⟩ := whole.framed.last
  have kept : c ≠ '\\' := by
    rintro rfl
    exact closed (List.mem_append_right _ List.mem_cons_self)
  rw [continued?, List.getLast?_concat, if_neg (by simpa using kept)]

/-- The lines of a text, known by their numbers. -/
def numbered (file : String) (number : Nat) : List (List Char) → List LogicalLine
  | [] => []
  | line :: rest => ⟨⟨file, number⟩, line⟩ :: numbered file (number + 1) rest

theorem joinLines_of_whole {lines : List (List Char)} (whole : ∀ line ∈ lines, Whole line)
    (file : String) (number : Nat) :
    joinLines file none number lines = numbered file number lines := by
  induction lines generalizing number with
  | nil => rfl
  | cons line rest ih =>
      rw [List.forall_mem_cons] at whole
      rw [joinLines]
      simp only [whole.1.framed.trimEnd_eq, if_neg whole.1.framed.ne_nil, whole.1.continued?_eq,
        ih whole.2, Option.getD_none, List.nil_append, numbered]

theorem intercalate_concat (separator : List Char) {texts : List (List Char)}
    (nonempty : texts ≠ []) (last : List Char) :
    separator.intercalate (texts ++ [last]) = separator.intercalate texts ++ separator ++ last := by
  induction texts with
  | nil => exact absurd rfl nonempty
  | cons text rest ih =>
      cases rest with
      | nil =>
          rw [List.singleton_append, List.intercalate_cons_cons, List.intercalate_singleton,
            List.intercalate_singleton]
      | cons next more =>
          have later := ih (List.cons_ne_nil _ _)
          rw [List.cons_append] at later
          rw [List.cons_append, List.cons_append, List.intercalate_cons_cons, later,
            List.intercalate_cons_cons, List.append_assoc, List.append_assoc, List.append_assoc,
            List.append_assoc, List.append_assoc]

theorem physicalLines_intercalate {front : List (List Char)} {last : List Char}
    (whole : ∀ line ∈ front, Whole line) (single : '\n' ∉ last) :
    physicalLines (['\n'].intercalate (front ++ [last])) =
      front ++ if last = [] then [] else [last] := by
  have uncut : ∀ line ∈ front ++ [last], '\n' ∉ line := by
    intro line stands
    rcases List.mem_append.mp stands with earlier | final
    · exact (whole line earlier).single
    · rwa [List.mem_singleton.mp final]
  have kept : front.map dropReturn = front :=
    (List.map_congr_left fun line stands => (whole line stands).dropReturn_eq).trans
      (List.map_id front)
  have nonempty : front ++ [last] ≠ [] :=
    List.append_ne_nil_of_right_ne_nil _ (List.cons_ne_nil _ _)
  simp only [physicalLines, List.splitOn_intercalate '\n' uncut nonempty, List.dropLast_concat,
    List.getLast?_concat, Option.getD_some, kept]

/-- **Lines that are written one after the other are the lines of the text**, whether or not a
newline ends the last. -/
theorem logicalLines_of_whole {lines : List (List Char)} (whole : ∀ line ∈ lines, Whole line)
    (file : String) {content : String} {ending : List Char}
    (written : content.toList = ['\n'].intercalate lines ++ ending)
    (ends : ending = [] ∨ ending = ['\n']) : logicalLines file content = numbered file 1 lines := by
  rw [logicalLines, written]
  rcases List.eq_nil_or_concat lines with rfl | ⟨front, last, joined⟩
  · rcases ends with rfl | rfl <;> rfl
  · rw [List.concat_eq_append] at joined
    subst joined
    have lastWhole := whole last (List.mem_append_right _ List.mem_cons_self)
    have frontWhole : ∀ line ∈ front, Whole line :=
      fun line stands => whole line (List.mem_append_left _ stands)
    have nonempty : front ++ [last] ≠ [] :=
      List.append_ne_nil_of_right_ne_nil _ (List.cons_ne_nil _ _)
    have parted : physicalLines (['\n'].intercalate (front ++ [last]) ++ ending) =
        front ++ [last] := by
      rcases ends with rfl | rfl
      · rw [List.append_nil, physicalLines_intercalate frontWhole lastWhole.single,
          if_neg lastWhole.framed.ne_nil]
      · -- A newline at the end opens a last line with nothing in it, which does not count.
        have closed := intercalate_concat ['\n'] nonempty []
        rw [List.append_nil] at closed
        rw [← closed, physicalLines_intercalate whole List.not_mem_nil, if_pos rfl,
          List.append_nil]
    rw [parted, joinLines_of_whole whole]

end Assembly
end WordMachine
