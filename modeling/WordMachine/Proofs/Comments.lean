import WordMachine.Proofs.LineLexing

/-!
# Comments

A comment starts at the first semicolon that has no backslash right before it
(`Assembly.StartsComment`). Stripping looks one character ahead, and only at a backslash: together
with a semicolon behind it, it stands for the semicolon, and otherwise for itself. So backslashes do
not pair up, and one that another stands before escapes a semicolon all the same.

A text whose semicolons get a backslash each (`Assembly.escape`) has no comment and is what it was
again when it is stripped. The other way round, escaping what is left of a line gives the part in front
of the comment (`Assembly.escape_stripComment`), so what is left depends on nothing else.
-/

set_option autoImplicit false

namespace WordMachine.Assembly

/-! ## Escaped texts -/

/-- A text with a backslash before each of its semicolons. -/
def escape (text : List Char) : List Char :=
  text.flatMap fun c => if c = ';' then ['\\', ';'] else [c]

theorem escape_semicolon (text : List Char) : escape (';' :: text) = '\\' :: ';' :: escape text :=
  rfl

theorem escape_cons {c : Char} (ordinary : c ≠ ';') (text : List Char) :
    escape (c :: text) = c :: escape text := by
  rw [escape, List.flatMap_cons, if_neg ordinary]
  rfl

/-- No semicolon comes first, as there is a backslash before it. -/
theorem head?_escape_append (c : Char) (text rest : List Char) :
    (escape (c :: text) ++ rest).head? ≠ some ';' := by
  by_cases semicolon : c = ';'
  · rw [semicolon, escape_semicolon]
    exact fun same => absurd (Option.some.inj same) (by decide)
  · rw [escape_cons semicolon]
    exact fun same => semicolon (Option.some.inj same)

theorem stripComment_cons {c : Char} {rest : List Char} (ordinary : c ≠ ';')
    (alone : c = '\\' → rest.head? ≠ some ';') :
    stripComment (c :: rest) = c :: stripComment rest := by
  refine stripComment.eq_3 c rest (fun after backslash semicolon => ?_) ordinary
  rw [semicolon] at alone
  exact alone backslash rfl

/-- **What was escaped is read as it was**, whatever follows. Only a semicolon must not follow a
backslash at the end, since the two would become one. -/
theorem stripComment_escape_append {text rest : List Char}
    (apart : text.getLast? = some '\\' → rest.head? ≠ some ';') :
    stripComment (escape text ++ rest) = text ++ stripComment rest := by
  induction text with
  | nil => rfl
  | cons c more ih =>
      have later : more.getLast? = some '\\' → rest.head? ≠ some ';' := fun last =>
        apart (by rw [List.getLast?_cons, last, Option.getD_some])
      by_cases semicolon : c = ';'
      · rw [semicolon, escape_semicolon, List.cons_append, List.cons_append, stripComment, ih later,
          List.cons_append]
      · rw [escape_cons semicolon, List.cons_append, stripComment_cons semicolon, ih later,
          List.cons_append]
        -- Only a backslash at the end of the text meets a semicolon that is not its own.
        rintro rfl
        cases more with
        | nil => exact apart rfl
        | cons next others => exact head?_escape_append next others rest

/-- An escaped text is read as it was. -/
theorem stripComment_escape (text : List Char) : stripComment (escape text) = text := by
  have alone := @stripComment_escape_append text [] fun _ first => by cases first
  rwa [List.append_nil, stripComment, List.append_nil] at alone

/-! ## Where a comment starts -/

/-- A comment can start at this place: there is a semicolon, and no backslash right before it. -/
def StartsComment (text : List Char) (place : Nat) : Prop :=
  text[place]? = some ';' ∧ (place = 0 ∨ text[place - 1]? ≠ some '\\')

instance (text : List Char) (place : Nat) : Decidable (StartsComment text place) :=
  inferInstanceAs (Decidable (_ ∧ _))

/-- The part of a text in front of the first place where a comment can start. -/
def beforeComment (text : List Char) : List Char :=
  text.take ((List.range text.length).findIdx fun place => StartsComment text place)

section Apart

variable {front rest : List Char}

/-- What stands in front of a part of a line does not matter to it, but for a backslash in front of a
semicolon. -/
theorem startsComment_append (apart : front.getLast? = some '\\' → rest.head? ≠ some ';')
    (place : Nat) :
    StartsComment (front ++ rest) (front.length + place) ↔ StartsComment rest place := by
  have here : (front ++ rest)[front.length + place]? = rest[place]? := by
    rw [List.getElem?_append_right (Nat.le_add_right _ _), Nat.add_sub_cancel_left]
  rw [StartsComment, StartsComment, here]
  refine and_congr_right fun semicolon => ?_
  cases place with
  | zero =>
      refine iff_of_true (Decidable.or_iff_not_imp_left.mpr fun nonempty => ?_) (.inl rfl)
      have last : (front ++ rest)[front.length + 0 - 1]? = front.getLast? := by
        rw [List.getElem?_append_left (by omega), List.getLast?_eq_getElem?, Nat.add_zero]
      rw [last]
      exact fun backslash => apart backslash (List.head?_eq_getElem?.trans semicolon)
  | succ before =>
      have behind : (front ++ rest)[front.length + (before + 1) - 1]? = rest[before]? := by
        rw [← Nat.add_assoc, Nat.add_sub_cancel, List.getElem?_append_right (Nat.le_add_right _ _),
          Nat.add_sub_cancel_left]
      rw [behind, Nat.add_sub_cancel]
      exact or_congr (by omega) Iff.rfl

/-- If no comment starts in a part of a line, the comment is that of the rest. -/
theorem beforeComment_append (apart : front.getLast? = some '\\' → rest.head? ≠ some ';')
    (inside : ∀ place < front.length, ¬ StartsComment (front ++ rest) place) :
    beforeComment (front ++ rest) = front ++ beforeComment rest := by
  have none : (List.range front.length).findIdx
      (fun place => StartsComment (front ++ rest) place) = front.length := by
    rw [List.findIdx_eq_length_of_false, List.length_range]
    exact fun place listed => decide_eq_false (inside place (List.mem_range.mp listed))
  rw [beforeComment, List.length_append, List.range_add, List.findIdx_append, none,
    List.length_range, if_neg (Nat.lt_irrefl _), List.findIdx_map, Nat.add_comm,
    List.take_length_add_append]
  simp only [Function.comp_def, startsComment_append apart, beforeComment]

end Apart

theorem beforeComment_semicolon (rest : List Char) : beforeComment (';' :: rest) = [] := by
  have first : StartsComment (';' :: rest) 0 := ⟨rfl, .inl rfl⟩
  rw [beforeComment, List.length_cons, List.range_succ_eq_map, List.findIdx_cons,
    decide_eq_true first]
  rfl

/-- **Escaping what is left of a line gives the part in front of its comment.** -/
theorem escape_stripComment (text : List Char) : escape (stripComment text) = beforeComment text := by
  fun_induction stripComment text with
  | case1 rest ih =>
      -- The escaped semicolon is no backslash, so the rest reads as if it stood alone.
      have escaped : ∀ place < 2, ¬ StartsComment ('\\' :: ';' :: rest) place := by
        intro place inside starts
        obtain rfl | rfl : place = 0 ∨ place = 1 := by omega
        · cases starts.1
        · exact starts.2.elim Nat.one_ne_zero fun other => other rfl
      have front := @beforeComment_append ['\\', ';'] rest (fun last => by cases last) escaped
      rw [escape_semicolon, ih]
      exact front.symm
  | case2 rest => exact (beforeComment_semicolon rest).symm
  | case3 c rest unescaped ordinary ih =>
      have plain : ∀ place < 1, ¬ StartsComment (c :: rest) place := by
        intro place inside starts
        obtain rfl : place = 0 := by omega
        exact ordinary (Option.some.inj starts.1)
      have alone : [c].getLast? = some '\\' → rest.head? ≠ some ';' := by
        intro last first
        obtain ⟨tail, starts⟩ := List.head?_eq_some_iff.mp first
        exact unescaped tail (Option.some.inj last) starts
      have front := @beforeComment_append [c] rest alone plain
      rw [escape_cons ordinary, ih]
      exact front.symm
  | case4 => rfl

/-- **Stripping comments undoes escaping, and nothing from a comment's start on is read.** A text that
was escaped is given back as it was, alone and, unless it ends in a backslash, in front of a comment.
Of any text there is left what gives the part before its comment when it is escaped, so texts that
agree up to there leave the same. -/
theorem stripping_undoes_escaping (text : List Char) :
    stripComment (escape text) = text ∧
    (text.getLast? ≠ some '\\' →
      ∀ comment, stripComment (escape text ++ ';' :: comment) = text) ∧
    escape (stripComment text) = beforeComment text ∧
    ∀ other, beforeComment other = beforeComment text → stripComment other = stripComment text := by
  refine ⟨stripComment_escape text, fun closed comment => ?_, escape_stripComment text,
    fun other same => ?_⟩
  · rw [stripComment_escape_append fun last => absurd last closed, stripComment, List.append_nil]
  · calc stripComment other
      _ = stripComment (escape (stripComment other)) := (stripComment_escape _).symm
      _ = stripComment (escape (stripComment text)) := by
        rw [escape_stripComment, same, escape_stripComment]
      _ = stripComment text := stripComment_escape _

/-- Semicolons behind one backslash and behind two, with a comment after them and without. -/
theorem stripping_undoes_escaping_backslashes :
    (escape "\\;\\\\;".toList = "\\\\;\\\\\\;".toList ∧
      stripComment "\\\\;\\\\\\;".toList = "\\;\\\\;".toList) ∧
    ("\\;\\\\;".toList.getLast? ≠ some '\\' ∧
      stripComment "\\\\;\\\\\\;; set \\".toList = "\\;\\\\;".toList) ∧
    (beforeComment "a\\;b\\\\;;c\\;;".toList = "a\\;b\\\\;".toList ∧
      beforeComment "a\\;b\\\\;".toList = "a\\;b\\\\;".toList ∧
      stripComment "a\\;b\\\\;;c\\;;".toList = stripComment "a\\;b\\\\;".toList) := by
  have written : escape "\\;\\\\;".toList = "\\\\;\\\\\\;".toList := by decide
  have closed : "\\;\\\\;".toList.getLast? ≠ some '\\' := by decide
  have before : beforeComment "a\\;b\\\\;;c\\;;".toList = "a\\;b\\\\;".toList := by decide
  have whole : beforeComment "a\\;b\\\\;".toList = "a\\;b\\\\;".toList := by decide
  obtain ⟨alone, commented, -, -⟩ := stripping_undoes_escaping "\\;\\\\;".toList
  obtain ⟨-, -, -, agree⟩ := stripping_undoes_escaping "a\\;b\\\\;".toList
  have ahead := commented closed " set \\".toList
  rw [written] at alone ahead
  exact ⟨⟨written, alone⟩, ⟨closed, ahead⟩, before, whole, agree _ (before.trans whole.symm)⟩

end WordMachine.Assembly
