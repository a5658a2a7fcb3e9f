import Mathlib.Data.List.Nodup
import Mathlib.Data.List.TakeWhile
import WordMachine.Assembly.Line

/-!
# Continuation lines

A logical line is made of one or more physical lines (`Assembly.LineGroup`): each of them but the
last asks for a continuation, and the next one, which is not blank, is it. Joining goes through the
lines once and keeps the group that is open, if there is one. A line opens a group or extends the
open one; a line that does not continue closes it; a blank line or the end of the text closes what
was open.

The groups hold every line that is not blank, each exactly once, in the order of the text, and two
neighbours are in one group if neither is blank and the first one continues, and only then
(`Assembly.logicalLines_joined`).
-/

set_option autoImplicit false

namespace WordMachine.Assembly

open WordMachine.Text

/-! ## Physical lines -/

/-- A line as it stands in a text, with its number. -/
structure PhysicalLine where
  number : Nat
  text : List Char
  deriving DecidableEq, Repr

namespace PhysicalLine

/-- The line has no character that is not blank. -/
def Blank (line : PhysicalLine) : Prop :=
  ∀ c ∈ line.text, isBlank c = true

/-- The last character that is not blank is a backslash. -/
def Continues (line : PhysicalLine) : Prop :=
  (line.text.filter (!isBlank ·)).getLast? = some '\\'

instance (line : PhysicalLine) : Decidable line.Blank :=
  inferInstanceAs (Decidable (∀ c ∈ line.text, isBlank c = true))

instance (line : PhysicalLine) : Decidable line.Continues :=
  inferInstanceAs (Decidable (_ = _))

/-- What a line contributes: the blanks at its end do not count, nor does the backslash that asks
for a continuation. -/
def part (line : PhysicalLine) : List Char :=
  if line.Continues then (trimEnd line.text).dropLast else trimEnd line.text

theorem trimEnd_eq_nil_iff {line : PhysicalLine} : trimEnd line.text = [] ↔ line.Blank := by
  rw [trimEnd, List.reverse_eq_nil_iff, List.dropWhile_eq_nil_iff]
  exact forall_congr' fun c => imp_congr_left List.mem_reverse

theorem getLast?_trimEnd (text : List Char) :
    (trimEnd text).getLast? = (text.filter (!isBlank ·)).getLast? := by
  rw [trimEnd, List.getLast?_reverse, List.getLast?_eq_head?_reverse, ← List.filter_reverse,
    List.head?_filter, List.find?_eq_head?_dropWhile_not]
  simp only [Bool.not_not]

theorem continued?_trimEnd (line : PhysicalLine) :
    continued? (trimEnd line.text) = if line.Continues then some line.part else none := by
  have asks : line.Continues ↔ (trimEnd line.text).getLast? = some '\\' := by
    rw [getLast?_trimEnd]
    rfl
  by_cases continues : line.Continues
  · rw [continued?, part, if_pos (asks.mp continues), if_pos continues, if_pos continues]
  · rw [continued?, if_neg (mt asks.mpr continues), if_neg continues]

end PhysicalLine

/-- Lines with their numbers, from a number on. -/
def physicalFrom (number : Nat) : List (List Char) → List PhysicalLine
  | [] => []
  | text :: rest => ⟨number, text⟩ :: physicalFrom (number + 1) rest

theorem le_number_of_mem {number : Nat} {texts : List (List Char)} {line : PhysicalLine}
    (listed : line ∈ physicalFrom number texts) : number ≤ line.number := by
  induction texts generalizing number with
  | nil => cases listed
  | cons text rest ih =>
      rcases List.mem_cons.mp listed with rfl | later
      · exact Nat.le_refl _
      · exact Nat.le_of_succ_le (ih later)

theorem pairwise_physicalFrom (number : Nat) (texts : List (List Char)) :
    (physicalFrom number texts).Pairwise fun earlier later => earlier.number < later.number := by
  induction texts generalizing number with
  | nil => exact .nil
  | cons text rest ih => exact .cons (fun _ later => le_number_of_mem later) (ih (number + 1))

theorem nodup_physicalFrom (number : Nat) (texts : List (List Char)) :
    (physicalFrom number texts).Nodup :=
  (pairwise_physicalFrom number texts).imp fun less => ne_of_apply_ne _ (Nat.ne_of_lt less)

/-! ## Groups of lines -/

/-- The physical lines of a logical line. -/
structure LineGroup where
  first : PhysicalLine
  more : List PhysicalLine
  deriving DecidableEq, Repr

namespace LineGroup

def lines (group : LineGroup) : List PhysicalLine :=
  group.first :: group.more

/-- The logical line that a group makes up. -/
def joined (file : String) (group : LineGroup) : LogicalLine where
  place := ⟨file, group.first.number⟩
  text := group.lines.flatMap PhysicalLine.part

/-- The lines of the open group, if there is one. -/
def pending (open? : Option LineGroup) : List PhysicalLine :=
  open?.elim [] lines

/-- The open group with one more line, which opens it if there is none. -/
def extend (open? : Option LineGroup) (line : PhysicalLine) : LineGroup :=
  match open? with
  | none => ⟨line, []⟩
  | some group => { group with more := group.more ++ [line] }

theorem lines_extend (open? : Option LineGroup) (line : PhysicalLine) :
    (extend open? line).lines = pending open? ++ [line] := by
  cases open? <;> rfl

/-- The groups that lines are gathered to. -/
def gather (open? : Option LineGroup) : List PhysicalLine → List LineGroup
  | [] => open?.toList
  | line :: rest =>
      if line.Blank then open?.toList ++ gather none rest
      else if line.Continues then gather (some (extend open? line)) rest
      else extend open? line :: gather none rest

/-- A line becomes part of the logical line that is pending. -/
theorem joined_extend (file : String) (open? : Option LineGroup) (line : PhysicalLine) :
    joined file (extend open? line) =
      let begun := (open?.map (joined file)).getD ⟨⟨file, line.number⟩, []⟩
      { begun with text := begun.text ++ line.part } := by
  rw [joined, lines_extend]
  cases open? with
  | none => simp [pending, extend]
  | some group => simp [pending, extend, joined]

/-- **Joining lines makes the groups logical lines.** -/
theorem joinLines_eq (file : String) (open? : Option LineGroup) (number : Nat)
    (texts : List (List Char)) :
    joinLines file (open?.map (joined file)) number texts =
      (gather open? (physicalFrom number texts)).map (joined file) := by
  induction texts generalizing open? number with
  | nil => cases open? <;> rfl
  | cons text rest ih =>
      have blank := @PhysicalLine.trimEnd_eq_nil_iff ⟨number, text⟩
      have asks := PhysicalLine.continued?_trimEnd ⟨number, text⟩
      have whole := joined_extend file open? ⟨number, text⟩
      have last (still : ¬ PhysicalLine.Continues ⟨number, text⟩) :
          PhysicalLine.part ⟨number, text⟩ = trimEnd text := if_neg still
      have closed := ih none (number + 1)
      have extended := ih (some (extend open? ⟨number, text⟩)) (number + 1)
      rw [Option.map_some] at extended
      rw [Option.map_none] at closed
      rw [joinLines, physicalFrom, gather]
      dsimp only at blank asks whole ⊢
      by_cases empty : PhysicalLine.Blank ⟨number, text⟩
      · rw [if_pos (blank.mpr empty), if_pos empty, closed, List.map_append]
        cases open? <;> rfl
      · rw [if_neg (mt blank.mp empty), if_neg empty, asks]
        by_cases continues : PhysicalLine.Continues ⟨number, text⟩
        · rw [if_pos continues, if_pos continues, ← extended, whole]
        · rw [if_neg continues, if_neg continues, closed, List.map_cons, whole, last continues]

/-! ## Where lines go -/

section Gathered

variable {open? : Option LineGroup} {group : LineGroup} {first second : PhysicalLine}
  {lines : List PhysicalLine}

theorem flatMap_toList (open? : Option LineGroup) :
    open?.toList.flatMap LineGroup.lines = pending open? := by
  cases open? with
  | none => rfl
  | some group => exact List.append_nil _

/-- **No line is lost, and none comes twice.** -/
theorem flatMap_gather (open? : Option LineGroup) (lines : List PhysicalLine) :
    (gather open? lines).flatMap LineGroup.lines =
      pending open? ++ lines.filter fun line => ¬ line.Blank := by
  induction lines generalizing open? with
  | nil => rw [gather, flatMap_toList, List.filter_nil, List.append_nil]
  | cons line rest ih =>
      rw [gather]
      by_cases blank : line.Blank
      · rw [if_pos blank, List.flatMap_append, flatMap_toList, ih,
          List.filter_cons_of_neg (by simpa using blank)]
        rfl
      · rw [if_neg blank, List.filter_cons_of_pos (by simpa using blank)]
        split
        · rw [ih]
          change (extend open? line).lines ++ _ = _
          rw [lines_extend, List.append_assoc, List.singleton_append]
        · rw [List.flatMap_cons, lines_extend, ih, List.append_assoc, List.singleton_append]
          rfl

theorem mem_of_gathered (listed : group ∈ gather open? lines) (inside : first ∈ group.lines) :
    first ∈ pending open? ∨ first ∈ lines ∧ ¬ first.Blank := by
  have whole : first ∈ (gather open? lines).flatMap LineGroup.lines :=
    List.mem_flatMap.mpr ⟨group, listed, inside⟩
  rw [flatMap_gather, List.mem_append, List.mem_filter, decide_eq_true_eq] at whole
  exact whole

/-- The lines of a group stand one after the other. -/
theorem infix_of_gathered (listed : group ∈ gather open? lines) :
    group.lines <:+: pending open? ++ lines := by
  induction lines generalizing open? with
  | nil =>
      cases open? with
      | none => cases listed
      | some only =>
          rw [List.mem_singleton.mp listed, List.append_nil]
          exact List.infix_rfl
  | cons line rest ih =>
      have later (inside : group ∈ gather none rest) :
          group.lines <:+: pending open? ++ line :: rest :=
        (ih inside).trans ((List.suffix_cons line rest).trans (List.suffix_append _ _)).isInfix
      rw [gather] at listed
      split at listed
      · rcases List.mem_append.mp listed with closed | inside
        · cases open? with
          | none => cases closed
          | some only =>
              rw [List.mem_singleton.mp closed]
              exact (List.prefix_append _ _).isInfix
        · exact later inside
      · split at listed
        · have extended := ih listed
          rw [pending, Option.elim_some, lines_extend, List.append_assoc] at extended
          exact extended
        · rcases List.mem_cons.mp listed with rfl | inside
          · rw [lines_extend, List.append_cons (pending open?) line rest]
            exact (List.prefix_append _ _).isInfix
          · exact later inside

/-- What is pending stays together. -/
theorem exists_of_pending (begun : LineGroup) (lines : List PhysicalLine) :
    ∃ group ∈ gather (some begun) lines, ∀ line ∈ begun.lines, line ∈ group.lines := by
  induction lines generalizing begun with
  | nil => exact ⟨begun, List.mem_singleton_self begun, fun _ => id⟩
  | cons line rest ih =>
      have grown : ∀ other ∈ begun.lines, other ∈ (extend (some begun) line).lines := by
        intro other inside
        rw [lines_extend]
        exact List.mem_append_left _ inside
      rw [gather]
      split
      · exact ⟨begun, List.mem_append_left _ (List.mem_singleton_self begun), fun _ => id⟩
      · split
        · obtain ⟨group, listed, whole⟩ := ih (extend (some begun) line)
          exact ⟨group, listed, fun other inside => whole other (grown other inside)⟩
        · exact ⟨_, List.mem_cons_self, grown⟩

/-- A line goes to where its neighbour goes if that one continues. -/
theorem together_of_continues (neighbours : [first, second] <:+: lines) (solid : ¬ first.Blank)
    (next : ¬ second.Blank) (continues : first.Continues) :
    ∃ group ∈ gather open? lines, first ∈ group.lines ∧ second ∈ group.lines := by
  induction lines generalizing open? with
  | nil => cases List.infix_nil.mp neighbours
  | cons line rest ih =>
      rcases List.infix_cons_iff.mp neighbours with ⟨after, here⟩ | later
      · obtain ⟨rfl, rfl⟩ : first = line ∧ second :: after = rest := List.cons.inj here
        rw [gather, if_neg solid, if_pos continues]
        generalize opened : extend open? first = begun
        have start : first ∈ begun.lines := by
          rw [← opened, lines_extend]
          exact List.mem_append_right _ (List.mem_singleton_self first)
        have both : first ∈ (extend (some begun) second).lines ∧
            second ∈ (extend (some begun) second).lines := by
          rw [lines_extend]
          exact ⟨List.mem_append_left _ start,
            List.mem_append_right _ (List.mem_singleton_self second)⟩
        obtain ⟨one, two⟩ := both
        rw [gather, if_neg next]
        split
        · obtain ⟨group, listed, whole⟩ := exists_of_pending (extend (some begun) second) after
          exact ⟨group, listed, whole first one, whole second two⟩
        · exact ⟨_, List.mem_cons_self, one, two⟩
      · rw [gather]
        split
        · obtain ⟨group, listed, both⟩ := @ih none later
          exact ⟨group, List.mem_append_right _ listed, both⟩
        · split
          · exact ih later
          · obtain ⟨group, listed, both⟩ := @ih none later
            exact ⟨group, List.mem_cons_of_mem _ listed, both⟩

/-- In a group every line before the last one continues. -/
theorem continues_of_gathered (started : ∀ line ∈ pending open?, line.Continues)
    (listed : group ∈ gather open? lines) : ∀ line ∈ group.lines.dropLast, line.Continues := by
  induction lines generalizing open? with
  | nil =>
      cases open? with
      | none => cases listed
      | some only =>
          rw [List.mem_singleton.mp listed]
          exact fun line inside => started line (List.dropLast_subset _ inside)
  | cons line rest ih =>
      have nothing : ∀ line ∈ pending none, line.Continues := fun _ absent =>
        absurd absent List.not_mem_nil
      rw [gather] at listed
      split at listed
      · rcases List.mem_append.mp listed with closed | later
        · cases open? with
          | none => cases closed
          | some only =>
              rw [List.mem_singleton.mp closed]
              exact fun line inside => started line (List.dropLast_subset _ inside)
        · exact ih nothing later
      · split at listed
        · rename_i continues
          refine ih ?_ listed
          rw [pending, Option.elim_some, lines_extend]
          intro other inside
          rcases List.mem_append.mp inside with earlier | same
          · exact started other earlier
          · rwa [List.mem_singleton.mp same]
        · rcases List.mem_cons.mp listed with rfl | later
          · rw [lines_extend, List.dropLast_concat]
            exact started
          · exact ih nothing later

/-- Two neighbours go to one group only if the first one continues. -/
theorem continues_of_together
    (ascending : lines.Pairwise fun earlier later => earlier.number < later.number)
    (neighbours : [first, second] <:+: lines) (listed : group ∈ gather none lines)
    (one : first ∈ group.lines) (two : second ∈ group.lines) : first.Continues := by
  have less : first.number < second.number :=
    List.rel_of_pairwise_cons (ascending.sublist neighbours.sublist) List.mem_cons_self
  have inside : group.lines.Pairwise fun earlier later => earlier.number < later.number :=
    ascending.sublist (infix_of_gathered listed).sublist
  rcases List.eq_nil_or_concat' group.lines with nothing | ⟨before, last, whole⟩
  · cases nothing
  · have behind : ∀ line ∈ before, line.number < last.number := by
      rw [whole, List.pairwise_append] at inside
      exact fun line earlier => inside.2.2 line earlier last (List.mem_singleton_self last)
    -- The first of the two cannot be the last line, since the other one is behind it.
    have early : first ∈ before := by
      rw [whole] at one two
      rcases List.mem_append.mp one with early | late
      · exact early
      · rw [List.mem_singleton.mp late] at less
        rcases List.mem_append.mp two with earlier | same
        · exact absurd less (Nat.lt_asymm (behind second earlier))
        · rw [List.mem_singleton.mp same] at less
          exact absurd less (Nat.lt_irrefl _)
    have continues := continues_of_gathered (fun _ absent => absurd absent List.not_mem_nil) listed
    rw [whole, List.dropLast_concat] at continues
    exact continues first early

end Gathered

/-- Each line that is not blank is in one group. -/
theorem existsUnique_group {lines : List PhysicalLine} (once : lines.Nodup) {line : PhysicalLine}
    (stands : line ∈ lines) (solid : ¬ line.Blank) :
    ∃! index : Nat, ∃ group : LineGroup,
      (gather none lines)[index]? = some group ∧ line ∈ group.lines := by
  have whole := flatMap_gather none lines
  rw [pending, Option.elim_none, List.nil_append] at whole
  have member : line ∈ (gather none lines).flatMap LineGroup.lines := by
    rw [whole, List.mem_filter, decide_eq_true_eq]
    exact ⟨stands, solid⟩
  have disjoint : (gather none lines).Pairwise fun (one other : LineGroup) =>
      ∀ line ∈ one.lines, line ∉ other.lines := by
    have nodup := once.filter fun line => ¬ line.Blank
    rw [← whole, List.nodup_flatMap] at nodup
    exact nodup.2
  obtain ⟨group, listed, inside⟩ := List.mem_flatMap.mp member
  obtain ⟨index, bound, here⟩ := List.mem_iff_getElem.mp listed
  refine ⟨index, ⟨group, List.getElem?_eq_some_iff.mpr ⟨bound, here⟩, inside⟩, ?_⟩
  rintro other ⟨second, found, again⟩
  obtain ⟨bounded, there⟩ := List.getElem?_eq_some_iff.mp found
  subst here there
  rw [List.pairwise_iff_getElem] at disjoint
  rcases Nat.lt_trichotomy other index with before | same | after
  · exact absurd inside (disjoint other index bounded bound before line again)
  · exact same
  · exact absurd again (disjoint index other bound bounded after line inside)

end LineGroup

/-- **Joining loses nothing and repeats nothing.** A text's logical lines are made of groups of its
physical lines. Every line that is not blank is in exactly one group, and no blank line is in any.
The lines of a group stand one after the other, and two neighbours are in one group if neither is
blank and the first one continues, and only then. A logical line has the number of its first line,
which is greater than that of the logical line before it, and the text that its lines contribute. -/
theorem logicalLines_joined (file text : String) :
    let lines := physicalFrom 1 (physicalLines text.toList)
    ∃ groups : List LineGroup,
      logicalLines file text = groups.map (LineGroup.joined file) ∧
      groups.flatMap LineGroup.lines = lines.filter (fun line => ¬ line.Blank) ∧
      (∀ line ∈ lines,
        (¬ line.Blank →
          ∃! index : Nat, ∃ group : LineGroup, groups[index]? = some group ∧ line ∈ group.lines) ∧
        (line.Blank → ∀ group ∈ groups, line ∉ group.lines)) ∧
      (∀ group ∈ groups, group.lines <:+: lines) ∧
      (∀ first second, [first, second] <:+: lines →
        ((∃ group ∈ groups, first ∈ group.lines ∧ second ∈ group.lines) ↔
          ¬ first.Blank ∧ ¬ second.Blank ∧ first.Continues)) ∧
      (logicalLines file text).Pairwise fun earlier later =>
        earlier.place.number < later.place.number := by
  intro lines
  have ascending := pairwise_physicalFrom 1 (physicalLines text.toList)
  have once : lines.Nodup := nodup_physicalFrom 1 _
  have whole := LineGroup.flatMap_gather none lines
  rw [LineGroup.pending, Option.elim_none, List.nil_append] at whole
  have joined : logicalLines file text = (LineGroup.gather none lines).map (LineGroup.joined file) :=
    LineGroup.joinLines_eq file none 1 (physicalLines text.toList)
  have solid {group : LineGroup} {line : PhysicalLine} (listed : group ∈ LineGroup.gather none lines)
      (inside : line ∈ group.lines) : ¬ line.Blank := by
    rcases LineGroup.mem_of_gathered listed inside with nowhere | ⟨-, solid⟩
    · cases nowhere
    · exact solid
  refine ⟨LineGroup.gather none lines, joined, whole, fun line stands =>
    ⟨LineGroup.existsUnique_group once stands, fun blank group listed inside =>
      solid listed inside blank⟩,
    fun group listed => LineGroup.infix_of_gathered listed, fun first second neighbours => ?_, ?_⟩
  · constructor
    · rintro ⟨group, listed, one, two⟩
      exact ⟨solid listed one, solid listed two,
        LineGroup.continues_of_together ascending neighbours listed one two⟩
    · rintro ⟨one, two, continues⟩
      exact LineGroup.together_of_continues neighbours one two continues
  · have solids := ascending.filter fun line => ¬ line.Blank
    rw [← whole, List.pairwise_flatMap] at solids
    rw [joined, List.pairwise_map]
    exact solids.2.imp fun less => less _ List.mem_cons_self _ List.mem_cons_self

/-- A continuation, one that a blank line cuts off, and a line by itself. -/
example : logicalLines "a" "MOV.I %R1, \\\n  5\n\nADD.I %R1,\\\n \nSUB.I %R1, 1" =
    [⟨⟨"a", 1⟩, "MOV.I %R1,   5".toList⟩, ⟨⟨"a", 4⟩, "ADD.I %R1,".toList⟩,
      ⟨⟨"a", 6⟩, "SUB.I %R1, 1".toList⟩] := by
  decide +kernel

end WordMachine.Assembly
