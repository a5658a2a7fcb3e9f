import WordMachine.Listing
import WordMachine.Proofs.Fetching

/-!
# Listings and fetching

A listing reads prefixes with a loop of its own, and yet it shows just what fetching would find.
One scan of the bytes gives the text of what a fetch from the same place gives, and leaves what
the fetch leaves (`Listing.scan_eq`). This holds for malformed code as well: a second prefix of a
kind, an undefined operation after prefixes, prefixes before the end, an odd byte.

So the lines sweep over the bytes, each starting where the fetch before it stopped
(`Listing.Sweeps`), and `Listing.lines_agree_with_fetch` says of every line what it shows and where
the next one starts. What is no instruction is shown by its digits and `??`, which are spelled out
here (`Listing.unknownWord`, `Listing.unknownByte`).
-/

set_option autoImplicit false

namespace WordMachine

/-- The text a listing shows for what was fetched. -/
def Fetched.text : Fetched → String
  | instruction found => found.text
  | illegal word => Listing.illegalText word

namespace Listing

/-- The last word of bytes that are read two by two. -/
def lastWord? : List UInt8 → Option UInt16
  | high :: low :: rest =>
      (lastWord? rest).or (some (UInt16.ofNat (BigEndian.value [high, low])))
  | _ => none

/-! ## Single words -/

theorem next_of_drop {bytes : Array UInt8} {offset : Nat} {high low : UInt8} {rest : List UInt8}
    (stands : bytes.toList.drop offset = high :: low :: rest) :
    ByteReader.next ⟨bytes, offset⟩ =
      .ok (UInt16.ofNat (BigEndian.value [high, low])) ⟨bytes, offset + 2⟩ := by
  have found : ByteReader.wordAt? bytes offset =
      some (UInt16.ofNat (BigEndian.value [high, low])) := by
    rw [ByteReader.wordAt?_eq_some_iff_prefix, wordBytes_ofNat_value, stands]
    exact ⟨rest, rfl⟩
  rw [ByteReader.next, found]

theorem drop_past_word {bytes : List UInt8} {offset : Nat} {high low : UInt8} {rest : List UInt8}
    (stands : bytes.drop offset = high :: low :: rest) : bytes.drop (offset + 2) = rest := by
  rw [← List.drop_drop, stands]
  rfl

theorem next_of_short {bytes : Array UInt8} {offset : Nat}
    (short : (bytes.toList.drop offset).length < 2) :
    ByteReader.next ⟨bytes, offset⟩ = .error (.exhausted offset) ⟨bytes, offset⟩ := by
  rw [List.length_drop, Array.length_toList] at short
  have absent : ByteReader.wordAt? bytes offset = none := by
    rw [ByteReader.wordAt?, Array.getElem?_eq_none (by omega : bytes.size ≤ offset + 1)]
    cases bytes[offset]? <;> rfl
  rw [ByteReader.next, absent]

theorem next_eq_ok {reader after : ByteReader} {word : UInt16}
    (read : ByteReader.next reader = .ok word after) :
    after = ⟨reader.bytes, reader.position + 2⟩ ∧ reader.position + 2 ≤ reader.bytes.size := by
  rw [ByteReader.next] at read
  split at read
  · rename_i found
    cases read
    refine ⟨rfl, ?_⟩
    obtain ⟨inside, _⟩ := Array.getElem?_eq_some_iff.mp (ByteReader.wordAt?_eq_some_iff.mp found).2
    omega
  · cases read

/-- A fetch from a byte string moves the position on, and not past the end. -/
theorem position_of_fetchWith {pending : Pending} {start reader : ByteReader} {found : Fetched}
    (fetched : fetchWith ByteReader.next pending start = .ok found reader) :
    reader.bytes = start.bytes ∧ start.position + 2 ≤ reader.position ∧
      reader.position ≤ start.bytes.size := by
  fun_induction fetchWith ByteReader.next pending start with
  | case1 => cases fetched
  | case2 _ start raw rest read | case3 _ start bad rest read =>
      cases fetched
      obtain ⟨word, step, _⟩ := decodeNext_eq_ok read
      obtain ⟨rfl, inside⟩ := next_eq_ok step
      exact ⟨rfl, Nat.le_refl _, inside⟩
  | case4 _ start found rest read _ _ ih =>
      obtain ⟨word, step, _⟩ := decodeNext_eq_ok read
      obtain ⟨rfl, inside⟩ := next_eq_ok step
      obtain ⟨same, later, within⟩ := ih fetched
      simp only at later within
      exact ⟨same, by omega, within⟩
  | case5 _ start found rest read _ =>
      cases fetched
      obtain ⟨word, step, _⟩ := decodeNext_eq_ok read
      obtain ⟨rfl, inside⟩ := next_eq_ok step
      exact ⟨rfl, Nat.le_refl _, inside⟩

/-! ## One scan and one fetch -/

/-- What a scan shows, given what fetching from the same place does. -/
def scanOf (bytes : Array UInt8) (offset : Nat) (last : Option UInt16) :
    EStateM.Result ReadError ByteReader Fetched → Scan
  | .ok found reader =>
      ⟨found.text, reader.position - offset, bytes.toList.drop reader.position⟩
  | .error _ _ =>
      let rest := bytes.toList.drop offset
      ⟨truncatedText ((lastWord? rest).or last) rest, rest.length, []⟩

theorem widen_scanOf {bytes : Array UInt8} {offset : Nat} {last : Option UInt16}
    {high low : UInt8} {rest : List UInt8}
    (stands : bytes.toList.drop offset = high :: low :: rest) (pending : Pending) :
    (scanOf bytes (offset + 2) (some (UInt16.ofNat (BigEndian.value [high, low])))
        (fetchWith ByteReader.next pending ⟨bytes, offset + 2⟩)).widen 2 =
      scanOf bytes offset last (fetchWith ByteReader.next pending ⟨bytes, offset + 2⟩) := by
  cases fetched : fetchWith ByteReader.next pending ⟨bytes, offset + 2⟩ with
  | ok found reader =>
      obtain ⟨_, later, _⟩ := position_of_fetchWith fetched
      simp only at later
      have covered : 2 + (reader.position - (offset + 2)) = reader.position - offset := by omega
      rw [scanOf, scanOf, Scan.widen, covered]
  | error failure reader =>
      have behind := drop_past_word stands
      simp only [scanOf, Scan.widen, behind, stands, lastWord?, List.length_cons,
        Nat.add_comm 2]
      cases lastWord? rest <;> rfl

theorem scan_eq (bytes : Array UInt8) (offset : Nat) (pending : Pending) (last : Option UInt16) :
    scan pending last (bytes.toList.drop offset) =
      scanOf bytes offset last (fetchWith ByteReader.next pending ⟨bytes, offset⟩) := by
  generalize taken : bytes.toList.drop offset = rest
  -- The scan leads and the fetch follows it word by word.
  fun_induction scan pending last rest generalizing offset with
  | case1 pending last high low rest word raw decoded =>
      have behind := drop_past_word taken
      rw [fetchWith_of_read (next_of_drop taken)]
      simp only [word] at decoded
      simp only [decoded, scanOf, Fetched.text, behind, Nat.add_sub_cancel_left]
  | case2 pending last high low rest word bad decoded =>
      have behind := drop_past_word taken
      rw [fetchWith_of_read (next_of_drop taken)]
      simp only [word] at decoded
      simp only [decoded, scanOf, Fetched.text, behind, Nat.add_sub_cancel_left]
  | case3 pending last high low rest word found decoded extended accepted ih =>
      have behind := drop_past_word taken
      simp only [word] at decoded
      rw [fetchWith_extension (next_of_drop taken) decoded accepted, ih (offset + 2) behind]
      exact widen_scanOf taken extended
  | case4 pending last high low rest word found decoded refused =>
      have behind := drop_past_word taken
      rw [fetchWith_of_read (next_of_drop taken)]
      simp only [word] at decoded
      simp only [decoded, refused, scanOf, Fetched.text, behind, Nat.add_sub_cancel_left]
  | case5 pending last rest short =>
      have few : (bytes.toList.drop offset).length < 2 := by
        rw [taken]
        rcases rest with _ | ⟨high, _ | ⟨low, more⟩⟩
        · exact Nat.zero_lt_two
        · exact Nat.one_lt_two
        · exact absurd rfl (short high low more)
      rw [fetchWith_of_failure (next_of_short few)]
      have absent : lastWord? rest = none := by
        unfold lastWord?
        split
        · exact absurd rfl (short _ _ _)
        · rfl
      rw [scanOf, taken, absent, Option.none_or]

/-! ## All lines -/

/-- Lines that show bytes from an offset on as fetching one thing after the other finds them. -/
inductive Sweeps (bytes : Array UInt8) : Nat → List Line → Prop where
  | done : Sweeps bytes bytes.size []
  | fetched {offset : Nat} {found : Fetched} {reader : ByteReader} {later : List Line}
      (step : fetch ByteReader.next ⟨bytes, offset⟩ = .ok found reader)
      (sweeps : Sweeps bytes reader.position later) :
      Sweeps bytes offset (⟨offset, found.text⟩ :: later)
  | failed {offset : Nat} {failure : ReadError} {reader : ByteReader} (inside : offset < bytes.size)
      (step : fetch ByteReader.next ⟨bytes, offset⟩ = .error failure reader) :
      Sweeps bytes offset
        [⟨offset, truncatedText (lastWord? (bytes.toList.drop offset)) (bytes.toList.drop offset)⟩]

theorem sweeps_linesFrom {bytes : Array UInt8} {offset : Nat} (inside : offset ≤ bytes.size) :
    Sweeps bytes offset (linesFrom offset (bytes.toList.drop offset)) := by
  -- Each line takes some of the bytes that are left.
  generalize left : bytes.size - offset = room
  induction room using Nat.strongRecOn generalizing offset with
  | ind room ih =>
      rcases Nat.eq_or_lt_of_le inside with rfl | before
      · rw [List.drop_of_length_le (Nat.le_of_eq Array.length_toList), linesFrom]
        exact .done
      · have front := scan_eq bytes offset .neutral none
        cases split : bytes.toList.drop offset with
        | nil =>
            rw [List.drop_eq_nil_iff, Array.length_toList] at split
            omega
        | cons byte rest =>
            rw [split] at front
            rw [linesFrom, front]
            cases step : fetchWith ByteReader.next .neutral ⟨bytes, offset⟩ with
            | ok found reader =>
                obtain ⟨_, later, within⟩ := position_of_fetchWith step
                simp only at later within
                have past : offset + (reader.position - offset) = reader.position := by omega
                simp only [scanOf, past]
                exact .fetched step (ih _ (by omega) within rfl)
            | error failure reader =>
                simp only [scanOf, linesFrom, Option.or_none]
                exact .failed before step

/-- An encoding is shown on one line, and the next line starts behind it. -/
theorem linesFrom_of_denotes {encoding : Encoding} {instruction : Instruction}
    (denotes : encoding.Denotes instruction) (offset : Nat) (more : List UInt8) :
    linesFrom offset (encoding.bytes ++ more) =
      ⟨offset, instruction.text⟩ :: linesFrom (offset + encoding.bytes.length) more := by
  let bytes := (encoding.bytes ++ more).toArray
  have stands : Holds bytes 0 encoding.words := Holds.iff_prefix.mpr (List.prefix_append _ _)
  have fetched := fetch_of_holds denotes stands
  have front := scan_eq bytes 0 .neutral none
  rw [show fetchWith ByteReader.next .neutral ⟨bytes, 0⟩ = _ from fetched, scanOf] at front
  have behind : bytes.toList.drop (0 + encoding.bytes.length) = more := by
    rw [Nat.zero_add, List.drop_left]
  rw [behind, List.drop_zero, Nat.sub_zero, Nat.zero_add] at front
  have nonempty : encoding.bytes.length ≠ 0 := by
    rw [encoding.length_bytes]
    have := List.length_pos_iff.mpr encoding.words_ne_nil
    omega
  show linesFrom offset bytes.toList = _
  cases split : bytes.toList with
  | nil =>
      have empty : encoding.bytes ++ more = [] := split
      rw [(List.append_eq_nil_iff.mp empty).1] at nonempty
      exact absurd rfl nonempty
  | cons byte rest =>
      rw [linesFrom, ← split, front]
      rfl

namespace Sweeps

variable {bytes : Array UInt8} {offset : Nat} {lines : List Line}

theorem head_offset (sweeps : Sweeps bytes offset lines) :
    lines.head?.map Line.offset = if offset = bytes.size then none else some offset := by
  cases sweeps with
  | done => rw [if_pos rfl]; rfl
  | fetched step _ =>
      obtain ⟨_, later, within⟩ := position_of_fetchWith step
      simp only at later within
      rw [if_neg (by omega)]
      rfl
  | failed inside _ =>
      rw [if_neg (Nat.ne_of_lt inside)]
      rfl

theorem le_offset (sweeps : Sweeps bytes offset lines) : ∀ line ∈ lines, offset ≤ line.offset := by
  induction sweeps with
  | done => exact fun line stands => nomatch stands
  | fetched step _ ih =>
      obtain ⟨_, later, _⟩ := position_of_fetchWith step
      simp only at later
      intro line stands
      rcases List.mem_cons.mp stands with rfl | further
      · exact Nat.le_refl _
      · exact Nat.le_trans (by omega) (ih line further)
  | failed =>
      intro line stands
      obtain rfl := List.mem_singleton.mp stands
      exact Nat.le_refl _

theorem offset_lt (sweeps : Sweeps bytes offset lines) : ∀ line ∈ lines, line.offset < bytes.size := by
  induction sweeps with
  | done => exact fun line stands => nomatch stands
  | fetched step _ ih =>
      obtain ⟨_, later, within⟩ := position_of_fetchWith step
      simp only at later within
      refine List.forall_mem_cons.mpr ⟨?_, ih⟩
      simp only
      omega
  | failed inside _ => exact List.forall_mem_singleton.mpr inside

theorem pairwise_offset (sweeps : Sweeps bytes offset lines) :
    lines.Pairwise fun earlier later => earlier.offset < later.offset := by
  induction sweeps with
  | done => exact .nil
  | fetched step sweeps ih =>
      obtain ⟨_, later, _⟩ := position_of_fetchWith step
      simp only at later
      refine .cons (fun line stands => ?_) ih
      have beyond := sweeps.le_offset line stands
      simp only
      omega
  | failed => exact List.pairwise_singleton _ _

end Sweeps

/-! ## What is no instruction -/

/-- The line of a word that is no instruction: `0x` and its four digits, then `??` in the column of
the operands. -/
def unknownWord (word : UInt16) : String :=
  "0x" ++ String.ofList ((Nat.toDigits 16 word.toNat).leftpad 4 '0') ++ "     ??"

/-- The line of a single byte, which has two digits. -/
def unknownByte (byte : UInt8) : String :=
  "0x" ++ String.ofList ((Nat.toDigits 16 byte.toNat).leftpad 2 '0') ++ "       ??"

/-- A number is written with as many digits as it has room for, and so the column is filled up with
the same number of blanks each time. -/
theorem unknownText_eq {digits n : Nat} (present : 0 < digits) (small : n < 16 ^ digits) :
    unknownText ("0x" ++ Text.hexPadded digits n) =
      "0x" ++ String.ofList ((Nat.toDigits 16 n).leftpad digits '0') ++
        (String.ofList (List.replicate (9 - digits) ' ') ++ "??") := by
  have few : (Nat.toDigits 16 n).length ≤ digits :=
    (Nat.length_toDigits_le_iff (by decide) present).mpr small
  have length : ("0x" ++ Text.hexPadded digits n).length = 2 + digits := by
    have marker : "0x".length = 2 := by decide
    rw [String.length_append, marker, Text.hexPadded, String.length_ofList, List.length_leftpad,
      Nat.max_eq_left few]
  have missing : mnemonicColumn - (2 + digits) = 9 - digits := by
    rw [mnemonicColumn]
    omega
  rw [unknownText, Instruction.line, Text.padRight, length, missing, String.append_assoc]
  rfl

theorem illegalText_eq (word : UInt16) : illegalText word = unknownWord word := by
  have blanks : String.ofList (List.replicate (9 - 4) ' ') ++ "??" = "     ??" := by decide
  rw [illegalText, unknownText_eq (by decide) word.toNat_lt, blanks]
  rfl

theorem byteText_eq (byte : UInt8) : byteText byte = unknownByte byte := by
  have blanks : String.ofList (List.replicate (9 - 2) ' ') ++ "??" = "       ??" := by decide
  rw [byteText, unknownText_eq (by decide) byte.toNat_lt, blanks]
  rfl

example : (illegalText 0x7E00, byteText 0x42) = ("0x7e00     ??", "0x42       ??") := by decide

/-! ## What a line shows -/

/-- What a line shows is what is fetched at its offset, and the next line, if there is one, starts
where this fetch stops. -/
def Line.Shows (bytes : Array UInt8) (line : Line) (next? : Option Nat) : Prop :=
  match fetch ByteReader.next ⟨bytes, line.offset⟩ with
  | .ok (.instruction found) reader =>
      line.text = found.text ∧
        next? = if reader.position = bytes.size then none else some reader.position
  | .ok (.illegal word) reader =>
      line.text = unknownWord word ∧
        next? = if reader.position = bytes.size then none else some reader.position
  | .error _ _ =>
      next? = none ∧
        match lastWord? (bytes.toList.drop line.offset) with
        | some word => line.text = unknownWord word
        | none => ∃ byte, bytes.toList.drop line.offset = [byte] ∧ line.text = unknownByte byte

theorem lastWord?_eq_none {bytes : List UInt8} (absent : lastWord? bytes = none) :
    bytes = [] ∨ ∃ byte, bytes = [byte] := by
  match bytes, absent with
  | [], _ => exact .inl rfl
  | [byte], _ => exact .inr ⟨byte, rfl⟩
  | high :: low :: rest, absent =>
      rw [lastWord?, Option.or_eq_none_iff] at absent
      exact nomatch absent.2

theorem Sweeps.shows {bytes : Array UInt8} {offset : Nat} {lines : List Line}
    (sweeps : Sweeps bytes offset lines) (index : Nat) (line : Line)
    (stands : lines[index]? = some line) :
    line.Shows bytes (lines[index + 1]?.map Line.offset) := by
  induction sweeps generalizing index with
  | done => exact nomatch stands
  | @fetched offset found reader later step sweeps ih =>
      cases index with
      | zero =>
          obtain rfl : _ = line := Option.some.inj stands
          rw [List.getElem?_cons_succ, ← List.head?_eq_getElem?, sweeps.head_offset, Line.Shows,
            step]
          cases found with
          | instruction found => exact ⟨rfl, rfl⟩
          | illegal word => exact ⟨illegalText_eq word, rfl⟩
      | succ index => exact ih index stands
  | @failed offset failure reader inside step =>
      cases index with
      | zero =>
          obtain rfl : _ = line := Option.some.inj stands
          rw [Line.Shows, step]
          refine ⟨rfl, ?_⟩
          simp only
          cases last : lastWord? (bytes.toList.drop offset) with
          | some word => exact illegalText_eq word
          | none =>
              rcases lastWord?_eq_none last with nothing | ⟨byte, single⟩
              · rw [List.drop_eq_nil_iff, Array.length_toList] at nothing
                omega
              · rw [single]
                exact ⟨byte, rfl, byteText_eq byte⟩
      | succ index => exact nomatch stands

/-- **A listing shows what fetching finds.** The first line starts with the first byte and the
lines are in the order of their offsets. A line shows the instruction or the illegal word that is
fetched at its offset, and the next line starts where this fetch stops, unless that is the end. If
the bytes end within an instruction, this is shown on the last line. -/
theorem lines_agree_with_fetch (bytes : Array UInt8) :
    let lines := Listing.lines bytes.toList
    (lines.head?.map Line.offset = if bytes.size = 0 then none else some 0) ∧
      (lines.Pairwise fun earlier later => earlier.offset < later.offset) ∧
      ∀ index line, lines[index]? = some line →
        Line.Shows bytes line (lines[index + 1]?.map Line.offset) := by
  have sweeps := sweeps_linesFrom (Nat.zero_le bytes.size)
  rw [List.drop_zero] at sweeps
  refine ⟨?_, sweeps.pairwise_offset, sweeps.shows⟩
  exact sweeps.head_offset.trans (ite_congr (propext eq_comm) (fun _ => rfl) fun _ => rfl)

end Listing
end WordMachine
