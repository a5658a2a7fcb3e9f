import WordMachine.Proofs.CanonicalForm
import WordMachine.Proofs.FaultStates

/-!
# The grammar of prefixes

Which words make up one instruction is a matter of their operation codes only. A word has the code
of an operation if it is that operation's word with some payload (`Opcode.Heads`); codes extend the
immediate or the registers, are operations, or are undefined. An instruction is at most one prefix
of each kind, in either order, and an operation (`Prefixes`). What else may be read last is an
undefined word or a prefix of a kind that there already is (`Repeats`).

The grammar is about words, whereas fetching folds prefixes into a pending state. Between the two
stands `Pending.collect`, the state after some prefixes. There is one exactly if the grammar allows
them (`Pending.collect_of_prefixes`, `Pending.prefixes_of_collect`), and their order leaves no trace
in it (`Pending.collect_perm`). A fetch reads prefixes for as long as they can be collected, and
then one word more (`exists_last_word`). The main statement is `fetch_follows_grammar`.
-/

set_option autoImplicit false

namespace WordMachine

/-! ## Kinds of words -/

/-- The words of an operation: its word with an empty payload, and that with any other payload. -/
def Opcode.Heads (opcode : Opcode) (word : UInt16) : Prop :=
  opcode.baseWord.toNat ≤ word.toNat ∧
    word.toNat < opcode.baseWord.toNat + opcode.wordClass.payloadSize

instance (opcode : Opcode) (word : UInt16) : Decidable (opcode.Heads word) :=
  inferInstanceAs (Decidable (_ ∧ _))

/-- Words that extend the immediate. One bit of theirs counts as part of the operation code. -/
def ExtendsImmediate (word : UInt16) : Prop :=
  Opcode.iex.Heads word ∨ Opcode.iexHigh.Heads word

/-- Words that extend the registers. -/
def ExtendsRegisters (word : UInt16) : Prop :=
  Opcode.rex.Heads word

/-- Words of an operation that is defined and no prefix. -/
def IsOperation (word : UInt16) : Prop :=
  ∃ opcode : Opcode, opcode.isExtension = false ∧ opcode ≠ .reserved ∧ opcode.Heads word

/-- Words of the reserved operation and of none. -/
def IsUndefined (word : UInt16) : Prop :=
  Opcode.reserved.Heads word ∨ ∀ opcode : Opcode, ¬ opcode.Heads word

/-- At most one prefix of each kind, in either order. -/
def Prefixes (words : List UInt16) : Prop :=
  ∃ immediate registers : Option UInt16,
    (∀ word ∈ immediate, ExtendsImmediate word) ∧ (∀ word ∈ registers, ExtendsRegisters word) ∧
      (words = immediate.toList ++ registers.toList ∨
        words = registers.toList ++ immediate.toList)

/-- A prefix of a kind that is already among others. -/
def Repeats (prefixes : List UInt16) (word : UInt16) : Prop :=
  ExtendsImmediate word ∧ (∃ earlier ∈ prefixes, ExtendsImmediate earlier) ∨
    ExtendsRegisters word ∧ (∃ earlier ∈ prefixes, ExtendsRegisters earlier)

theorem Prefixes.length_le {words : List UInt16} (admissible : Prefixes words) :
    words.length ≤ 2 := by
  obtain ⟨immediate, registers, -, -, either⟩ := admissible
  rcases either with rfl | rfl <;> cases immediate <;> cases registers <;>
    simp only [Option.toList, List.append_nil, List.nil_append, List.cons_append, List.length_cons,
      List.length_nil] <;>
    omega

namespace Opcode

/-- A word has the code of an operation exactly if looking its code up finds that operation. -/
theorem heads_iff {opcode : Opcode} {word : UInt16} :
    opcode.Heads word ↔
      ofCode? (WordClass.ofWord word) (word.toNat / (WordClass.ofWord word).payloadSize) =
        some opcode := by
  constructor
  · rintro ⟨least, most⟩
    have small : word.toNat - opcode.baseWord.toNat < opcode.wordClass.payloadSize := by omega
    exact ofCode?_of_payload small (by omega)
  · intro found
    have whole := toNat_of_ofCode? found
    have positive : 0 < opcode.wordClass.payloadSize := by
      cases opcode.wordClass <;> decide
    have small := Nat.mod_lt word.toNat positive
    constructor <;> omega

theorem ofWord_of_heads {opcode : Opcode} {word : UInt16} (heads : opcode.Heads word) :
    Decoded.ofWord word = Decoded.ofOpcode word opcode := by
  rw [Decoded.ofWord, heads_iff.mp heads]

theorem ofOpcode_of_operation {opcode : Opcode} (plain : opcode.isExtension = false)
    (defined : opcode ≠ .reserved) (word : UInt16) :
    ∃ raw, Decoded.ofOpcode word opcode = .instruction raw := by
  cases opcode <;> first
    | exact ⟨_, rfl⟩
    | exact absurd rfl defined
    | exact absurd plain Bool.noConfusion

end Opcode

namespace Decoded

variable {word : UInt16}

theorem ofWord_of_extendsImmediate (kind : ExtendsImmediate word) :
    ofWord word = .extension (.immediate (.ofNat (word.toNat % 8192))) := by
  rcases kind with heads | heads <;> exact Opcode.ofWord_of_heads heads

theorem ofWord_of_extendsRegisters (kind : ExtendsRegisters word) :
    ofWord word = .extension (.registers (.ofPayload word)) :=
  Opcode.ofWord_of_heads kind

theorem ofWord_of_isOperation (operation : IsOperation word) :
    ∃ raw, ofWord word = .instruction raw := by
  obtain ⟨opcode, plain, defined, heads⟩ := operation
  obtain ⟨raw, decoded⟩ := Opcode.ofOpcode_of_operation plain defined word
  exact ⟨raw, (Opcode.ofWord_of_heads heads).trans decoded⟩

theorem ofWord_of_isUndefined (undefined : IsUndefined word) : ofWord word = .illegal word := by
  rcases undefined with heads | unassigned
  · exact Opcode.ofWord_of_heads heads
  · rw [ofWord]
    split
    · rename_i opcode found
      exact absurd (Opcode.heads_iff.mpr found) (unassigned opcode)
    · rfl

/-- **Every word is of one of the four kinds.** -/
theorem kinds_of_word (word : UInt16) :
    ExtendsImmediate word ∨ ExtendsRegisters word ∨ IsOperation word ∨ IsUndefined word := by
  by_cases assigned : ∃ opcode : Opcode, opcode.Heads word
  · obtain ⟨opcode, heads⟩ := assigned
    by_cases undefined : opcode = .reserved
    · subst undefined
      exact .inr (.inr (.inr (.inl heads)))
    · cases plain : opcode.isExtension with
      | false => exact .inr (.inr (.inl ⟨opcode, plain, undefined, heads⟩))
      | true =>
          cases opcode <;> first
            | exact .inr (.inl heads)
            | exact .inl (.inl heads)
            | exact .inl (.inr heads)
            | cases plain
  · exact .inr (.inr (.inr (.inr (not_exists.mp assigned))))

/-- The kinds exclude each other, for a word is read as one thing only. -/
theorem isOperation_iff : IsOperation word ↔ ∃ raw, ofWord word = .instruction raw := by
  refine ⟨ofWord_of_isOperation, ?_⟩
  rintro ⟨raw, decoded⟩
  rcases kinds_of_word word with kind | kind | kind | kind
  · cases (ofWord_of_extendsImmediate kind).symm.trans decoded
  · cases (ofWord_of_extendsRegisters kind).symm.trans decoded
  · exact kind
  · cases (ofWord_of_isUndefined kind).symm.trans decoded

theorem isUndefined_iff : IsUndefined word ↔ ofWord word = .illegal word := by
  refine ⟨ofWord_of_isUndefined, fun decoded => ?_⟩
  rcases kinds_of_word word with kind | kind | kind | kind
  · cases (ofWord_of_extendsImmediate kind).symm.trans decoded
  · cases (ofWord_of_extendsRegisters kind).symm.trans decoded
  · obtain ⟨raw, operation⟩ := ofWord_of_isOperation kind
    cases operation.symm.trans decoded
  · exact kind

theorem extendsImmediate_iff :
    ExtendsImmediate word ↔ ∃ high, ofWord word = .extension (.immediate high) := by
  refine ⟨fun kind => ⟨_, ofWord_of_extendsImmediate kind⟩, ?_⟩
  rintro ⟨high, decoded⟩
  rcases kinds_of_word word with kind | kind | kind | kind
  · exact kind
  · cases (ofWord_of_extendsRegisters kind).symm.trans decoded
  · obtain ⟨raw, operation⟩ := ofWord_of_isOperation kind
    cases operation.symm.trans decoded
  · cases (ofWord_of_isUndefined kind).symm.trans decoded

theorem extendsRegisters_iff :
    ExtendsRegisters word ↔ ∃ fields, ofWord word = .extension (.registers fields) := by
  refine ⟨fun kind => ⟨_, ofWord_of_extendsRegisters kind⟩, ?_⟩
  rintro ⟨fields, decoded⟩
  rcases kinds_of_word word with kind | kind | kind | kind
  · cases (ofWord_of_extendsImmediate kind).symm.trans decoded
  · exact kind
  · obtain ⟨raw, operation⟩ := ofWord_of_isOperation kind
    cases operation.symm.trans decoded
  · cases (ofWord_of_isUndefined kind).symm.trans decoded

end Decoded

theorem ExtendsImmediate.not_registers {word : UInt16} (kind : ExtendsImmediate word) :
    ¬ ExtendsRegisters word := by
  intro other
  cases (Decoded.ofWord_of_extendsImmediate kind).symm.trans
    (Decoded.ofWord_of_extendsRegisters other)

/-! ## Collecting prefixes -/

namespace Pending

/-- Two prefixes are accepted in one order if they are in the other, with the same effect. -/
theorem accept_comm (pending : Pending) (first second : Prefix) :
    (pending.accept first).bind (Pending.accept · second) =
      (pending.accept second).bind (Pending.accept · first) := by
  rcases pending with ⟨_ | fields, _ | high⟩ <;> cases first <;> cases second <;> rfl

/-- What is pending after one word more, if it is a prefix that is accepted. -/
def acceptWord (pending : Pending) (word : UInt16) : Option Pending :=
  match Decoded.ofWord word with
  | .extension found => pending.accept found
  | _ => none

/-- What is pending after some words more, if all of them are prefixes that are accepted. -/
def collect (pending : Pending) : List UInt16 → Option Pending
  | [] => some pending
  | word :: rest => (pending.acceptWord word).bind fun extended => extended.collect rest

theorem acceptWord_eq_some_iff {pending extended : Pending} {word : UInt16} :
    pending.acceptWord word = some extended ↔
      ∃ found, Decoded.ofWord word = .extension found ∧ pending.accept found = some extended := by
  rw [acceptWord]
  cases Decoded.ofWord word <;> simp

theorem acceptWord_comm (pending : Pending) (first second : UInt16) :
    (pending.acceptWord first).bind (acceptWord · second) =
      (pending.acceptWord second).bind (acceptWord · first) := by
  unfold acceptWord
  cases Decoded.ofWord first with
  | extension found =>
      cases Decoded.ofWord second with
      | extension other => exact pending.accept_comm found other
      | instruction raw => exact Option.bind_fun_none _
      | illegal bad => exact Option.bind_fun_none _
  | instruction raw => cases Decoded.ofWord second <;> exact (Option.bind_fun_none _).symm
  | illegal bad => cases Decoded.ofWord second <;> exact (Option.bind_fun_none _).symm

/-- **The order of the prefixes leaves no trace.** -/
theorem collect_perm {first second : List UInt16} (same : first.Perm second) (pending : Pending) :
    pending.collect first = pending.collect second := by
  induction same generalizing pending with
  | nil => rfl
  | cons word _ ih =>
      refine congrArg (Option.bind _) ?_
      funext extended
      exact ih extended
  | swap left right rest =>
      have comm := congrArg (Option.bind · (collect · rest)) (pending.acceptWord_comm right left)
      simpa only [collect, Option.bind_assoc] using comm
  | trans _ _ ih ih' => exact (ih pending).trans (ih' pending)

/-- The state after a prefix of each kind, or of one, or none. -/
def ofWords (immediate registers : Option UInt16) : Pending where
  registers := registers.map .ofPayload
  immediate := immediate.map fun word => .ofNat (word.toNat % 8192)

/-- Words that have been collected are of the kinds that were missing. -/
theorem kinds_of_collect {pending extended : Pending} {words : List UInt16}
    (collected : pending.collect words = some extended) :
    ∃ immediate registers : Option UInt16,
      (∀ word ∈ immediate, ExtendsImmediate word) ∧ (∀ word ∈ registers, ExtendsRegisters word) ∧
        (words = immediate.toList ++ registers.toList ∨
          words = registers.toList ++ immediate.toList) ∧
        (pending.immediate.isSome → immediate = none) ∧
        (pending.registers.isSome → registers = none) ∧
        extended.immediate = pending.immediate.or (ofWords immediate registers).immediate ∧
        extended.registers = pending.registers.or (ofWords immediate registers).registers := by
  induction words generalizing pending with
  | nil =>
      cases collected
      exact ⟨none, none, nofun, nofun, .inl rfl, fun _ => rfl, fun _ => rfl,
        Option.or_none.symm, Option.or_none.symm⟩
  | cons word rest ih =>
      obtain ⟨between, first, more⟩ := Option.bind_eq_some_iff.mp collected
      obtain ⟨found, decoded, accepted⟩ := acceptWord_eq_some_iff.mp first
      obtain ⟨immediate, registers, extendsImmediate, extendsRegisters, order, once, once', same,
        same'⟩ := ih more
      rcases pending with ⟨fields, high⟩
      -- The state has the kind of the first word from now on, so the rest has the other one only.
      cases found with
      | immediate bits =>
          have kind : ExtendsImmediate word := Decoded.extendsImmediate_iff.mpr ⟨bits, decoded⟩
          cases high <;> cases accepted
          obtain rfl := once rfl
          cases decoded.symm.trans (Decoded.ofWord_of_extendsImmediate kind)
          refine ⟨some word, registers, ?_, extendsRegisters, .inl ?_, nofun, once', same, same'⟩
          · rintro _ ⟨⟩
            exact kind
          · rcases order with rfl | rfl
            · rfl
            · rw [Option.toList_none, List.append_nil]
              rfl
      | registers bits =>
          have kind : ExtendsRegisters word := Decoded.extendsRegisters_iff.mpr ⟨bits, decoded⟩
          cases fields <;> cases accepted
          obtain rfl := once' rfl
          cases decoded.symm.trans (Decoded.ofWord_of_extendsRegisters kind)
          refine ⟨immediate, some word, extendsImmediate, ?_, .inr ?_, once, nofun, same, same'⟩
          · rintro _ ⟨⟩
            exact kind
          · rcases order with rfl | rfl
            · rw [Option.toList_none, List.append_nil]
              rfl
            · rfl

theorem prefixes_of_collect {pending : Pending} {words : List UInt16}
    (collected : neutral.collect words = some pending) : Prefixes words := by
  obtain ⟨immediate, registers, extendsImmediate, extendsRegisters, order, -⟩ :=
    kinds_of_collect collected
  exact ⟨immediate, registers, extendsImmediate, extendsRegisters, order⟩

/-- **Prefixes are collected if there is at most one of each kind.** -/
theorem collect_of_prefixes {words : List UInt16} (admissible : Prefixes words) :
    ∃ pending, neutral.collect words = some pending := by
  obtain ⟨immediate, registers, extendsImmediate, extendsRegisters, order⟩ := admissible
  refine ⟨ofWords immediate registers, ?_⟩
  have inOrder : neutral.collect (immediate.toList ++ registers.toList) =
      some (ofWords immediate registers) := by
    cases immediate <;> cases registers <;>
      simp only [Option.mem_def, Option.some.injEq, forall_eq', reduceCtorEq, false_imp_iff,
        implies_true] at extendsImmediate extendsRegisters <;>
      simp [collect, acceptWord, Decoded.ofWord_of_extendsImmediate,
        Decoded.ofWord_of_extendsRegisters, *, accept, neutral, ofWords]
  rcases order with rfl | rfl
  · exact inOrder
  · rw [collect_perm List.perm_append_comm]
    exact inOrder

theorem accept_immediate_eq_none {pending : Pending} {high : UInt16} :
    pending.accept (.immediate high) = none ↔ pending.immediate.isSome := by
  rcases pending with ⟨registers, _ | bits⟩ <;> simp [accept]

theorem accept_registers_eq_none {pending : Pending} {fields : RegisterExtension} :
    pending.accept (.registers fields) = none ↔ pending.registers.isSome := by
  rcases pending with ⟨_ | bits, immediate⟩ <;> simp [accept]

/-- The kinds that are pending are the kinds of the words that have been collected. -/
theorem isSome_of_collect {pending : Pending} {words : List UInt16}
    (collected : neutral.collect words = some pending) :
    (pending.immediate.isSome ↔ ∃ earlier ∈ words, ExtendsImmediate earlier) ∧
      (pending.registers.isSome ↔ ∃ earlier ∈ words, ExtendsRegisters earlier) := by
  obtain ⟨immediate, registers, extendsImmediate, extendsRegisters, order, -, -, same, same'⟩ :=
    kinds_of_collect collected
  have members : ∀ word, word ∈ words ↔ word ∈ immediate ∨ word ∈ registers := by
    intro word
    rcases order with rfl | rfl <;> simp [or_comm]
  rw [same, same']
  constructor
  · constructor
    · intro there
      cases immediate with
      | none => cases there
      | some word => exact ⟨word, (members word).mpr (.inl rfl), extendsImmediate word rfl⟩
    · rintro ⟨word, stands, kind⟩
      rcases (members word).mp stands with own | other
      · cases own
        rfl
      · exact absurd (extendsRegisters word other) kind.not_registers
  · constructor
    · intro there
      cases registers with
      | none => cases there
      | some word => exact ⟨word, (members word).mpr (.inr rfl), extendsRegisters word rfl⟩
    · rintro ⟨word, stands, kind⟩
      rcases (members word).mp stands with other | own
      · exact absurd kind (extendsImmediate word other).not_registers
      · cases own
        rfl

/-- A prefix is refused exactly if its kind has been collected. -/
theorem repeats_iff {pending : Pending} {words : List UInt16} {word : UInt16}
    (collected : neutral.collect words = some pending) :
    Repeats words word ↔
      ∃ found, Decoded.ofWord word = .extension found ∧ pending.accept found = none := by
  obtain ⟨immediate, registers⟩ := isSome_of_collect collected
  rw [Repeats, ← immediate, ← registers]
  constructor
  · rintro (⟨kind, there⟩ | ⟨kind, there⟩)
    · exact ⟨_, Decoded.ofWord_of_extendsImmediate kind, accept_immediate_eq_none.mpr there⟩
    · exact ⟨_, Decoded.ofWord_of_extendsRegisters kind, accept_registers_eq_none.mpr there⟩
  · rintro ⟨found, decoded, refused⟩
    cases found with
    | immediate high =>
        exact .inl ⟨Decoded.extendsImmediate_iff.mpr ⟨high, decoded⟩,
          accept_immediate_eq_none.mp refused⟩
    | registers fields =>
        exact .inr ⟨Decoded.extendsRegisters_iff.mpr ⟨fields, decoded⟩,
          accept_registers_eq_none.mp refused⟩

end Pending

/-! ## The words of a fetch -/

section Source

variable {ε σ : Type}

/-- A source that keeps a record of the words that it has yielded. -/
def recorded (next : WordSource ε σ) : WordSource ε (List UInt16 × σ) := fun (words, state) =>
  match next state with
  | .ok word rest => .ok word (words ++ [word], rest)
  | .error failure rest => .error failure (words, rest)

variable {next : WordSource ε σ}

theorem recorded_of_read {start rest : σ} {word : UInt16} (read : next start = .ok word rest)
    (before : List UInt16) :
    recorded next (before, start) = .ok word (before ++ [word], rest) := by
  rw [recorded, read]

theorem recorded_of_failure {start rest : σ} {failure : ε}
    (failed : next start = .error failure rest) (before : List UInt16) :
    recorded next (before, start) = .error failure (before, rest) := by
  rw [recorded, failed]

theorem Yields.recorded {start finish : σ} {words : List UInt16}
    (yields : Yields next start words finish) (before : List UInt16) :
    Yields (recorded next) (before, start) words (before ++ words, finish) := by
  induction yields generalizing before with
  | nil state =>
      rw [List.append_nil]
      exact .nil _
  | @cons start between finish word rest read more ih =>
      have later := ih (before ++ [word])
      rw [List.append_assoc] at later
      exact .cons (recorded_of_read read before) later

theorem Yields.append_iff {start finish : σ} {first second : List UInt16} :
    Yields next start (first ++ second) finish ↔
      ∃ between, Yields next start first between ∧ Yields next between second finish := by
  induction first generalizing start with
  | nil =>
      constructor
      · exact fun yields => ⟨start, .nil start, yields⟩
      · rintro ⟨_, ⟨⟩, yields⟩
        exact yields
  | cons word rest ih =>
      constructor
      · rintro (_ | ⟨read, more⟩)
        obtain ⟨between, front, back⟩ := ih.mp more
        exact ⟨between, .cons read front, back⟩
      · rintro ⟨between, _ | ⟨read, more⟩, back⟩
        exact .cons read (ih.mpr ⟨between, more, back⟩)

/-- A fetch goes on after prefixes that can be collected. -/
theorem fetchWith_of_collect {pending extended : Pending} {start between : σ}
    {words : List UInt16} (yields : Yields next start words between)
    (collected : pending.collect words = some extended) :
    fetchWith next pending start = fetchWith next extended between := by
  induction yields generalizing pending with
  | nil state =>
      cases collected
      rfl
  | cons read more ih =>
      obtain ⟨first, accepted, later⟩ := Option.bind_eq_some_iff.mp collected
      obtain ⟨found, decoded, accepted⟩ := Pending.acceptWord_eq_some_iff.mp accepted
      rw [fetchWith_extension read decoded accepted]
      exact ih later

/-- Prefixes are read for as long as they can be collected. -/
theorem exists_last_word (next : WordSource ε σ) (pending : Pending) (start : σ) :
    ∃ words between extended, Yields next start words between ∧
      pending.collect words = some extended ∧
        ∀ word rest, next between = .ok word rest → extended.acceptWord word = none := by
  cases read : next start with
  | error failure rest =>
      refine ⟨[], start, pending, .nil start, rfl, fun word rest' found => ?_⟩
      cases read.symm.trans found
  | ok word rest =>
      cases accepted : pending.acceptWord word with
      | none =>
          refine ⟨[], start, pending, .nil start, rfl, fun word' rest' found => ?_⟩
          cases read.symm.trans found
          exact accepted
      | some extended =>
          obtain ⟨words, between, final, yields, collected, last⟩ :=
            exists_last_word next extended rest
          refine ⟨word :: words, between, final, .cons read yields, ?_, last⟩
          rw [Pending.collect, accepted, Option.bind_some, collected]
termination_by pending.room
decreasing_by
  obtain ⟨found, -, taken⟩ := Pending.acceptWord_eq_some_iff.mp accepted
  have := Pending.room_accept taken
  omega

/-- What is made of a word that can not be collected. -/
def Pending.conclude (pending : Pending) (word : UInt16) : Fetched :=
  match Decoded.ofWord word with
  | .instruction raw => .instruction (pending.apply raw)
  | _ => .illegal word

theorem fetchWith_of_last {pending : Pending} {start rest : σ} {word : UInt16}
    (read : next start = .ok word rest) (refused : pending.acceptWord word = none) :
    fetchWith next pending start = .ok (pending.conclude word) rest := by
  rw [fetchWith_of_read read, Pending.conclude]
  cases decoded : Decoded.ofWord word with
  | instruction raw => rfl
  | illegal bad =>
      rw [Decoded.eq_of_ofWord_illegal decoded]
  | extension found =>
      rw [Pending.acceptWord, decoded] at refused
      dsimp only at refused ⊢
      rw [refused]
      dsimp only
      rw [Decoded.word_of_ofWord_extension decoded]

namespace Pending

variable {pending : Pending} {words : List UInt16} {word : UInt16}

theorem conclude_eq_instruction_iff (pending : Pending) :
    (∃ found, pending.conclude word = .instruction found) ↔ IsOperation word := by
  rw [Decoded.isOperation_iff, conclude]
  cases Decoded.ofWord word <;> simp

theorem conclude_eq_illegal_iff (collected : neutral.collect words = some pending)
    (refused : pending.acceptWord word = none) {bad : UInt16} :
    pending.conclude word = .illegal bad ↔
      (IsUndefined word ∨ Repeats words word) ∧ word = bad := by
  rw [Decoded.isUndefined_iff, repeats_iff collected, conclude]
  cases decoded : Decoded.ofWord word with
  | instruction raw => simp
  | illegal other =>
      obtain rfl := Decoded.eq_of_ofWord_illegal decoded
      simp
  | extension found =>
      rw [acceptWord, decoded] at refused
      simpa using fun _ => refused

end Pending

/-- What is fetched is what the words that are read come to. -/
theorem fetch_of_collect {pending : Pending} {words : List UInt16} {word : UInt16}
    {start finish : σ} (collected : Pending.neutral.collect words = some pending)
    (refused : pending.acceptWord word = none)
    (yields : Yields next start (words ++ [word]) finish) :
    fetch next start = .ok (pending.conclude word) finish := by
  obtain ⟨between, front, _ | ⟨read, _ | _⟩⟩ := Yields.append_iff.mp yields
  rw [fetch, fetchWith_of_collect front collected, fetchWith_of_last read refused]

/-- **The words that are read decide what is fetched, from whatever source they are.** -/
theorem fetch_of_same_words {start finish : σ} {fetched : Fetched}
    (outcome : fetch next start = .ok fetched finish) :
    ∃ words, words ≠ [] ∧ Yields next start words finish ∧
      ∀ {ε' σ' : Type} (other : WordSource ε' σ') (start' finish' : σ'),
        Yields other start' words finish' → fetch other start' = .ok fetched finish' := by
  obtain ⟨prefixes, between, pending, yields, collected, last⟩ :=
    exists_last_word next .neutral start
  rw [fetch, fetchWith_of_collect yields collected] at outcome
  cases read : next between with
  | error failure rest =>
      rw [fetchWith_of_failure read] at outcome
      cases outcome
  | ok word rest =>
      have refused := last word rest read
      rw [fetchWith_of_last read refused] at outcome
      cases outcome
      exact ⟨prefixes ++ [word], List.concat_ne_nil word prefixes,
        Yields.append_iff.mpr ⟨between, yields, .cons read (.nil _)⟩,
        fun other start' finish' same => fetch_of_collect collected refused same⟩

end Source

/-- **Fetching keeps to the grammar.** -/
theorem fetch_recorded {ε σ : Type} (next : WordSource ε σ) (start : σ) :
    match fetch (recorded next) ([], start) with
    | .ok fetched (words, finish) =>
        fetch next start = .ok fetched finish ∧ Yields next start words finish ∧
          1 ≤ words.length ∧ words.length ≤ 3 ∧
          ((∃ found, fetched = .instruction found) ↔
            ∃ prefixes word, Prefixes prefixes ∧ IsOperation word ∧ words = prefixes ++ [word]) ∧
          ∀ bad, fetched = .illegal bad ↔
            ∃ prefixes, (IsUndefined bad ∨ Repeats prefixes bad) ∧ words = prefixes ++ [bad]
    | .error failure (words, finish) =>
        fetch next start = .error failure finish ∧ Prefixes words ∧
          ∃ between, Yields next start words between ∧ next between = .error failure finish := by
  obtain ⟨prefixes, between, pending, yields, collected, last⟩ :=
    exists_last_word next .neutral start
  have admissible := Pending.prefixes_of_collect collected
  rw [fetch, fetch, fetchWith_of_collect yields collected,
    fetchWith_of_collect (yields.recorded []) collected, List.nil_append]
  cases read : next between with
  | error failure finish =>
      rw [fetchWith_of_failure read, fetchWith_of_failure (recorded_of_failure read prefixes)]
      exact ⟨rfl, admissible, between, yields, read⟩
  | ok word finish =>
      have refused := last word finish read
      have short := admissible.length_le
      have whole : Yields next start (prefixes ++ [word]) finish :=
        Yields.append_iff.mpr ⟨between, yields, .cons read (.nil finish)⟩
      rw [fetchWith_of_last read refused,
        fetchWith_of_last (recorded_of_read read prefixes) refused]
      refine ⟨rfl, whole, ?_, ?_, ?_, ?_⟩
      · rw [List.length_append, List.length_singleton]
        omega
      · rw [List.length_append, List.length_singleton]
        omega
      · rw [Pending.conclude_eq_instruction_iff]
        constructor
        · exact fun operation => ⟨prefixes, word, admissible, operation, rfl⟩
        · rintro ⟨others, same, -, operation, split⟩
          obtain ⟨-, rfl⟩ := List.append_singleton_inj.mp split
          exact operation
      · intro bad
        rw [Pending.conclude_eq_illegal_iff collected refused]
        constructor
        · rintro ⟨kind, rfl⟩
          exact ⟨prefixes, kind, rfl⟩
        · rintro ⟨others, kind, split⟩
          obtain ⟨rfl, rfl⟩ := List.append_singleton_inj.mp split
          exact ⟨kind, rfl⟩

/-- **Exchanging the prefixes does not change the instruction.** -/
theorem fetch_exchanged {prefixes : List UInt16} {word : UInt16}
    (admissible : Prefixes prefixes) (operation : IsOperation word) :
    ∃ found, found.opcode.Heads word ∧ ∀ order : List UInt16, order.Perm prefixes →
      ∀ {ε σ : Type} (next : WordSource ε σ) (start finish : σ),
        Yields next start (order ++ [word]) finish →
          fetch next start = .ok (.instruction found) finish := by
  obtain ⟨pending, collected⟩ := Pending.collect_of_prefixes admissible
  obtain ⟨raw, decoded⟩ := Decoded.ofWord_of_isOperation operation
  have refused : pending.acceptWord word = none := by
    rw [Pending.acceptWord, decoded]
  have concluded : pending.conclude word = .instruction (pending.apply raw) := by
    rw [Pending.conclude, decoded]
  refine ⟨pending.apply raw, ?_, fun order same ε σ next start finish yields => ?_⟩
  · rw [Pending.opcode_apply]
    exact Opcode.heads_iff.mpr (Decoded.eq_instruction_of_ofWord decoded).1
  · rw [← concluded]
    exact fetch_of_collect ((Pending.collect_perm same _).trans collected) refused yields

/-! ## The same bytes in memory -/

namespace Core

/-- **A byte string is fetched alike from memory.** -/
theorem fetch_of_bytes {core : Core} {base : UInt32} {bytes : Array UInt8} {position : Nat}
    {fetched : Fetched} {after : ByteReader}
    (placed : core.memory.flat.row base bytes.size = bytes.toList.map some)
    (here : core.pointer = base + .ofNat position)
    (outcome : WordMachine.fetch ByteReader.next ⟨bytes, position⟩ = .ok fetched after) :
    core.fetch = .ok (fetched, base + .ofNat after.position) := by
  obtain ⟨words, nonempty, yields, alike⟩ := fetch_of_same_words outcome
  obtain ⟨holds, rfl⟩ := yields.holds
  obtain ⟨rest, whole⟩ := Holds.iff_prefix.mp holds
  have inside := holds.le_size nonempty
  have front : (bytes.toList.take position).length = position := by
    rw [List.length_take, Array.length_toList]
    dsimp only at inside
    omega
  have split : bytes.toList = bytes.toList.take position ++ words.flatMap wordBytes ++ rest := by
    rw [List.append_assoc, whole, List.take_append_drop]
  rw [← Array.length_toList, split] at placed
  have stands := FlatMemory.row_of_infix placed
  rw [front, ← here] at stands
  obtain ⟨finish, read⟩ := yields_of_readBytes (AddressSpace.readBytes_of_row stands)
  rw [fetch, alike _ _ _ read, finish_of_yields read, here, UInt32.add_assoc, ← UInt32.ofNat_add]

end Core

/-- **Fetching accepts exactly the grammar of prefixes.** From any source one to three words are
read, of which all but the last are prefixes. The last is an operation if an instruction is fetched,
and undefined or a second prefix of a kind if none is; if the source fails, it fails at a word that
can not be read. The instruction does not depend on the order of its prefixes, nor on the source: it
is the same from a byte string and from the memory in which the bytes stand. -/
theorem fetch_follows_grammar :
    (∀ {ε σ : Type} (next : WordSource ε σ) (start : σ),
      match fetch (recorded next) ([], start) with
      | .ok fetched (words, finish) =>
          fetch next start = .ok fetched finish ∧ Yields next start words finish ∧
            1 ≤ words.length ∧ words.length ≤ 3 ∧
            ((∃ found, fetched = .instruction found) ↔
              ∃ prefixes word, Prefixes prefixes ∧ IsOperation word ∧ words = prefixes ++ [word]) ∧
            ∀ bad, fetched = .illegal bad ↔
              ∃ prefixes, (IsUndefined bad ∨ Repeats prefixes bad) ∧ words = prefixes ++ [bad]
      | .error failure (words, finish) =>
          fetch next start = .error failure finish ∧ Prefixes words ∧
            ∃ between, Yields next start words between ∧ next between = .error failure finish) ∧
    (∀ prefixes word, Prefixes prefixes → IsOperation word →
      ∃ found, found.opcode.Heads word ∧ ∀ order : List UInt16, order.Perm prefixes →
        ∀ {ε σ : Type} (next : WordSource ε σ) (start finish : σ),
          Yields next start (order ++ [word]) finish →
            fetch next start = .ok (.instruction found) finish) ∧
    ∀ (core : Core) (base : UInt32) (bytes : Array UInt8) (position : Nat) (fetched : Fetched)
      (after : ByteReader),
      core.memory.flat.row base bytes.size = bytes.toList.map some →
      core.pointer = base + .ofNat position →
      fetch ByteReader.next ⟨bytes, position⟩ = .ok fetched after →
        core.fetch = .ok (fetched, base + .ofNat after.position) :=
  ⟨fetch_recorded, fun _ _ => fetch_exchanged, fun _ _ _ _ _ _ => Core.fetch_of_bytes⟩

/-- A core at an instruction that goes on around the end of memory, in a region of its own. -/
def Core.aroundTheEnd : Core where
  registers := .cleared
  pointer := 0xFFFFFFFC
  memory :=
    ⟨[.ofContents 0xFFFFFFFC 4 #[0x80, 0x01, 0xE0, 0x01], .ofContents 0 2 #[0x00, 0x09]]⟩

theorem fetch_follows_grammar_aroundTheEnd :
    let move : Instruction := ⟨.movI, .immReg 0x41 ⟨9, .word⟩⟩
    (Prefixes [0xE001, 0x8001] ∧ IsOperation 0x0009 ∧
      Core.aroundTheEnd.memory.flat.row 0xFFFFFFFC 6 = reorderedMove.toList.map some ∧
      fetch ByteReader.next ⟨reorderedMove, 0⟩ = .ok (.instruction move) ⟨reorderedMove, 6⟩) ∧
    Core.aroundTheEnd.fetch = .ok (.instruction move, 2) ∧
    ∀ {ε σ : Type} (next : WordSource ε σ) (start finish : σ),
      Yields next start [0xE001, 0x8001, 0x0009] finish →
        fetch next start = .ok (.instruction move) finish := by
  intro move
  have admissible : Prefixes [0xE001, 0x8001] := by
    refine ⟨some 0xE001, some 0x8001, ?_, ?_, .inl rfl⟩
    · rintro _ ⟨⟩
      exact .inl (by decide)
    · rintro _ ⟨⟩
      exact (by decide : Opcode.rex.Heads 0x8001)
  have operation : IsOperation 0x0009 := ⟨.movI, rfl, nofun, by decide⟩
  have placed : Core.aroundTheEnd.memory.flat.row 0xFFFFFFFC 6 =
      reorderedMove.toList.map some := by decide +kernel
  have fetched : fetch ByteReader.next ⟨reorderedMove, 0⟩ =
      .ok (.instruction move) ⟨reorderedMove, 6⟩ := by cbv
  obtain ⟨-, exchanged, memory⟩ := fetch_follows_grammar
  refine ⟨⟨admissible, operation, placed, fetched⟩,
    memory _ 0xFFFFFFFC reorderedMove 0 _ _ placed (by decide) fetched, ?_⟩
  obtain ⟨found, -, alike⟩ := exchanged _ _ admissible operation
  have stands : Holds reorderedMove 0 [0x8001, 0xE001, 0x0009] := ⟨rfl, rfl, rfl, trivial⟩
  have read := alike [0x8001, 0xE001] (.swap _ _ _) ByteReader.next _ _ stands.yields
  obtain rfl : found = move := by
    cases read.symm.trans fetched
    rfl
  intro ε σ next start finish yields
  exact alike _ (.refl _) next start finish yields

end WordMachine
