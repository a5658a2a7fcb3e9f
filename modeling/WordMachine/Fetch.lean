import WordMachine.BigEndian
import WordMachine.Decoded

/-!
# Fetching instructions

A word source is an action that yields the next word or fails, and in either case leaves a state
behind: a position in a byte string, an address in memory. Fetching takes words from a source up
to the first that is no prefix and folds the prefixes into it (`fetch`). An undefined operation or
a second prefix of a kind ends the instruction as illegal. Bad words never make fetching fail;
only the source can.

The prefixes of one instruction never reach the next, and the fetched instruction has the format
its operation asks for and a price (`fetch_quanta_pos`).
-/

set_option autoImplicit false

namespace WordMachine

/-- An action that yields the words of a source one by one. -/
abbrev WordSource (ε σ : Type) := EStateM ε σ UInt16

/-- The outcome of fetching: a complete instruction, or the word that made it illegal. -/
inductive Fetched where
  | instruction (instruction : Instruction)
  | illegal (word : UInt16)
  deriving DecidableEq, Repr

/-- The price of what was fetched. Illegal operations are free, so that they are always reached. -/
def Fetched.quanta : Fetched → Nat
  | instruction found => found.quanta
  | illegal _ => 0

section Source

variable {ε σ : Type}

/-- Reads and classifies one word. -/
def decodeNext (next : WordSource ε σ) : EStateM ε σ Decoded := do
  let word ← next
  return Decoded.ofWord word

/-- Reads the rest of an instruction of which some prefixes have been read. -/
def fetchWith (next : WordSource ε σ) (pending : Pending) : EStateM ε σ Fetched := fun start =>
  match decodeNext next start with
  | .error failure rest => .error failure rest
  | .ok (.instruction raw) rest => .ok (.instruction (pending.apply raw)) rest
  | .ok (.illegal word) rest => .ok (.illegal word) rest
  | .ok (.extension word) rest =>
      match _accepted : pending.accept word with
      | some extended => fetchWith next extended rest
      | none => .ok (.illegal word.word) rest
termination_by pending.room
decreasing_by
  have := Pending.room_accept _accepted
  omega

/-- Reads one complete instruction. -/
def fetch (next : WordSource ε σ) : EStateM ε σ Fetched :=
  fetchWith next .neutral

theorem decodeNext_eq_ok {next : WordSource ε σ} {start finish : σ} {decoded : Decoded}
    (read : decodeNext next start = .ok decoded finish) :
    ∃ word, next start = .ok word finish ∧ Decoded.ofWord word = decoded := by
  simp only [decodeNext, bind, EStateM.bind, pure, EStateM.pure] at read
  cases step : next start with
  | ok word rest =>
      rw [step] at read
      cases read
      exact ⟨word, rfl, rfl⟩
  | error failure rest =>
      rw [step] at read
      cases read

theorem fetchWith_quanta_pos {next : WordSource ε σ} {pending : Pending} {start finish : σ}
    {found : Instruction}
    (fetched : fetchWith next pending start = .ok (.instruction found) finish) :
    0 < found.quanta := by
  fun_induction fetchWith next pending start with
  | case1 => cases fetched
  | case2 pending start raw rest read =>
      cases fetched
      obtain ⟨word, _, decoded⟩ := decodeNext_eq_ok read
      rw [Instruction.quanta, Pending.opcode_apply]
      exact Decoded.quanta_pos decoded
  | case3 => cases fetched
  | case4 _ _ _ _ _ _ _ ih => exact ih fetched
  | case5 => cases fetched

/-- **A fetched instruction has a price.** -/
theorem fetch_quanta_pos {next : WordSource ε σ} {start finish : σ} {found : Instruction}
    (fetched : fetch next start = .ok (.instruction found) finish) : 0 < found.quanta :=
  fetchWith_quanta_pos fetched

end Source

/-! ## Words from a byte string -/

/-- A position in a byte string. -/
structure ByteReader where
  bytes : Array UInt8
  position : Nat

/-- The bytes end before the next word does. -/
inductive ReadError where
  | exhausted (position : Nat)
  deriving DecidableEq, Repr

def ReadError.message : ReadError → String
  | exhausted position => "no complete instruction word at offset " ++ toString position

namespace ByteReader

/-- Whether no byte is left. -/
def isExhausted (reader : ByteReader) : Bool :=
  decide (reader.bytes.size ≤ reader.position)

/-- The two bytes at an offset as a word. -/
def wordAt? (bytes : Array UInt8) (offset : Nat) : Option UInt16 :=
  match bytes[offset]?, bytes[offset + 1]? with
  | some high, some low => some (UInt16.ofNat (BigEndian.value [high, low]))
  | _, _ => none

/-- The next word, after which the position moves on. A failure leaves the position alone. -/
def next : WordSource ReadError ByteReader := fun reader =>
  match wordAt? reader.bytes reader.position with
  | some word => .ok word { reader with position := reader.position + 2 }
  | none => .error (.exhausted reader.position) reader

end ByteReader
end WordMachine
