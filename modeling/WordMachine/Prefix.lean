import WordMachine.Instruction

/-!
# Prefix words

An instruction word has no room for the high bits of its immediate, the high bit of a register
index or the view of a register. They stand in prefix words before it: one that extends the
registers, with a three-bit field for each slot, and one that extends the immediate, with up to
thirteen bits. Each kind comes at most once and they come in either order.

While an instruction is being read the prefixes wait in a `Pending`, which refuses a second one of
a kind. `Pending.room` counts the kinds still missing; every accepted prefix takes one away
(`Pending.room_accept`), so an instruction is at most three words long.
-/

set_option autoImplicit false

namespace WordMachine

/-- The extension fields of the four register slots. -/
structure RegisterExtension where
  d : Fin 8
  c : Fin 8
  b : Fin 8
  a : Fin 8
  deriving DecidableEq, Repr

namespace RegisterExtension

/-- The fields held in the payload of a prefix word. -/
def ofPayload (payload : UInt16) : RegisterExtension :=
  ⟨Slot.field .d payload, Slot.field .c payload, Slot.field .b payload, Slot.field .a payload⟩

/-- The field of a slot. -/
def field (fields : RegisterExtension) : Slot → Fin 8
  | .d => fields.d
  | .c => fields.c
  | .b => fields.b
  | .a => fields.a

/-- The payload that holds the fields. -/
def payload (fields : RegisterExtension) : UInt16 :=
  UInt16.ofNat (fields.d.val * 512 + fields.c.val * 64 + fields.b.val * 8 + fields.a.val)

end RegisterExtension

/-- A prefix word: extension fields for the registers, or the high bits of an immediate. -/
inductive Prefix where
  | registers (fields : RegisterExtension)
  | immediate (high : UInt16)
  deriving DecidableEq, Repr

/-- The word of a prefix. Its immediate bits run on into the low bit of the operation code, so
thirteen of them fit. -/
def Prefix.word : Prefix → UInt16
  | registers fields => Opcode.rex.baseWord + fields.payload
  | immediate high => Opcode.iex.baseWord + UInt16.ofNat (high.toNat % 8192)

/-- The prefixes read so far, waiting for their instruction. -/
structure Pending where
  registers : Option RegisterExtension
  immediate : Option UInt16
  deriving DecidableEq, Repr

namespace Pending

/-- No prefix has been read. -/
def neutral : Pending := ⟨none, none⟩

def isNeutral (pending : Pending) : Bool :=
  pending.registers.isNone && pending.immediate.isNone

/-- The pending prefixes with one more, unless there is one of its kind already. -/
def accept (pending : Pending) : Prefix → Option Pending
  | .registers fields =>
      if pending.registers.isNone then some { pending with registers := some fields } else none
  | .immediate high =>
      if pending.immediate.isNone then some { pending with immediate := some high } else none

/-- The number of prefixes that can still be accepted. -/
def room (pending : Pending) : Nat :=
  (if pending.registers.isNone then 1 else 0) + (if pending.immediate.isNone then 1 else 0)

/-- An instruction with the pending high bits joined to its immediate, if it has one. -/
def extendImmediate (pending : Pending) (raw : Instruction) : Instruction :=
  match pending.immediate, raw.immediate? with
  | some high, some low =>
      raw.withImmediate (raw.operands.format.joinImmediate high low)
  | _, _ => raw

/-- An instruction with the pending extension fields put into its registers. -/
def extendRegisters (pending : Pending) (raw : Instruction) : Instruction :=
  match pending.registers with
  | some fields =>
      raw.mapRegisters fun slot register => Register.ofParts register.lowBits (fields.field slot)
  | none => raw

/-- The effect of the pending prefixes on a raw instruction. -/
def apply (pending : Pending) (raw : Instruction) : Instruction :=
  pending.extendRegisters (pending.extendImmediate raw)

/-- Accepting a prefix takes up room for one. -/
theorem room_accept {pending extended : Pending} {word : Prefix}
    (accepted : pending.accept word = some extended) : extended.room + 1 = pending.room := by
  rcases pending with ⟨registers, immediate⟩
  cases word <;> cases registers <;> cases immediate <;>
    simp [accept] at accepted <;> subst accepted <;> rfl

theorem opcode_apply (pending : Pending) (raw : Instruction) :
    (pending.apply raw).opcode = raw.opcode := by
  rcases pending with ⟨registers, immediate⟩
  simp only [apply, extendRegisters, extendImmediate]
  cases registers <;> cases immediate <;> cases raw.immediate? <;> rfl

end Pending
end WordMachine
