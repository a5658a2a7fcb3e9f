import WordMachine.Numerals

/-!
# The quanta bank

Instructions are paid for in quanta before they run. The bank holds what has been granted and not
yet spent, a number of 32 bits. A tick grants the same amount each time, on top of what is left over
from the last one; the leftover is first reduced modulo that amount. The sum is one of 32-bit
numbers: it is below twice the grant, and so it can only wrap if the grant is more than half of what
there is room for. Other deposits stop at the largest 32-bit number.

All payments go through `QuantaBank.pay?`, which takes a price from a balance that covers it.
-/

set_option autoImplicit false

namespace WordMachine

/-- The quanta on hand, and the grant of one tick. -/
structure QuantaBank where
  balance : Nat
  grant : Nat
  deriving DecidableEq, Repr

namespace QuantaBank

/-- The largest balance a deposit can reach. -/
def ceiling : Nat := 2 ^ 32 - 1

/-- An empty bank. -/
def ofGrant (grant : Nat) : QuantaBank := ⟨0, grant⟩

/-- The bank after the grant of one tick. The sum wraps as one of 32-bit numbers. -/
def refill (bank : QuantaBank) : QuantaBank :=
  { bank with balance := (bank.balance % bank.grant + bank.grant) % 2 ^ 32 }

/-- The bank after a deposit. -/
def deposit (bank : QuantaBank) (amount : Nat) : QuantaBank :=
  { bank with balance := min (bank.balance + amount) ceiling }

/-- What is left of a balance after paying a price, if the balance covers it. -/
def pay? (balance price : Nat) : Option Nat :=
  if price ≤ balance then some (balance - price) else none

/-- The bank after paying a price, if the balance covers it. -/
def spend? (bank : QuantaBank) (price : Nat) : Option QuantaBank :=
  (pay? bank.balance price).map fun balance => { bank with balance }

/-- The bank with nothing on hand. -/
def clear (bank : QuantaBank) : QuantaBank :=
  { bank with balance := 0 }

section Balances

variable {balance extra price rest : Nat}

/-- What was paid and what is left make up the balance. -/
theorem pay?_eq_some_iff : pay? balance price = some rest ↔ rest + price = balance := by
  rw [pay?, Option.ite_none_right_eq_some, Option.some.injEq]
  omega

theorem pay?_le (paid : pay? balance price = some rest) : rest ≤ balance :=
  Nat.le.intro (pay?_eq_some_iff.mp paid)

/-- A larger balance pays the same price, and more of it is left. -/
theorem pay?_add (paid : pay? balance price = some rest) :
    pay? (balance + extra) price = some (rest + extra) := by
  have parts := pay?_eq_some_iff.mp paid
  exact pay?_eq_some_iff.mpr (by omega)

theorem pay?_eq_none_iff : pay? balance price = none ↔ balance < price := by
  rw [pay?, ite_eq_right_iff, ← Nat.not_le]
  exact imp_congr_right fun _ => ⟨nofun, False.elim⟩

end Balances

/-- **Whatever is granted, the balance has room in 32 bits.** -/
theorem balance_refill_le (bank : QuantaBank) : bank.refill.balance ≤ ceiling :=
  Nat.le_of_lt_succ (Nat.mod_lt _ (Nat.two_pow_pos 32))

theorem balance_deposit_le (bank : QuantaBank) (amount : Nat) :
    (bank.deposit amount).balance ≤ ceiling :=
  Nat.min_le_right _ _

/-- A tick adds its grant to what is left over, as long as that has room. -/
theorem balance_refill (bank : QuantaBank)
    (fits : bank.balance % bank.grant + bank.grant < 2 ^ 32) :
    bank.refill.balance = bank.balance % bank.grant + bank.grant :=
  Nat.mod_eq_of_lt fits

end QuantaBank
end WordMachine
