/-!
# Numerals

What a power or a numeral means must not depend on what else is in scope. An algebraic hierarchy has
powers of its own, but here those of natural numbers are always the ones of the core library. And the
numerals of the two index types, for the sixteen registers and for the eight that an instruction word
can name, are always formed in the same way.
-/

set_option autoImplicit false

namespace WordMachine

@[default_instance 20000]
instance (priority := 20000) powNat : Pow Nat Nat :=
  instPowNat

-- The numerals of `Fin` ask for the zero that comes from the numeral `0`.
instance neZeroSixteen : @NeZero Nat Zero.ofOfNat0 16 :=
  Nat.instNeZeroSucc

instance neZeroEight : @NeZero Nat Zero.ofOfNat0 8 :=
  Nat.instNeZeroSucc

end WordMachine
