import WordMachine.Numerals

/-!
# Most significant byte first

Words are stored with their most significant byte first, in code and in memory alike. A sequence
of bytes stands for a number in base 256; `value_encode` and `encode_value` say that writing a
number in a fixed number of bytes and reading bytes are inverse to each other, up to the part of
the number that does not fit.
-/

set_option autoImplicit false

namespace WordMachine.BigEndian

/-- The number that a sequence of bytes stands for. -/
def value : List UInt8 → Nat
  | [] => 0
  | byte :: rest => byte.toNat * 256 ^ rest.length + value rest

/-- The last `count` bytes of a number. -/
def encode : Nat → Nat → List UInt8
  | 0, _ => []
  | count + 1, n => UInt8.ofNat (n / 256 ^ count) :: encode count n

theorem length_encode (count n : Nat) : (encode count n).length = count := by
  induction count with
  | zero => rfl
  | succ count ih => simp [encode, ih]

theorem value_lt (bytes : List UInt8) : value bytes < 256 ^ bytes.length := by
  induction bytes with
  | nil => simp [value]
  | cons byte rest ih =>
      have top : byte.toNat ≤ 255 := by
        have := byte.toNat_lt
        omega
      have scaled : byte.toNat * 256 ^ rest.length ≤ 255 * 256 ^ rest.length :=
        Nat.mul_le_mul_right _ top
      simp only [value, List.length_cons, Nat.pow_succ]
      omega

/-- **Reading back what was written gives the part of the number that fits.** -/
theorem value_encode (count n : Nat) : value (encode count n) = n % 256 ^ count := by
  induction count with
  | zero => simp [encode, value, Nat.mod_one]
  | succ count ih =>
      have top : (UInt8.ofNat (n / 256 ^ count)).toNat = n / 256 ^ count % 256 := by
        simp [UInt8.toNat_ofNat']
      rw [encode, value, ih, length_encode, top, Nat.pow_succ, Nat.mod_mul, Nat.mul_comm,
        Nat.add_comm]

theorem encode_eq_of_mod {count n m : Nat} (same : n % 256 ^ count = m % 256 ^ count) :
    encode count n = encode count m := by
  induction count with
  | zero => rfl
  | succ count ih =>
      have split : ∀ k : Nat, k / 256 ^ count % 256 = k % 256 ^ (count + 1) / 256 ^ count := by
        intro k
        rw [Nat.pow_succ, Nat.mod_mul_right_div_self]
      have low : n % 256 ^ count = m % 256 ^ count := by
        have divides : 256 ^ count ∣ 256 ^ (count + 1) := Nat.pow_dvd_pow _ (Nat.le_succ _)
        rw [← Nat.mod_mod_of_dvd n divides, same, Nat.mod_mod_of_dvd m divides]
      have high : UInt8.ofNat (n / 256 ^ count) = UInt8.ofNat (m / 256 ^ count) := by
        apply UInt8.toNat_inj.mp
        simp only [UInt8.toNat_ofNat']
        exact (split n).trans ((congrArg (· / 256 ^ count) same).trans (split m).symm)
      rw [encode, encode, high, ih low]

/-- **Writing what was read gives the bytes back.** -/
theorem encode_value (bytes : List UInt8) : encode bytes.length (value bytes) = bytes := by
  induction bytes with
  | nil => rfl
  | cons byte rest ih =>
      have bound := value_lt rest
      have positive : 0 < 256 ^ rest.length := Nat.pow_pos (by decide)
      have head : (byte.toNat * 256 ^ rest.length + value rest) / 256 ^ rest.length =
          byte.toNat := by
        rw [Nat.mul_comm, Nat.mul_add_div positive, Nat.div_eq_of_lt bound, Nat.add_zero]
      have tail : encode rest.length (byte.toNat * 256 ^ rest.length + value rest) =
          encode rest.length (value rest) :=
        encode_eq_of_mod (by rw [Nat.mul_comm, Nat.mul_add_mod])
      rw [List.length_cons, encode, value, head, tail, ih]
      simp

end WordMachine.BigEndian
