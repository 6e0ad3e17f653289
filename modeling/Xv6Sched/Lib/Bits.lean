import Mathlib.Data.Nat.Bitwise
import Mathlib.Tactic.IntervalCases

/-!
# Xv6Sched.Lib.Bits — one bit of a byte

A byte `x : UInt8` and the mask `1 << k` of its bit `k < 8`: the mask is `2 ^ k`, the test
`x & m` is nonzero exactly when bit `k` of `x` is set, `x | m` sets that bit and no other, and
`x & ~m` clears it and no other.  Everything is stated through `Nat.testBit` of `x.toNat`, so a
bitmap of bytes is reasoned about bit by bit.
-/

namespace Bits

variable {k : Nat}

theorem toNat_one_shiftLeft (hk : k < 8) : ((1 : UInt8) <<< k.toUInt8).toNat = 2 ^ k := by
  have hk' : k.toUInt8.toNat = k := by
    rw [Nat.toUInt8_eq, UInt8.toNat_ofNat']
    omega
  rw [UInt8.toNat_shiftLeft, hk', Nat.mod_eq_of_lt hk, UInt8.toNat_one, Nat.one_shiftLeft]
  exact Nat.mod_eq_of_lt (Nat.pow_lt_pow_right (by norm_num) hk)

/-- The test `(x & m) != 0` reads bit `k`. -/
theorem and_one_shiftLeft_ne_zero (x : UInt8) (hk : k < 8) :
    x &&& ((1 : UInt8) <<< k.toUInt8) ≠ 0 ↔ x.toNat.testBit k = true := by
  rw [Ne, ← UInt8.toNat_inj, UInt8.toNat_and, toNat_one_shiftLeft hk, Nat.and_two_pow,
    UInt8.toNat_zero]
  cases x.toNat.testBit k <;> simp

/-- `x | m` sets bit `k`. -/
theorem testBit_or_one_shiftLeft (x : UInt8) (hk : k < 8) (j : Nat) :
    (x ||| ((1 : UInt8) <<< k.toUInt8)).toNat.testBit j = (x.toNat.testBit j || decide (k = j)) := by
  rw [UInt8.toNat_or, toNat_one_shiftLeft hk, Nat.testBit_or, Nat.testBit_two_pow]

/-- `x & ~m` clears bit `k`. -/
theorem testBit_and_not_one_shiftLeft (x : UInt8) (hk : k < 8) {j : Nat} (hj : j < 8) :
    (x &&& ~~~((1 : UInt8) <<< k.toUInt8)).toNat.testBit j =
      (x.toNat.testBit j && !decide (k = j)) := by
  rw [UInt8.toNat_and, UInt8.toNat_not, toNat_one_shiftLeft hk, Nat.testBit_and]
  -- `~m` is the byte `0xff` with bit `k` flipped
  have hx : UInt8.size - 1 - 2 ^ k = (2 ^ 8 - 1) ^^^ 2 ^ k := by interval_cases k <;> rfl
  rw [hx, Nat.testBit_xor, Nat.testBit_two_pow_sub_one, Nat.testBit_two_pow]
  simp [hj]

end Bits
