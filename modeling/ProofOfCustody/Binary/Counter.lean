import Mathlib

/-!
# Counters of 32 bits

An `int` wraps in two's complement. A loop `for (int i = 0; i < n; i++)` whose bound has a wider
unsigned type ends there: the wrapped counter is compared as an unsigned number.
-/

namespace ProofOfCustody.Binary

/-- The `int` with the lowest 32 bits of `x`. -/
def toInt32 (x : Int) : Int := x.bmod (2 ^ 32)

theorem toInt32_eq {x : Int} (lower : -2 ^ 31 ≤ x) (upper : x < 2 ^ 31) : toInt32 x = x :=
  Int.bmod_eq_of_le (by norm_num; omega) (by norm_num; omega)

theorem toInt32_natCast {n : Nat} (small : n < 2 ^ 31) : toInt32 n = n :=
  toInt32_eq (by omega) (by omega)

theorem toInt32_negative {n : Nat} (lower : 2 ^ 31 ≤ n) (upper : n < 2 ^ 32) :
    toInt32 n < 0 := by
  rw [toInt32, Int.bmod_def]
  norm_num
  split <;> omega

/-- The rounds of `for (int i = 0; i < n; i++)` with a bound `n` of type `size_t`. -/
def intRounds (n : Nat) : Nat := min n (2 ^ 31)

theorem intRounds_eq {n : Nat} (bound : n ≤ 2 ^ 31) : intRounds n = n := min_eq_left bound

end ProofOfCustody.Binary
