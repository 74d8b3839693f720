import Mathlib
import ProofOfCustody.OnlineOp.BitsSpec
import ProofOfCustody.Spdz.Plain

/-!
# Folds over shared bits

`KXOR`, `KOR` and `prefix_OR` against parity, disjunction and running disjunctions.
-/

namespace ProofOfCustody.OnlineOp
open Effect Spdz Shared Binary

variable {n : Nat} {F : Type} [Field F] {alphai : Fin n → F}

theorem bit_parity (xs : List Bool) : (bit (parity xs) : F) = ((xs.count true % 2 : Nat) : F) := by
  have odd : (parity xs).toNat = xs.count true % 2 := by
    induction xs with
    | nil => rfl
    | cons x xs ih =>
        rw [parity_cons, List.count_cons]
        cases x with
        | false => simpa using ih
        | true =>
            cases h : parity xs with
            | false =>
                rw [h, Bool.toNat_false] at ih
                simp
                omega
            | true =>
                rw [h, Bool.toNat_true] at ih
                simp
                omega
  rw [← odd]
  cases parity xs <;> simp

theorem bit_any (xs : List Bool) : (bit (xs.foldr or false) : F) = if true ∈ xs then 1 else 0 := by
  induction xs with
  | nil => simp
  | cons x xs ih =>
      cases x with
      | false => simpa using ih
      | true => simp

section Invalid
variable {a : List (Shared n F)} {k : Nat} (invalid : a.length ≠ k) (t : Tape (spdz alphai))
include invalid

theorem KXOR_invalid : ((KXOR a k).run t).result = .error .invalid_length := by
  rw [KXOR, if_pos invalid]
  rfl

theorem KOR_invalid : ((KOR a k).run t).result = .error .invalid_length := by
  rw [KOR, foldPairs, if_pos invalid]
  rfl

theorem prefixOR_invalid : ((prefixOR a k).run t).result = .error .invalid_length := by
  rw [prefixOR, if_pos invalid]
  rfl

end Invalid

variable [NeZero n]

omit [NeZero n] in
theorem KXOR_wraps {a : List (Shared n F)} {k : Nat} (length : a.length = k)
    (large : 2 ^ 31 + 1 < k) (t : Tape (spdz alphai)) :
    ((KXOR a k).run t).result = .error .undefined := by
  rw [KXOR_eq, foldPairs_none length large]
  rfl

omit [NeZero n] in
theorem KOR_wraps {a : List (Shared n F)} {k : Nat} (length : a.length = k)
    (large : 2 ^ 31 + 1 < k) (t : Tape (spdz alphai)) :
    ((KOR a k).run t).result = .error .undefined := by
  rw [KOR, foldPairs_none length large]
  rfl

omit [NeZero n] in
theorem orPrefix_getD (xs : List Bool) (acc : Bool) {i : Nat} (inside : i < xs.length) :
    (orPrefix acc xs).getD i false = (acc || (xs.take (i + 1)).foldr or false) := by
  induction xs generalizing acc i with
  | nil => cases inside
  | cons x xs ih =>
      cases i with
      | zero => simp [orPrefix]
      | succ i =>
          rw [orPrefix, List.getD_cons_succ, ih _ (by simpa using inside), List.take_succ_cons,
            List.foldr_cons, Bool.or_assoc]

end ProofOfCustody.OnlineOp
