import Mathlib
import ProofOfCustody.Params.Primes
import ProofOfCustody.Poc.CustodySpec

/-!
# One step against two steps

The one-step function hashes with powers of the first key only, the two-step functions with the
powers of both keys in turn and one more term.
-/

namespace ProofOfCustody.Poc
open Effect Spdz Shared OnlineOp Params

section Comparison
variable {n p : Nat} [Fact p.Prime] {alphai : Fin n → ZMod p}

def computeCustodyBitTwoSteps (N : Nat) (keys : List (Shared n (ZMod p))) (msg : List (ZMod p)) :
    Online alphai Int := do
  let pre_key ← computeCustodyBitOffline N keys
  computeCustodyBitOnline N pre_key msg

variable [NeZero n]

theorem twoSteps_spec {A : Draw (spdz alphai) → Prop} {E : Err → Prop}
    (masks : ∀ m : Square alphai, A ⟨Site.square .legendre, m⟩ → val m.a ≠ 0)
    {N : Nat} (s0 s1 : Shared n (ZMod p)) {msg : List (ZMod p)} (length : msg.length = N)
    (several : 2 ≤ N) :
    Program.Meets A (fun res => res =
      if IsSquare (val s1 + tableHash [val s0, val s1] msg) then 1 else 0) E
      (computeCustodyBitTwoSteps N [s0, s1] msg : Online alphai _) := by
  refine (offline_spec s0 s1 several).bind fun pre_key filled => ?_
  refine (online_spec masks filled length several).imp fun res h => ?_
  simpa [turnPower] using h

def hornerValue (s0 s1 : ZMod p) (msg : List (ZMod p)) : ZMod p :=
  s1 + ∑ i ∈ Finset.range CHUNK_NUM, msg.getD i 0 * s0 ^ i

def alternatingValue (s0 s1 : ZMod p) (msg : List (ZMod p)) : ZMod p :=
  s1 + (∑ i ∈ Finset.range CHUNK_NUM, msg.getD i 0 * (if i % 2 = 1 then s1 else s0) ^ i +
    s0 ^ CHUNK_NUM)

omit [NeZero n] in
theorem tableHash_pair (s0 s1 : ZMod p) {msg : List (ZMod p)} (length : msg.length = CHUNK_NUM) :
    s1 + tableHash [s0, s1] msg = alternatingValue s0 s1 msg := by
  have turn (i : Nat) : turnPower [s0, s1] i = (if i % 2 = 1 then s1 else s0) ^ i := by
    rcases Nat.mod_two_eq_zero_or_one i with h | h <;> simp [turnPower, h]
  have last : turnPower [s0, s1] CHUNK_NUM = s0 ^ CHUNK_NUM := by
    rw [turn, if_neg (by rw [CHUNK_NUM_eq]; decide)]
  rw [tableHash, length, last, alternatingValue]
  simp only [turn]

theorem oneStep_run {s0 s1 : Shared n (ZMod p)} {msg : List (ZMod p)}
    (length : msg.length = CHUNK_NUM) {t : Tape (spdz alphai)}
    (masks : MasksNonzero ((computeCustodyBit CHUNK_NUM [s0, s1] msg).run t)) :
    ((computeCustodyBit CHUNK_NUM [s0, s1] msg).run t).result =
      .ok (if IsSquare (hornerValue (val s0) (val s1) msg) then 1 else 0) := by
  obtain ⟨res, returned, rfl⟩ := (oneStep_spec (E := fun _ => False) masks s0 s1 length
    (by rw [CHUNK_NUM_eq]; decide) (by rw [CHUNK_NUM_eq]; decide)).run_ok t fun _ h => h
  exact returned

theorem twoSteps_run {s0 s1 : Shared n (ZMod p)} {msg : List (ZMod p)}
    (length : msg.length = CHUNK_NUM) {t : Tape (spdz alphai)}
    (masks : MasksNonzero ((computeCustodyBitTwoSteps CHUNK_NUM [s0, s1] msg).run t)) :
    ((computeCustodyBitTwoSteps CHUNK_NUM [s0, s1] msg).run t).result =
      .ok (if IsSquare (alternatingValue (val s0) (val s1) msg) then 1 else 0) := by
  obtain ⟨res, returned, rfl⟩ := (twoSteps_spec (E := fun _ => False) masks s0 s1 length
    (by rw [CHUNK_NUM_eq]; decide)).run_ok t fun _ h => h
  rw [returned, tableHash_pair _ _ length]

/-- The two ways to the bit agree exactly when their two hashes are squares together. -/
theorem oneStep_eq_twoSteps_iff {s0 s1 : Shared n (ZMod p)} {msg : List (ZMod p)}
    (length : msg.length = CHUNK_NUM) {t t' : Tape (spdz alphai)}
    (masks : MasksNonzero ((computeCustodyBit CHUNK_NUM [s0, s1] msg).run t))
    (masks' : MasksNonzero ((computeCustodyBitTwoSteps CHUNK_NUM [s0, s1] msg).run t')) :
    ((computeCustodyBit CHUNK_NUM [s0, s1] msg).run t).result =
        ((computeCustodyBitTwoSteps CHUNK_NUM [s0, s1] msg).run t').result ↔
      (IsSquare (hornerValue (val s0) (val s1) msg) ↔
        IsSquare (alternatingValue (val s0) (val s1) msg)) := by
  rw [oneStep_run length masks, twoSteps_run length masks', Except.ok.injEq]
  by_cases horner : IsSquare (hornerValue (val s0) (val s1) msg) <;>
    by_cases alternating : IsSquare (alternatingValue (val s0) (val s1) msg) <;>
    simp [horner, alternating]

theorem oneStep_eq_twoSteps_zero :
    let alphai : Fin 2 → ZMod 3 := ![1, 2]
    ((computeCustodyBit CHUNK_NUM [0, 0] (List.replicate CHUNK_NUM 0)).run
        (plainTape alphai)).result =
      ((computeCustodyBitTwoSteps CHUNK_NUM [0, 0] (List.replicate CHUNK_NUM 0)).run
        (plainTape alphai)).result := by
  intro alphai
  refine (oneStep_eq_twoSteps_iff List.length_replicate (plainTape_masksNonzero alphai _)
    (plainTape_masksNonzero alphai _)).2 ?_
  have zeros (i : Nat) : (List.replicate CHUNK_NUM (0 : ZMod 3)).getD i 0 = 0 := by
    rw [List.getD_eq_getElem?_getD, List.getElem?_replicate]
    split <;> rfl
  have closing : (0 : ZMod 3) ^ CHUNK_NUM = 0 := zero_pow (by rw [CHUNK_NUM_eq]; decide)
  simp only [hornerValue, alternatingValue, zeros, zero_mul, Finset.sum_const_zero, map_zero, closing,
    add_zero]

end Comparison

section Differ

theorem isSquare_two : IsSquare (2 : ZMod prime128) := by
  rw [ZMod.euler_criterion prime128 (by decide +kernel)]
  exact (Certificate.power_eq_one (c := ⟨prime128, 2, []⟩) (by decide +kernel) _).1
    (by decide +kernel)

theorem not_isSquare_three : ¬IsSquare (3 : ZMod prime128) := by
  rw [ZMod.euler_criterion prime128 (by decide +kernel)]
  exact fun root => absurd
    ((Certificate.power_eq_one (c := ⟨prime128, 3, []⟩) (by decide +kernel) _).2 root)
    (by decide +kernel)

/-- The zero message under the keys `1` and `2`: the one-step value is `2`, the two-step value
`3`. -/
theorem oneStep_ne_twoSteps :
    ¬∀ (s0 s1 : Shared 1 (ZMod prime128)) (msg : List (ZMod prime128)),
      msg.length = CHUNK_NUM → ∀ t t' : Tape (spdz fun _ : Fin 1 => (1 : ZMod prime128)),
      MasksNonzero ((computeCustodyBit CHUNK_NUM [s0, s1] msg).run t) →
      MasksNonzero ((computeCustodyBitTwoSteps CHUNK_NUM [s0, s1] msg).run t') →
      ((computeCustodyBit CHUNK_NUM [s0, s1] msg).run t).result =
        ((computeCustodyBitTwoSteps CHUNK_NUM [s0, s1] msg).run t').result := by
  intro agree
  let alphai : Fin 1 → ZMod prime128 := fun _ => 1
  have length : (List.replicate CHUNK_NUM (0 : ZMod prime128)).length = CHUNK_NUM :=
    List.length_replicate
  have zeros (i : Nat) : (List.replicate CHUNK_NUM (0 : ZMod prime128)).getD i 0 = 0 := by
    rw [List.getD_eq_getElem?_getD, List.getElem?_replicate]
    split <;> rfl
  have same := agree (constant alphai 1) (constant alphai 2) _ length (plainTape alphai)
    (plainTape alphai) (plainTape_masksNonzero alphai _) (plainTape_masksNonzero alphai _)
  rw [oneStep_run length (plainTape_masksNonzero alphai _),
    twoSteps_run length (plainTape_masksNonzero alphai _), Except.ok.injEq] at same
  simp only [hornerValue, alternatingValue, zeros, zero_mul, Finset.sum_const_zero, val_constant,
    one_pow, zero_add, add_zero] at same
  rw [if_pos isSquare_two, if_neg (by simpa [show (2 : ZMod prime128) + 1 = 3 by norm_num] using
    not_isSquare_three)] at same
  exact absurd same (by decide)

end Differ

end ProofOfCustody.Poc
