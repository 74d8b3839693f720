import Mathlib
import ProofOfCustody.OnlineOp.Hash
import ProofOfCustody.Spdz.Plain

/-!
# When the hash and the Legendre symbol are right

`uhf` takes its size from the caller, and `legendre` trusts the mask of its square tuple.
-/

namespace ProofOfCustody.OnlineOp
open Effect Spdz Shared

variable {n : Nat} [NeZero n]

section Hash
variable {F : Type} [Field F] {alphai : Fin n → F}

omit [NeZero n] in
theorem uhf_invalid {input : List F} {size : Nat} (invalid : input.length ≠ size)
    (key : Shared n F) (t : Tape (spdz alphai)) :
    ((uhf key input size).run t).result = .error .invalid_length := by
  rw [uhf, if_pos invalid]
  rfl

omit [NeZero n] in
/-- For one entry the second coefficient is `in[size - 2]` with an unsigned index. -/
theorem uhf_single (key : Shared n F) (x : F) (t : Tape (spdz alphai)) :
    ((uhf key [x] 1).run t).result = .error .undefined := by
  have last : unsigned ((1 : Nat) - 1) = 0 := by decide
  have next : unsigned ((1 : Nat) - 2) = 2 ^ 32 - 1 := by decide
  rw [uhf, if_neg (by simp), last, Online.index_zero, Program.ret_bind, next]
  rfl

omit [NeZero n] in
/-- From this size on the counter starts negative, and the loop does not run. -/
theorem uhf_large (key : Shared n F) {input : List F} {size : Nat} (length : input.length = size)
    (large : 2 ^ 31 + 2 < size) (small : size < 2 ^ 32) (t : Tape (spdz alphai)) :
    ((uhf key input size).run t).result =
      .ok (addPlainInplace alphai (mulPlain key (input.getD (size - 1) 0))
        (input.getD (size - 2) 0)) := by
  have one : unsigned (size - 1) = size - 1 := by
    rw [unsigned_eq (by omega) (by omega)]
    omega
  have two : unsigned (size - 2) = size - 2 := by
    rw [unsigned_eq (by omega) (by omega)]
    omega
  have rounds : ((unsigned (size - 3) : Int).bmod (2 ^ 32) + 1).toNat = 0 := by
    rw [unsigned_eq (by omega) (by omega)]
    have negative : (((size - 3 : Int).toNat : Int)).bmod (2 ^ 32) = size - 3 - 2 ^ 32 := by
      rw [Int.bmod_def]
      omega
    rw [Int.toNat_eq_zero]
    have := negative
    push_cast at this ⊢
    omega
  simp only [uhf, one, two, rounds]
  rw [if_neg (not_not.2 length), Online.index_of_lt (by omega), Online.index_of_lt (by omega),
    List.getD_eq_getElem _ _ (by omega), List.getD_eq_getElem _ _ (by omega)]
  rfl

omit [NeZero n] in
theorem length_unitInput {size : Nat} (positive : 1 ≤ size) :
    (1 :: List.replicate (size - 1) (0 : F)).length = size := by
  rw [List.length_cons, List.length_replicate]
  omega

theorem unitInput_getD {size i : Nat} (later : 0 < i) :
    (1 :: List.replicate (size - 1) (0 : F)).getD i 0 = 0 := by
  obtain ⟨j, rfl⟩ := Nat.exists_eq_succ_of_ne_zero later.ne'
  rw [List.getD_cons_succ, List.getD_eq_getElem?_getD, List.getElem?_replicate]
  split <;> rfl

theorem sum_unitInput {size : Nat} (positive : 1 ≤ size) (x : F) :
    ∑ i ∈ Finset.range size, (1 :: List.replicate (size - 1) (0 : F)).getD i 0 * x ^ i = 1 := by
  rw [Finset.sum_eq_single 0]
  · simp
  · intro i _ later
    rw [unitInput_getD (Nat.pos_of_ne_zero later), zero_mul]
  · intro outside
    exact absurd (Finset.mem_range.2 positive) outside

theorem uhf_exact_iff (alphai : Fin n → F) {size : Nat} (positive : 1 ≤ size)
    (unsignedInt : size < 2 ^ 32) :
    ((∀ (key : Shared n F) (input : List F), input.length = size → ∀ t : Tape (spdz alphai),
        ∃ out, ((uhf key input size).run t).result = .ok out ∧
          val out = ∑ i ∈ Finset.range size, input.getD i 0 * val key ^ i) ↔
      2 ≤ size ∧ size ≤ 2 ^ 31 + 2) ∧
    (∀ (key : Shared n F) (input : List F), input.length = 1 → size = 1 →
      ∀ t : Tape (spdz alphai), ((uhf key input size).run t).result = .error .undefined) ∧
    ∀ (key : Shared n F) (input : List F) (t : Tape (spdz alphai)),
      ((uhf key input size).run t).result = .error .invalid_length ↔ input.length ≠ size := by
  have right (several : 2 ≤ size) (small : size ≤ 2 ^ 31 + 2) (key : Shared n F) (input : List F)
      (length : input.length = size) (t : Tape (spdz alphai)) :
      ∃ out, ((uhf key input size).run t).result = .ok out ∧
        val out = ∑ i ∈ Finset.range size, input.getD i 0 * val key ^ i := by
    have meets : (uhf key input size : Online alphai _).Meets (fun _ => True) _ (fun _ => False) :=
      uhf_spec key length several small
    exact meets.run_ok t fun _ _ => trivial
  refine ⟨⟨fun all => ?_, fun range => right range.1 range.2⟩, ?_, fun key input t => ?_⟩
  · by_contra outside
    rcases positive.lt_or_eq with several | rfl
    · obtain ⟨out, returned, value⟩ := all 0 _ (length_unitInput positive) (plainTape alphai)
      rw [uhf_large _ (length_unitInput positive) (by omega) unsignedInt] at returned
      cases returned
      rw [sum_unitInput positive, addPlainInplace, map_add, val_constant, mulPlain, val_smul,
        unitInput_getD (by omega), unitInput_getD (by omega), zero_mul, add_zero] at value
      exact zero_ne_one value
    · obtain ⟨out, returned, _⟩ := all 0 [1] rfl (plainTape alphai)
      cases (uhf_single 0 1 _).symm.trans returned
  · rintro key input length rfl t
    obtain ⟨x, rfl⟩ := List.length_eq_one_iff.1 length
    exact uhf_single key x t
  · constructor
    · intro failed length
      rcases positive.lt_or_eq with several | rfl
      · rcases Nat.lt_or_ge (2 ^ 31 + 2) size with large | small
        · cases (uhf_large key length large unsignedInt t).symm.trans failed
        · obtain ⟨out, returned, _⟩ := right several small key input length t
          cases returned.symm.trans failed
      · obtain ⟨x, rfl⟩ := List.length_eq_one_iff.1 length
        cases (uhf_single key x t).symm.trans failed
    · intro invalid
      exact uhf_invalid invalid key t

theorem uhf_exact_four :
    let alphai : Fin 2 → ZMod 3 := ![1, 2]
    ∃ out, ((uhf (constant alphai 2) [1, 2, 0, 1] 4).run (plainTape alphai)).result = .ok out ∧
      val out = 1 := by
  intro alphai
  obtain ⟨out, returned, value⟩ := (uhf_exact_iff alphai (show 1 ≤ 4 by norm_num) (by norm_num)).1.2
    (by norm_num) (constant alphai 2) [1, 2, 0, 1] rfl (plainTape alphai)
  refine ⟨out, returned, value.trans ?_⟩
  rw [val_constant]
  decide

theorem uhf_reads_outside :
    let alphai : Fin 2 → ZMod 3 := ![1, 2]
    ((uhf (constant alphai 2) [1] 1).run (plainTape alphai)).result = .error .undefined := by
  intro alphai
  exact uhf_single _ _ _

end Hash

section Legendre
variable {p : Nat} [Fact p.Prime] {alphai : Fin n → ZMod p}

def nextMask (t : Tape (spdz alphai)) : Square alphai := t .square 0

theorem legendre_run (input : Shared n (ZMod p)) (t : Tape (spdz alphai)) :
    ((legendre input).run t).result =
      .ok (quadraticChar (ZMod p) (val (nextMask t).a ^ 2 * val input)) := by
  let rest : Online alphai Int := do
    let s₁ ← mulInplace (nextMask t).aa input
    let c ← Online.reveal .legendre [s₁]
    let c₀ ← Online.index c 0
    return legendreSym p (c₀.val : Int)
  have meets : rest.Meets (fun _ => True)
      (fun out => out = quadraticChar (ZMod p) (val (nextMask t).a ^ 2 * val input))
      (fun _ => False) := by
    refine (mulInplace_spec (nextMask t).aa input).bind fun s₁ hs₁ => ?_
    rw [Online.meets_reveal, List.map_singleton, Online.index_zero, Program.ret_bind, hs₁.1,
      (nextMask t).square]
    change legendreSym p _ = _
    rw [legendreSym, Int.cast_natCast, ZMod.natCast_zmod_val, pow_two]
  obtain ⟨_, returned, rfl⟩ := meets.run_ok (t.pop (Kind.square : Kind n)) fun _ _ => trivial
  exact returned

theorem legendrePrf_run (key input : Shared n (ZMod p)) (t : Tape (spdz alphai)) :
    ((legendrePrf key input).run t).result =
      .ok (if IsSquare (val (nextMask t).a ^ 2 * (val key + val input)) then 1 else 0) := by
  obtain ⟨result, _⟩ := Program.drawn_bind_ok (f := fun res => Program.ret (prfBit res))
    (legendre_run (add key input) t) (Kind.bit : Kind n)
  rw [prfBit_quadraticChar, add, map_add] at result
  exact result

theorem quadraticChar_masked (a x : ZMod p) :
    quadraticChar (ZMod p) (a ^ 2 * x) = quadraticChar (ZMod p) x ↔ a ≠ 0 ∨ x = 0 := by
  by_cases zero : a = 0
  · rw [zero, zero_pow two_ne_zero, zero_mul, MulChar.map_zero, eq_comm,
      quadraticChar_eq_zero_iff]
    simp
  · rw [map_mul, quadraticChar_sq_one' zero, one_mul]
    simp [zero]

theorem isSquare_masked (a x : ZMod p) :
    (IsSquare (a ^ 2 * x) ↔ IsSquare x) ↔ a ≠ 0 ∨ IsSquare x := by
  by_cases zero : a = 0
  · rw [zero, zero_pow two_ne_zero, zero_mul]
    simp
  · have unmasked : (a⁻¹) ^ 2 * (a ^ 2 * x) = x := by
      rw [← mul_assoc, ← mul_pow, inv_mul_cancel₀ zero, one_pow, one_mul]
    simp only [ne_eq, zero, not_false_eq_true, true_or, iff_true]
    constructor
    · intro square
      rw [← unmasked]
      exact (IsSquare.sq _).mul square
    · intro square
      exact (IsSquare.sq _).mul square

/-- `legendre` has no guard for a zero mask: it is right unless the mask is zero and the input is
not, and the bit of `legendre_prf` unless the mask is zero and the sum is no square. -/
theorem legendre_right_iff (alphai : Fin n → ZMod p) (t : Tape (spdz alphai)) :
    (∀ input : Shared n (ZMod p),
      ((∀ out, ((legendre input).run t).result = .ok out →
          out = legendreSym p ((val input).val : Int)) ↔
        val (nextMask t).a ≠ 0 ∨ val input = 0)) ∧
    ∀ key input : Shared n (ZMod p),
      ((∀ res, ((legendrePrf key input).run t).result = .ok res →
          res = if IsSquare (val key + val input) then 1 else 0) ↔
        val (nextMask t).a ≠ 0 ∨ IsSquare (val key + val input)) := by
  refine ⟨fun input => ?_, fun key input => ?_⟩
  · rw [← quadraticChar_masked, legendre_run, legendreSym, Int.cast_natCast, ZMod.natCast_zmod_val]
    simp
  · rw [← isSquare_masked, legendrePrf_run]
    simp only [Except.ok.injEq, forall_eq']
    by_cases masked : IsSquare (val (nextMask t).a ^ 2 * (val key + val input)) <;>
      by_cases square : IsSquare (val key + val input) <;> simp [masked, square]

theorem legendre_right_three :
    let alphai : Fin 2 → ZMod 3 := ![1, 2]
    ∀ out, ((legendre (constant alphai 1)).run (plainTape alphai)).result = .ok out →
      out = legendreSym 3 ((1 : ZMod 3).val : Int) := by
  intro alphai out returned
  have := ((legendre_right_iff alphai (plainTape alphai)).1 (constant alphai 1)).2
    (.inl (by simp [nextMask, plainTape, Square.plain])) out returned
  rwa [val_constant] at this

def zeroMaskTape (alphai : Fin n → ZMod p) : Tape (spdz alphai)
  | .square, _ => (⟨0, 0, by simp, zero_mem _, zero_mem _⟩ : Square alphai)
  | .triple, i => plainTape alphai .triple i
  | .bit, i => plainTape alphai .bit i
  | .input player, i => plainTape alphai (.input player) i

theorem legendre_wrong :
    let alphai : Fin 2 → ZMod 3 := ![1, 2]
    ((legendre (constant alphai 2)).run (zeroMaskTape alphai)).result = .ok 0 ∧
      ((legendrePrf (constant alphai 1) (constant alphai 1)).run (zeroMaskTape alphai)).result = .ok 1 ∧
      legendreSym 3 ((2 : ZMod 3).val : Int) = -1 ∧ ¬IsSquare (1 + 1 : ZMod 3) := by
  intro alphai
  have mask : val (nextMask (zeroMaskTape alphai)).a = 0 := by simp [nextMask, zeroMaskTape]
  refine ⟨?_, ?_, by decide, by decide⟩
  · rw [legendre_run, mask]
    simp
  · rw [legendrePrf_run, mask]
    simp

end Legendre

end ProofOfCustody.OnlineOp
