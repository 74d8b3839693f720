import Mathlib
import ProofOfCustody.Bls.Commit
import ProofOfCustody.Bls.Lagrange

/-!
# Verifiable secret sharing

`VSS::gen_share` and `VSS::verify_share`. The evaluation of polynomials belongs to the library; the
coefficients are residues or points.
-/

namespace ProofOfCustody.Bls
open Polynomial Binary

structure Evaluator (r : Nat) (G1 : Type) where
  basePointG1 : G1
  frEvaluatePolynomial : List (ZMod r) → ZMod r → ZMod r
  g1EvaluatePolynomial : List G1 → ZMod r → G1

variable {r : Nat} [Fact r.Prime] {G1 : Type} [AddCommGroup G1] [Module (ZMod r) G1]

def evaluatePolynomial {V : Type} [AddCommGroup V] [Module (ZMod r) V] (coeff : List V)
    (num : ZMod r) : V :=
  coeff.foldr (fun c acc => c + num • acc) 0

/-- Without any coefficient the library fails and leaves its output alone. -/
structure Evaluator.Documented (lib : Evaluator r G1) : Prop where
  basePoint_ne_zero : lib.basePointG1 ≠ 0
  frEvaluatePolynomial_eq : ∀ coeff num, coeff ≠ [] →
    lib.frEvaluatePolynomial coeff num = evaluatePolynomial coeff num
  g1EvaluatePolynomial_eq : ∀ coeff num, coeff ≠ [] →
    lib.g1EvaluatePolynomial coeff num = evaluatePolynomial coeff num

/-- The shares and the public coefficients; `draw 0` is the secret. -/
def genShare (lib : Evaluator r G1) (nparty threshold : Nat) (draw : Nat → ZMod r) :
    Except Failure (List (ZMod r) × List G1) :=
  -- the counter `i` turns negative before it exceeds `threshold`, and `coeff[i]` is no element
  if 2 ^ 31 ≤ threshold then throw .undefined
  else
    let coeff := (List.range (threshold + 1)).map draw
    let aux := coeff.map fun c => c • lib.basePointG1
    -- every `i` is at most the greatest `uint32_t`: the loop does not end
    if 2 ^ 32 ≤ nparty + 1 then throw .bad_alloc
    else
      let shares := (List.range' 1 nparty).map fun i : Nat =>
        lib.frEvaluatePolynomial coeff (toInt32 i : Int)
      return (shares, aux)

/-- A copy loop that stops early leaves the rest of `pcoeff` uninitialised. -/
def verifyShare [DecidableEq G1] (lib : Evaluator r G1) (share : ZMod r) (aux : List G1) (n : Nat) :
    Except Failure Bool :=
  let ret := share • lib.basePointG1
  if intRounds aux.length < aux.length then throw .undefined
  else
    let retEval := lib.g1EvaluatePolynomial aux (toInt32 n : Int)
    return ret = retEval

noncomputable def polynomial : List (ZMod r) → (ZMod r)[X]
  | [] => 0
  | c :: coeff => C c + X * polynomial coeff

theorem polynomial_eval (coeff : List (ZMod r)) (x : ZMod r) :
    (polynomial coeff).eval x = evaluatePolynomial coeff x := by
  induction coeff with
  | nil => simp [polynomial, evaluatePolynomial]
  | cons c coeff ih =>
      rw [polynomial, eval_add, eval_C, eval_mul, eval_X, ih]
      rfl

theorem polynomial_degree (coeff : List (ZMod r)) :
    (polynomial coeff).degree < coeff.length := by
  induction coeff with
  | nil => simp [polynomial]
  | cons c coeff ih =>
      rw [polynomial, List.length_cons]
      apply (degree_add_le _ _).trans_lt
      apply max_lt
      · exact degree_C_le.trans_lt (by exact_mod_cast Nat.succ_pos _)
      · rw [mul_comm, degree_mul_X, Nat.cast_succ]
        exact WithBot.add_lt_add_right (by simp) ih

theorem evaluatePolynomial_smul (coeff : List (ZMod r)) (g : G1) (x : ZMod r) :
    evaluatePolynomial (coeff.map (· • g)) x = evaluatePolynomial coeff x • g := by
  induction coeff with
  | nil => simp [evaluatePolynomial]
  | cons c coeff ih =>
      change c • g + x • evaluatePolynomial (coeff.map (· • g)) x = _
      rw [ih, smul_smul, ← add_smul]
      rfl

section VerifyShare
variable [DecidableEq G1] {lib : Evaluator r G1}

theorem verifyShare_ok (lib : Evaluator r G1) (share : ZMod r) {aux : List G1}
    (short : aux.length ≤ 2 ^ 31) (n : Nat) :
    verifyShare lib share aux n = .ok (decide
      (share • lib.basePointG1 = lib.g1EvaluatePolynomial aux (toInt32 n : Int))) := by
  rw [verifyShare, intRounds_eq short, if_neg (lt_irrefl _)]
  rfl

theorem verifyShare_error {share : ZMod r} {aux : List G1} {n : Nat} {e : Failure}
    (thrown : verifyShare lib share aux n = .error e) : e = .undefined := by
  rw [verifyShare] at thrown
  split at thrown <;> cases thrown
  rfl

theorem verifyShare_true (documented : lib.Documented) (share : ZMod r) {coeff : List (ZMod r)}
    (nonempty : coeff ≠ []) (short : coeff.length ≤ 2 ^ 31) (n : Nat) :
    verifyShare lib share (coeff.map (· • lib.basePointG1)) n = .ok true ↔
      share = evaluatePolynomial coeff ((toInt32 n : Int) : ZMod r) := by
  rw [verifyShare_ok lib share (by simpa using short), Except.ok.injEq, decide_eq_true_iff,
    documented.g1EvaluatePolynomial_eq _ _ (by simpa using nonempty), evaluatePolynomial_smul]
  exact (smul_left_injective (ZMod r) documented.basePoint_ne_zero).eq_iff

theorem verifyShare_iff (documented : lib.Documented) (share : ZMod r) {coeff : List (ZMod r)}
    (nonempty : coeff ≠ []) (short : coeff.length ≤ 2 ^ 31) {n : Nat} (small : n < 2 ^ 31) :
    verifyShare lib share (coeff.map (· • lib.basePointG1)) n = .ok true ↔
      share = evaluatePolynomial coeff (n : ZMod r) := by
  rw [verifyShare_true documented share nonempty short, toInt32_natCast small, Int.cast_natCast]

end VerifyShare

section GenShare
variable {lib : Evaluator r G1} (nparty threshold : Nat) (draw : Nat → ZMod r)

def coefficients (threshold : Nat) (draw : Nat → ZMod r) : List (ZMod r) :=
  (List.range (threshold + 1)).map draw

omit [Fact r.Prime] in
@[simp] theorem length_coefficients : (coefficients threshold draw).length = threshold + 1 := by
  simp [coefficients]

omit [Fact r.Prime] in
theorem coefficients_ne_nil : coefficients threshold draw ≠ [] :=
  List.ne_nil_of_length_eq_add_one (length_coefficients threshold draw)

theorem evaluate_coefficients_zero :
    evaluatePolynomial (coefficients threshold draw) (0 : ZMod r) = draw 0 := by
  simp [coefficients, evaluatePolynomial, List.range_succ_eq_map]

theorem head_coefficients (g : G1) :
    ((coefficients threshold draw).map (· • g)).headD 0 = draw 0 • g := by
  simp [coefficients, List.range_succ_eq_map]

variable {nparty threshold draw}

theorem genShare_length {out : List (ZMod r) × List G1}
    (generated : genShare lib nparty threshold draw = .ok out) :
    out.1.length = nparty ∧ nparty + 1 < 2 ^ 32 := by
  rw [genShare] at generated
  split at generated
  · cases generated
  · dsimp only at generated
    split at generated
    · cases generated
    · cases generated
      exact ⟨by simp, by omega⟩

variable (lib draw)

theorem genShare_ok (parties : nparty + 1 < 2 ^ 32) (bound : threshold < 2 ^ 31) :
    genShare lib nparty threshold draw = .ok
      ((List.range nparty).map fun i : Nat =>
        lib.frEvaluatePolynomial (coefficients threshold draw) (toInt32 (i + 1 : Nat) : Int),
      (coefficients threshold draw).map (· • lib.basePointG1)) := by
  have shares : ((List.range' 1 nparty).map fun i : Nat => lib.frEvaluatePolynomial
      ((List.range (threshold + 1)).map draw) (toInt32 i : Int)) =
      (List.range nparty).map fun i : Nat =>
        lib.frEvaluatePolynomial (coefficients threshold draw) (toInt32 (i + 1 : Nat) : Int) := by
    rw [List.range'_eq_map_range, List.map_map]
    apply List.map_congr_left
    intro i _
    rw [Function.comp_apply, add_comm 1 i]
    rfl
  rw [genShare, if_neg (not_le.2 bound)]
  dsimp only
  rw [if_neg (not_le.2 parties), shares]
  rfl

theorem genShare_eq (parties : nparty < 2 ^ 31) (bound : threshold < 2 ^ 31) :
    genShare lib nparty threshold draw = .ok
      ((List.range nparty).map fun i : Nat =>
        lib.frEvaluatePolynomial (coefficients threshold draw) ((i + 1 : Nat) : ZMod r),
      (coefficients threshold draw).map (· • lib.basePointG1)) := by
  rw [genShare_ok lib draw (by omega) bound, Except.ok.injEq, Prod.mk.injEq]
  refine ⟨?_, rfl⟩
  apply List.map_congr_left
  intro i inside
  rw [List.mem_range] at inside
  rw [toInt32_natCast (by omega), Int.cast_natCast]

variable {lib}

theorem evaluate_coefficients (documented : lib.Documented) (num : ZMod r) :
    lib.frEvaluatePolynomial (coefficients threshold draw) num =
      evaluatePolynomial (coefficients threshold draw) num :=
  documented.frEvaluatePolynomial_eq _ _ (coefficients_ne_nil threshold draw)

end GenShare

theorem lagrangeStep_foldl {pos : Nat} (small : pos < 2 ^ 31) {ks : List Nat}
    (counters : ∀ k ∈ ks, k < 2 ^ 31) (a b : ZMod r) :
    ks.foldl (lagrangeStep pos) (a, b) =
      (a * ((ks.filter (· ≠ pos)).map fun k : Nat => -(k : ZMod r)).prod,
        b * ((ks.filter (· ≠ pos)).map fun k : Nat => (pos : ZMod r) - k).prod) := by
  induction ks generalizing a b with
  | nil => simp
  | cons k ks ih =>
      obtain ⟨first, rest⟩ := List.forall_mem_cons.1 counters
      have negated : toInt32 (-toInt32 k) = -k := by
        rw [toInt32_natCast first, toInt32_eq (by omega) (by omega)]
      by_cases same : k = pos
      · rw [List.foldl_cons, List.filter_cons_of_neg (by simp [same])]
        simp [lagrangeStep, same, ih rest]
      · rw [List.foldl_cons, List.filter_cons_of_pos (by simp [same])]
        simp [lagrangeStep, same, negated, toInt32_natCast small, ih rest, mul_assoc,
          sub_eq_add_neg]

theorem getLagrangeCoeff_eq {n pos : Nat} (positive : 0 < pos) (bound : pos ≤ n)
    (counters : n < 2 ^ 31) :
    getLagrangeCoeff n pos = .ok
      ((Lagrange.basis (Finset.Icc 1 n) (fun k : Nat => (k : ZMod r)) pos).eval 0) := by
  have points : (List.range' 1 n).toFinset = Finset.Icc 1 n := by
    ext k
    simp only [List.mem_toFinset, List.mem_range'_1, Finset.mem_Icc]
    omega
  have distinct : (List.range' 1 n).Nodup := List.nodup_range' 1
  have product (f : Nat → ZMod r) : (((List.range' 1 n).filter (· ≠ pos)).map f).prod =
      ∏ k ∈ (Finset.Icc 1 n).erase pos, f k := by
    rw [← List.prod_toFinset f (distinct.filter _), List.toFinset_filter, points]
    simp only [decide_eq_true_iff, Finset.filter_ne']
  have within : ∀ k ∈ List.range' 1 n, k < 2 ^ 31 := by
    intro k inside
    rw [List.mem_range'_1] at inside
    omega
  rw [getLagrangeCoeff, if_neg (by omega), if_neg (by omega),
    lagrangeStep_foldl (bound.trans_lt counters) within, one_mul, one_mul, product, product,
    Lagrange.basis, eval_prod]
  apply congrArg Except.ok
  rw [← Finset.prod_inv_distrib, ← Finset.prod_mul_distrib]
  apply Finset.prod_congr rfl
  intro k _
  simp [Lagrange.basisDivisor]

theorem sum_lagrange {n : Nat} (small : n < r) (counters : n < 2 ^ 31) {F : (ZMod r)[X]}
    (degree : F.degree < n)
    {c : Fin n → ZMod r} (coefficients : ∀ j : Fin n, getLagrangeCoeff n (j + 1) = .ok (c j)) :
    ∑ j : Fin n, c j * F.eval ((j + 1 : Nat) : ZMod r) = F.eval 0 := by
  have distinct : Set.InjOn (fun k : Nat => (k : ZMod r)) (Finset.Icc 1 n) := by
    intro a ha b hb same
    rw [Finset.coe_Icc, Set.mem_Icc] at ha hb
    have := congrArg ZMod.val (same : (a : ZMod r) = b)
    rwa [ZMod.val_cast_of_lt (by omega), ZMod.val_cast_of_lt (by omega)] at this
  have whole := Lagrange.eq_interpolate (f := F) distinct (by simpa using degree)
  have points : Finset.Icc 1 n = Finset.Ico 1 (n + 1) := by
    ext k
    simp only [Finset.mem_Icc, Finset.mem_Ico]
    omega
  have value (j : Fin n) : c j =
      (Lagrange.basis (Finset.Icc 1 n) (fun k : Nat => (k : ZMod r)) (1 + j)).eval 0 := by
    have same := (coefficients j).symm.trans (getLagrangeCoeff_eq (Nat.succ_pos _) j.isLt counters)
    rw [add_comm 1]
    exact Except.ok.inj same
  conv_rhs => rw [whole, Lagrange.interpolate_apply, eval_finsetSum]
  rw [Finset.sum_congr points fun _ _ => rfl, Finset.sum_Ico_eq_sum_range, Nat.add_sub_cancel,
    ← Fin.sum_univ_eq_sum_range fun k => eval 0 (C (eval ((1 + k : Nat) : ZMod r) F) *
      Lagrange.basis (Finset.Icc 1 n) (fun k : Nat => (k : ZMod r)) (1 + k))]
  apply Finset.sum_congr rfl
  intro j _
  rw [value j, eval_mul, eval_C, add_comm 1, mul_comm]

end ProofOfCustody.Bls
