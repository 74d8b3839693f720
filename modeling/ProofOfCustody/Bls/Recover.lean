import Mathlib
import ProofOfCustody.Bls.Vss
import ProofOfCustody.Bls.Commit
import ProofOfCustody.Params.Primes

/-!
# Reconstruction of a shared secret

`lagrange_coeff` and the two functions called `recover_share`. The interpolation at zero that one
of them calls belongs to the library and is a parameter.
-/

namespace ProofOfCustody.Bls
open Spdz Polynomial Binary

variable {r : Nat} [Fact r.Prime] {G1 : Type} [AddCommGroup G1] [Module (ZMod r) G1]

structure VSS (r : Nat) where
  s : ZMod r
  nparty : Nat
  threshold : Nat

/-- Both constructors of `VSS`; the one without a secret leaves `s` uninitialised. -/
def VSS.create (s : ZMod r) (np thre : Nat) : Except Failure (VSS r) :=
  if thre > np then throw .invalid_setting
  else return ⟨s, np, thre⟩

/-- `VSS::gen_share`; the library draws all coefficients but the first. -/
def VSS.genShare (v : VSS r) (lib : Evaluator r G1) (coeff : Nat → ZMod r) :
    Except Failure (List (ZMod r) × List G1) :=
  Bls.genShare lib v.nparty v.threshold fun k => if k = 0 then v.s else coeff k

/-- `recover_share` of `vss.cpp` -/
def recoverShare (interpolation : List (ZMod r) → List (ZMod r) → ZMod r)
    (shares : List (ZMod r)) : Except Failure (ZMod r) :=
  let len := toInt32 shares.length
  if len < 0 then throw .bad_alloc
  else
    let xVec := (List.range len.toNat).map fun i : Nat => ((i + 1 : Nat) : ZMod r)
    let yVec := shares.take len.toNat
    return interpolation xVec yVec

/-- `recover_share` of `Lagrange.cpp`, which takes the weights. Without any share it reads past the
end of both vectors. -/
def recoverShareBy (coeff share : List (ZMod r)) : Except Err (ZMod r) :=
  if coeff.length ≠ share.length then throw .invalid_length
  else match coeff, share with
    | c :: coeff, s :: share =>
        -- the counter starts from one
        return ((coeff.zip share).take (2 ^ 31 - 1)).foldl
          (fun secret cs => secret + cs.1 * cs.2) (c * s)
    | _, _ => throw .undefined

def lagrangeCoeffStep (Fr_val : List (ZMod r)) (i : Nat) (xi : ZMod r) (prods : ZMod r × ZMod r)
    (j : Nat) : ZMod r × ZMod r :=
  let (nume_prod, deno_prod) := prods
  if j ≠ i then
    let nume_prod := nume_prod * Fr_val.getD j 0
    let tmp := xi + Fr_val.getD j 0
    let deno_prod := deno_prod * tmp
    (nume_prod, deno_prod)
  else (nume_prod, deno_prod)

def lagrangeCoeff (lag_coeff : List (ZMod r)) (val : List Int) : Except String (List (ZMod r)) :=
  let seen := val.take (intRounds val.length)
  if 0 ∈ seen then throw "Elements in val should be non-zero and distinct!"
  else
    let Fr_val := seen.map fun v => ((toInt32 (-1 * v) : Int) : ZMod r)
    return lag_coeff ++ (List.range Fr_val.length).map fun i =>
      let xi : ZMod r := (val.getD i 0 : Int)
      let (nume_prod, deno_prod) :=
        (List.range Fr_val.length).foldl (lagrangeCoeffStep Fr_val i xi) (1, 1)
      let deno_prod := deno_prod⁻¹
      nume_prod * deno_prod

/-- Through distinct points other than zero passes one polynomial, and its value at zero is the
result. -/
def Interpolates (interpolation : List (ZMod r) → List (ZMod r) → ZMod r) : Prop :=
  ∀ (xVec : List (ZMod r)) (F : (ZMod r)[X]), xVec ≠ [] → xVec.Nodup → 0 ∉ xVec →
    F.degree < xVec.length → interpolation xVec (xVec.map F.eval) = F.eval 0

def interpolationAtZero (xVec yVec : List (ZMod r)) : ZMod r :=
  ∑ i ∈ Finset.range xVec.length, yVec.getD i 0 *
    ∏ j ∈ (Finset.range xVec.length).erase i,
      (xVec.getD i 0 - xVec.getD j 0)⁻¹ * (0 - xVec.getD j 0)

theorem getD_injOn {α : Type} {l : List α} (distinct : l.Nodup) (d : α) :
    Set.InjOn (fun i => l.getD i d) (Finset.range l.length) := by
  intro i hi j hj same
  rw [Finset.coe_range, Set.mem_Iio] at hi hj
  simp only [List.getD_eq_getElem _ _ hi, List.getD_eq_getElem _ _ hj] at same
  exact (distinct.getElem_inj_iff).1 same

theorem interpolationAtZero_interpolates : Interpolates (interpolationAtZero (r := r)) := by
  intro xVec F _ distinct _ degree
  have whole := Lagrange.eq_interpolate (f := F) (getD_injOn distinct 0) (by simpa using degree)
  conv_rhs => rw [whole, Lagrange.interpolate_apply, eval_finsetSum]
  apply Finset.sum_congr rfl
  intro i hi
  rw [Finset.mem_range] at hi
  rw [eval_mul, eval_C, Lagrange.basis, eval_prod]
  congr 1
  · simp [List.getD_eq_getElem?_getD, hi]
  · apply Finset.prod_congr rfl
    intro j _
    simp [Lagrange.basisDivisor]

theorem natCast_inj {a b : Nat} (ha : a < r) (hb : b < r) (same : (a : ZMod r) = b) : a = b := by
  have := congrArg ZMod.val same
  rwa [ZMod.val_cast_of_lt ha, ZMod.val_cast_of_lt hb] at this

theorem intCast_injOn {val : List Int} (large : 2 ^ 32 ≤ r)
    (range : ∀ v ∈ val, -2 ^ 31 < v ∧ v < 2 ^ 31) :
    Set.InjOn (fun v : Int => (v : ZMod r)) {v | v ∈ val} := by
  intro a ha b hb same
  have dvd := (ZMod.intCast_eq_intCast_iff_dvd_sub a b r).1 same
  have := range a ha
  have := range b hb
  have zero := Int.eq_zero_of_abs_lt_dvd dvd (by rw [abs_lt]; omega)
  omega

theorem index_injOn {n : Nat} (small : n < r) :
    Set.InjOn (fun i : Nat => ((i + 1 : Nat) : ZMod r)) (Finset.range n) := by
  intro i hi j hj same
  rw [Finset.coe_range, Set.mem_Iio] at hi hj
  have := natCast_inj (by omega) (by omega) same
  omega

theorem indices_spec {n : Nat} (small : n < r) :
    ((List.range n).map fun i : Nat => ((i + 1 : Nat) : ZMod r)).Nodup ∧
      (0 : ZMod r) ∉ (List.range n).map fun i : Nat => ((i + 1 : Nat) : ZMod r) := by
  constructor
  · apply (List.nodup_map_iff_inj_on List.nodup_range).2
    intro i hi j hj same
    exact index_injOn small (by simpa using hi) (by simpa using hj) same
  · intro mem
    obtain ⟨i, hi, zero⟩ := List.mem_map.1 mem
    rw [List.mem_range] at hi
    have := natCast_inj (b := 0) (by omega) (by omega) (zero.trans Nat.cast_zero.symm)
    omega

theorem recoverShare_eq (interpolation : List (ZMod r) → List (ZMod r) → ZMod r)
    {shares : List (ZMod r)} (short : shares.length < 2 ^ 31) :
    recoverShare interpolation shares = .ok (interpolation
      ((List.range shares.length).map fun i : Nat => ((i + 1 : Nat) : ZMod r)) shares) := by
  rw [recoverShare, toInt32_natCast short, if_neg (by omega)]
  simp [pure, Except.pure]

theorem recoverShare_values {interpolation : List (ZMod r) → List (ZMod r) → ZMod r}
    (documented : Interpolates interpolation) {n : Nat} (positive : 0 < n) (small : n < r)
    (counters : n < 2 ^ 31) {F : (ZMod r)[X]} (degree : F.degree < n) :
    recoverShare interpolation ((List.range n).map fun i : Nat => F.eval ((i + 1 : Nat) : ZMod r)) =
      .ok (F.eval 0) := by
  obtain ⟨distinct, nonzero⟩ := indices_spec small
  have value := documented ((List.range n).map fun i : Nat => ((i + 1 : Nat) : ZMod r)) F
    (by simpa using positive.ne') distinct nonzero (by simpa using degree)
  rw [List.map_map] at value
  rw [recoverShare_eq interpolation (by simpa using counters), List.length_map, List.length_range]
  exact congrArg Except.ok value

theorem exists_polynomial {n : Nat} (small : n < r) (share : List (ZMod r))
    (length : share.length = n) : ∃ F : (ZMod r)[X], F.degree < n ∧
      share = (List.range n).map fun i : Nat => F.eval ((i + 1 : Nat) : ZMod r) := by
  have distinct := index_injOn small
  refine ⟨Lagrange.interpolate (Finset.range n) (fun i : Nat => ((i + 1 : Nat) : ZMod r))
    fun i => share.getD i 0, ?_, ?_⟩
  · simpa using Lagrange.degree_interpolate_lt (fun i => share.getD i 0) distinct
  · apply List.ext_getElem (by simpa using length)
    intro i hi _
    rw [List.getElem_map, List.getElem_range, Lagrange.eval_interpolate_at_node _ distinct
      (Finset.mem_coe.1 (by simpa [length] using hi)), List.getD_eq_getElem _ _ hi]

theorem evaluatePolynomial_ofFn {t : Nat} (c : Fin t → ZMod r) (x : ZMod r) :
    evaluatePolynomial (List.ofFn c) x = ∑ k, c k * x ^ k.val := by
  induction t with
  | zero => simp [evaluatePolynomial]
  | succ t ih =>
      rw [List.ofFn_succ, Fin.sum_univ_succ]
      change c 0 + x • evaluatePolynomial (List.ofFn fun i => c i.succ) x = _
      rw [ih, Fin.val_zero, pow_zero, mul_one, smul_eq_mul, Finset.mul_sum]
      congr 1
      apply Finset.sum_congr rfl
      intro k _
      rw [Fin.val_succ, pow_succ]
      ring

theorem interpolate_accepted [DecidableEq G1] {lib : Evaluator r G1} (documented : lib.Documented)
    (large : 2 ^ 31 ≤ r) {coeff : List (ZMod r)} (nonempty : coeff ≠ [])
    (short : coeff.length ≤ 2 ^ 31) {indices : Finset Nat} (bound : ∀ n ∈ indices, n < 2 ^ 31)
    (enough : coeff.length ≤ indices.card) {s : Nat → ZMod r}
    (accepted : ∀ n ∈ indices,
      verifyShare lib (s n) (coeff.map (· • lib.basePointG1)) n = .ok true) :
    Lagrange.interpolate indices (fun n : Nat => (n : ZMod r)) s = polynomial coeff := by
  symm
  apply Lagrange.eq_interpolate_of_eval_eq
  · intro a ha b hb same
    exact natCast_inj ((bound a ha).trans_le large) ((bound b hb).trans_le large) same
  · exact (polynomial_degree coeff).trans_le (Nat.cast_le.2 enough)
  · intro n hn
    rw [polynomial_eval]
    exact ((verifyShare_iff documented (s n) nonempty short (bound n hn)).1 (accepted n hn)).symm

theorem feldman [DecidableEq G1] {lib : Evaluator r G1} (documented : lib.Documented)
    (large : 2 ^ 31 ≤ r) {t : Nat} (bound : t + 1 ≤ 2 ^ 31) (c : Fin (t + 1) → ZMod r) :
    (∀ (n : Nat) (s : ZMod r), n < 2 ^ 31 →
      (verifyShare lib s (List.ofFn fun k => c k • lib.basePointG1) n = .ok true ↔
        s = ∑ k, c k * (n : ZMod r) ^ k.val)) ∧
    (∀ (nparty : Nat) (draw : Nat → ZMod r), nparty + 1 < 2 ^ 32 →
      ∃ shares aux, genShare lib nparty t draw = .ok (shares, aux) ∧ shares.length = nparty ∧
        ∀ i share, shares[i]? = some share →
          ∀ s, verifyShare lib s aux (i + 1) = .ok true ↔ s = share) ∧
    (∀ (indices : Finset Nat) (s : Nat → ZMod r), indices.card = t + 1 →
      (∀ n ∈ indices, n < 2 ^ 31 ∧
        verifyShare lib (s n) (List.ofFn fun k => c k • lib.basePointG1) n = .ok true) →
      (Lagrange.interpolate indices (fun n : Nat => (n : ZMod r)) s).eval 0 = c 0) ∧
    ∀ interpolation : List (ZMod r) → List (ZMod r) → ZMod r, Interpolates interpolation →
      ∀ shares : List (ZMod r), t + 1 ≤ shares.length → shares.length < 2 ^ 31 →
      (∀ i s, shares[i]? = some s →
        verifyShare lib s (List.ofFn fun k => c k • lib.basePointG1) (i + 1) = .ok true) →
      recoverShare interpolation shares = .ok (c 0) := by
  have exponent : (List.ofFn fun k => c k • lib.basePointG1) =
      (List.ofFn c).map (· • lib.basePointG1) := by
    rw [List.map_ofFn]
    rfl
  have nonempty : List.ofFn c ≠ [] := by simp [List.ofFn_succ]
  have short : (List.ofFn c).length ≤ 2 ^ 31 := by simpa using bound
  have secret : (polynomial (List.ofFn c)).eval 0 = c 0 := by
    rw [polynomial_eval, evaluatePolynomial_ofFn, Fin.sum_univ_succ]
    simp
  have degree := polynomial_degree (List.ofFn c)
  rw [List.length_ofFn] at degree
  refine ⟨fun n s small => ?_, fun nparty draw parties => ?_, fun indices s size accepted => ?_,
    fun interpolation interpolates shares enough counters accepted => ?_⟩
  · rw [exponent, verifyShare_iff documented s nonempty short small, evaluatePolynomial_ofFn]
  · refine ⟨_, _, genShare_ok lib draw parties (by omega), by simp, fun i share taken s => ?_⟩
    obtain ⟨_, rfl⟩ := List.getElem?_eq_some_iff.1 taken
    rw [verifyShare_true documented s (coefficients_ne_nil t draw) (by simpa using bound)]
    simp [evaluate_coefficients draw documented]
  · rw [exponent] at accepted
    rw [interpolate_accepted documented large nonempty short (fun n hn => (accepted n hn).1)
      (by simp [size]) fun n hn => (accepted n hn).2, secret]
  · have values : shares = (List.range shares.length).map fun i : Nat =>
        (polynomial (List.ofFn c)).eval ((i + 1 : Nat) : ZMod r) := by
      apply List.ext_getElem (by simp)
      intro i hi _
      have check := accepted i shares[i] (List.getElem?_eq_getElem hi)
      rw [exponent, verifyShare_iff documented _ nonempty short (by omega)] at check
      rw [check, List.getElem_map, List.getElem_range, polynomial_eval]
    rw [values, recoverShare_values interpolates (by omega) (counters.trans_le large) counters
      (degree.trans_le (Nat.cast_le.2 enough)), secret]

def residues (r : Nat) [Fact r.Prime] : Evaluator r (ZMod r) where
  basePointG1 := 1
  frEvaluatePolynomial := evaluatePolynomial
  g1EvaluatePolynomial := evaluatePolynomial

theorem residues_documented : (residues r).Documented where
  basePoint_ne_zero := one_ne_zero
  frEvaluatePolynomial_eq _ _ _ := rfl
  g1EvaluatePolynomial_eq _ _ _ := rfl

theorem feldman_line :
    verifyShare (residues Params.groupOrder) 7 [1, 2] 3 = .ok true ∧
    recoverShare interpolationAtZero [3, 5] = .ok (1 : ZMod Params.groupOrder) := by
  have large : 2 ^ 31 ≤ Params.groupOrder := by
    unfold Params.groupOrder
    norm_num
  obtain ⟨checks, _, _, recovers⟩ := feldman (residues_documented (r := Params.groupOrder)) large
    (by norm_num) ![1, 2]
  have aux : (List.ofFn fun k => (![1, 2] : Fin 2 → ZMod Params.groupOrder) k •
      (residues Params.groupOrder).basePointG1) = [1, 2] := by
    simp [residues]
  rw [aux] at checks recovers
  constructor
  · apply (checks 3 7 (by norm_num)).2
    simp [Fin.sum_univ_succ]
    norm_num
  · apply recovers _ interpolationAtZero_interpolates [3, 5] (by simp) (by simp)
    intro i s share
    have bound : i < 2 := (List.getElem?_eq_some_iff.1 share).1
    apply (checks (i + 1) s (by omega)).2
    interval_cases i
    · simp at share
      simp [Fin.sum_univ_succ, ← share]
      norm_num
    · simp at share
      simp [Fin.sum_univ_succ, ← share]
      norm_num

/-! ## The check of the constructors -/

theorem polynomial_append (coeff : List (ZMod r)) (c : ZMod r) :
    polynomial (coeff ++ [c]) = polynomial coeff + C c * X ^ coeff.length := by
  induction coeff with
  | nil => simp [polynomial]
  | cons a coeff ih =>
      rw [List.cons_append, polynomial, polynomial, ih, List.length_cons, pow_succ]
      ring

/-- With as many points as the degree, the interpolation loses the leading term: on the points it
is the leading term less the polynomial that vanishes there. -/
theorem recoverShare_wide {interpolation : List (ZMod r) → List (ZMod r) → ZMod r}
    (documented : Interpolates interpolation) {coeff : List (ZMod r)} (positive : 0 < coeff.length)
    (small : coeff.length < r) (counters : coeff.length < 2 ^ 31) (c : ZMod r) :
    recoverShare interpolation ((List.range coeff.length).map fun i : Nat =>
        (polynomial (coeff ++ [c])).eval ((i + 1 : Nat) : ZMod r)) =
      .ok ((polynomial (coeff ++ [c])).eval 0 -
        c * ∏ i ∈ Finset.range coeff.length, (0 - ((i + 1 : Nat) : ZMod r))) := by
  let node := fun i : Nat => ((i + 1 : Nat) : ZMod r)
  let vanishing := Lagrange.nodal (Finset.range coeff.length) node
  let F := polynomial (coeff ++ [c]) - C c * vanishing
  have degree : F.degree < coeff.length := by
    have lower : (X ^ coeff.length - vanishing : (ZMod r)[X]).degree < coeff.length := by
      have size : (X ^ coeff.length : (ZMod r)[X]).degree = vanishing.degree := by
        rw [degree_X_pow, Lagrange.degree_nodal, Finset.card_range]
      have := degree_sub_lt_left size (pow_ne_zero _ X_ne_zero)
        (by rw [(monic_X_pow _).leadingCoeff, (Lagrange.nodal_monic).leadingCoeff])
      rwa [degree_X_pow] at this
    have split : F = polynomial coeff + C c * (X ^ coeff.length - vanishing) := by
      simp only [F, polynomial_append]
      ring
    rw [split, C_mul']
    apply (degree_add_le _ _).trans_lt
    exact max_lt (polynomial_degree coeff) ((degree_smul_le c _).trans_lt lower)
  have values : ((List.range coeff.length).map fun i : Nat =>
      (polynomial (coeff ++ [c])).eval ((i + 1 : Nat) : ZMod r)) =
      (List.range coeff.length).map fun i : Nat => F.eval ((i + 1 : Nat) : ZMod r) := by
    apply List.map_congr_left
    intro i hi
    have zero : vanishing.eval (node i) = 0 :=
      Lagrange.eval_nodal_at_node (by simpa using hi)
    change _ = (polynomial (coeff ++ [c]) - C c * vanishing).eval (node i)
    rw [eval_sub, eval_mul, zero, mul_zero, sub_zero]
  rw [values, recoverShare_values documented positive small counters degree, eval_sub, eval_mul, eval_C,
    Lagrange.eval_nodal]

omit [Fact r.Prime] in
theorem VSS.create_ok {s : ZMod r} {np thre : Nat} {v : VSS r} :
    VSS.create s np thre = .ok v ↔ thre ≤ np ∧ v = ⟨s, np, thre⟩ := by
  rw [VSS.create]
  split
  · constructor
    · intro h
      cases h
    · omega
  · constructor
    · intro h
      cases h
      exact ⟨by omega, rfl⟩
    · rintro ⟨_, rfl⟩
      rfl

def VSS.coefficients (v : VSS r) (coeff : Nat → ZMod r) : List (ZMod r) :=
  Bls.coefficients v.threshold fun k => if k = 0 then v.s else coeff k

theorem VSS.genShare_eq {lib : Evaluator r G1} (documented : lib.Documented) (v : VSS r)
    (coeff : Nat → ZMod r) (parties : v.nparty < 2 ^ 31) (bound : v.threshold < 2 ^ 31) :
    v.genShare lib coeff = .ok ((List.range v.nparty).map fun i : Nat =>
        (polynomial (v.coefficients coeff)).eval ((i + 1 : Nat) : ZMod r),
      (v.coefficients coeff).map (· • lib.basePointG1)) := by
  rw [VSS.genShare, Bls.genShare_eq lib _ parties bound]
  simp only [polynomial_eval, VSS.coefficients, evaluate_coefficients _ documented]

theorem VSS.coefficients_eval_zero (v : VSS r) (coeff : Nat → ZMod r) :
    (polynomial (v.coefficients coeff)).eval 0 = v.s := by
  rw [polynomial_eval, VSS.coefficients, evaluate_coefficients_zero, if_pos rfl]

omit [Fact r.Prime] in
theorem VSS.coefficients_length (v : VSS r) (coeff : Nat → ZMod r) :
    (v.coefficients coeff).length = v.threshold + 1 :=
  length_coefficients _ _

def VSS.roundTrip (v : VSS r) (lib : Evaluator r G1)
    (interpolation : List (ZMod r) → List (ZMod r) → ZMod r) (coeff : Nat → ZMod r) :
    Except Failure (ZMod r) := do
  let (shares, _) ← v.genShare lib coeff
  recoverShare interpolation shares

theorem VSS.roundTrip_ok {v : VSS r} {lib : Evaluator r G1}
    (interpolation : List (ZMod r) → List (ZMod r) → ZMod r) {coeff : Nat → ZMod r}
    {out : List (ZMod r) × List G1} (generated : v.genShare lib coeff = .ok out) :
    v.roundTrip lib interpolation coeff = recoverShare interpolation out.1 := by
  simp only [roundTrip, generated, bind, Except.bind]

theorem recoverShare_negative (interpolation : List (ZMod r) → List (ZMod r) → ZMod r)
    {shares : List (ZMod r)} (many : 2 ^ 31 ≤ shares.length) (bound : shares.length < 2 ^ 32) :
    recoverShare interpolation shares = .error .bad_alloc := by
  have negative := toInt32_negative many bound
  simp only [recoverShare, if_pos negative]
  rfl

theorem VSS.roundTrip_error (v : VSS r) (lib : Evaluator r G1)
    (interpolation : List (ZMod r) → List (ZMod r) → ZMod r) (coeff : Nat → ZMod r)
    (many : 2 ^ 31 ≤ v.nparty) : ∃ e, v.roundTrip lib interpolation coeff = .error e := by
  cases generated : v.genShare lib coeff with
  | error e => exact ⟨e, by rw [roundTrip, generated]; rfl⟩
  | ok out =>
      have length := genShare_length generated
      refine ⟨.bad_alloc, ?_⟩
      rw [VSS.roundTrip_ok interpolation generated, recoverShare_negative interpolation] <;> omega

/-- The constructors accept a threshold of as many as there are parties, although one more share
than the threshold is needed. -/
theorem recoverShare_genShare_iff {interpolation : List (ZMod r) → List (ZMod r) → ZMod r}
    (interpolates : Interpolates interpolation) {lib : Evaluator r G1} (documented : lib.Documented)
    {s : ZMod r} {np thre : Nat} {v : VSS r} (accepted : VSS.create s np thre = .ok v)
    (positive : 1 ≤ np) (small : np < r) (coeff : Nat → ZMod r) :
    v.roundTrip lib interpolation coeff = .ok s ↔
      np < 2 ^ 31 ∧ (thre < np ∨ coeff thre = 0) := by
  obtain ⟨bound, rfl⟩ := VSS.create_ok.1 accepted
  by_cases counters : np < 2 ^ 31
  case neg =>
    obtain ⟨e, failed⟩ := VSS.roundTrip_error ⟨s, np, thre⟩ lib interpolation coeff (not_lt.1 counters)
    rw [failed]
    exact ⟨nofun, fun fits => absurd fits.1 counters⟩
  have generated := VSS.genShare_eq documented ⟨s, np, thre⟩ coeff counters (bound.trans_lt counters)
  rw [VSS.roundTrip_ok interpolation generated, and_iff_right counters]
  rcases bound.lt_or_eq with below | rfl
  · have degree := polynomial_degree (VSS.coefficients ⟨s, np, thre⟩ coeff)
    rw [VSS.coefficients_length] at degree
    rw [recoverShare_values interpolates positive small counters
      (degree.trans_le (Nat.cast_le.2 below)), VSS.coefficients_eval_zero]
    simp [below]
  · -- Here the degree may be the number of points.
    let low := (List.range thre).map fun k => if k = 0 then s else coeff k
    have leading : VSS.coefficients ⟨s, thre, thre⟩ coeff = low ++ [coeff thre] := by
      simp [VSS.coefficients, Bls.coefficients, List.range_succ, low,
        show thre ≠ 0 from by omega]
    have length : low.length = thre := by simp [low]
    have product : ∏ i ∈ Finset.range low.length, (0 - ((i + 1 : Nat) : ZMod r)) ≠ 0 := by
      apply Finset.prod_ne_zero_iff.2
      intro i hi zero
      rw [Finset.mem_range, length] at hi
      rw [zero_sub, neg_eq_zero] at zero
      have := natCast_inj (b := 0) (by omega) (by omega) (zero.trans Nat.cast_zero.symm)
      omega
    have value := recoverShare_wide interpolates (show 0 < low.length by omega) (by omega)
      (by omega) (coeff thre)
    have secret := VSS.coefficients_eval_zero ⟨s, thre, thre⟩ coeff
    rw [leading] at secret ⊢
    rw [length] at value
    rw [value, secret, Except.ok.injEq, sub_eq_self, mul_eq_zero,
      or_iff_left (by rwa [length] at product)]
    simp

theorem recoverShare_genShare_three : (⟨2, 3, 1⟩ : VSS Params.groupOrder).roundTrip
    (residues Params.groupOrder) interpolationAtZero (fun _ => 4) = .ok 2 := by
  have small : 3 < Params.groupOrder := by
    unfold Params.groupOrder
    norm_num
  have accepted : VSS.create (2 : ZMod Params.groupOrder) 3 1 = .ok ⟨2, 3, 1⟩ := rfl
  exact (recoverShare_genShare_iff interpolationAtZero_interpolates residues_documented accepted
    (by norm_num) small fun _ => 4).2 ⟨by norm_num, Or.inl (by norm_num)⟩

theorem recoverShare_genShare_fails :
    Interpolates (interpolationAtZero (r := Params.groupOrder)) ∧
      (residues Params.groupOrder).Documented ∧
      VSS.create (0 : ZMod Params.groupOrder) 1 1 = .ok ⟨0, 1, 1⟩ ∧
      (⟨0, 1, 1⟩ : VSS Params.groupOrder).roundTrip (residues Params.groupOrder)
        interpolationAtZero (fun _ => 1) ≠ .ok 0 :=
  ⟨interpolationAtZero_interpolates, residues_documented, rfl, by decide +kernel⟩

/-! ## The weights -/

theorem lagrangeCoeffStep_foldl (Fr_val : List (ZMod r)) (i : Nat) (xi : ZMod r) (js : List Nat)
    (a b : ZMod r) :
    js.foldl (lagrangeCoeffStep Fr_val i xi) (a, b) =
      (a * ((js.filter (· ≠ i)).map fun j => Fr_val.getD j 0).prod,
        b * ((js.filter (· ≠ i)).map fun j => xi + Fr_val.getD j 0).prod) := by
  induction js generalizing a b with
  | nil => simp
  | cons j js ih =>
      by_cases same : j = i
      · rw [List.foldl_cons, List.filter_cons_of_neg (by simp [same])]
        simp [lagrangeCoeffStep, same, ih]
      · rw [List.foldl_cons, List.filter_cons_of_pos (by simp [same])]
        simp [lagrangeCoeffStep, same, ih, mul_assoc]

def point (val : List Int) (i : Nat) : ZMod r := (val.getD i 0 : Int)

noncomputable def weight (val : List Int) (i : Nat) : ZMod r :=
  (Lagrange.basis (Finset.range val.length) (point val) i).eval 0

theorem lagrangeCoeff_eq (lag_coeff : List (ZMod r)) {val : List Int} (nonzero : 0 ∉ val)
    (range : ∀ v ∈ val, -2 ^ 31 < v ∧ v < 2 ^ 31) (short : val.length ≤ 2 ^ 31) :
    lagrangeCoeff lag_coeff val =
      .ok (lag_coeff ++ (List.range val.length).map (weight val)) := by
  have minus : (val.map fun v => ((toInt32 (-1 * v) : Int) : ZMod r)) =
      val.map fun v : Int => ((-1 * v : Int) : ZMod r) := by
    apply List.map_congr_left
    intro v inside
    have := range v inside
    rw [toInt32_eq (by omega) (by omega)]
  rw [lagrangeCoeff, intRounds_eq short, List.take_length, if_neg nonzero, minus]
  apply congrArg Except.ok
  congr 1
  rw [List.length_map]
  apply List.map_congr_left
  intro i _
  have product (f : Nat → ZMod r) : (((List.range val.length).filter (· ≠ i)).map f).prod =
      ∏ j ∈ (Finset.range val.length).erase i, f j := by
    rw [← List.prod_toFinset f (List.nodup_range.filter _), List.toFinset_filter,
      List.toFinset_range]
    simp only [decide_eq_true_iff, Finset.filter_ne']
  have negated (j : Nat) : (val.map fun v => ((-1 * v : Int) : ZMod r)).getD j 0 =
      -point val j := by
    rw [point, List.getD_eq_getElem?_getD, List.getElem?_map, List.getD_eq_getElem?_getD]
    cases val[j]? with
    | none => simp
    | some v => simp
  simp only [lagrangeCoeffStep_foldl, one_mul, product, negated]
  rw [weight, Lagrange.basis, eval_prod, ← Finset.prod_inv_distrib, ← Finset.prod_mul_distrib]
  apply Finset.prod_congr rfl
  intro j _
  simp [Lagrange.basisDivisor, point, sub_eq_add_neg, mul_comm]

theorem sum_weight {val : List Int} (distinct : val.Nodup)
    (injective : Set.InjOn (fun v : Int => (v : ZMod r)) {v | v ∈ val}) {F : (ZMod r)[X]}
    (degree : F.degree < val.length) :
    ∑ i ∈ Finset.range val.length, weight val i * F.eval (point val i) = F.eval 0 := by
  have points : Set.InjOn (point (r := r) val) (Finset.range val.length) := by
    intro i hi j hj same
    have inside (k : Nat) (hk : k ∈ (Finset.range val.length : Set Nat)) : val.getD k 0 ∈ val := by
      rw [Finset.coe_range, Set.mem_Iio] at hk
      rw [List.getD_eq_getElem _ _ hk]
      exact List.getElem_mem hk
    exact getD_injOn distinct 0 hi hj (injective (inside i hi) (inside j hj) same)
  have whole := Lagrange.eq_interpolate (f := F) points (by simpa using degree)
  conv_rhs => rw [whole, Lagrange.interpolate_apply, eval_finsetSum]
  apply Finset.sum_congr rfl
  intro i _
  rw [eval_mul, eval_C, mul_comm, weight]

def indices (n : Nat) : List Int := (List.range' 1 n).map fun k : Nat => (k : Int)

@[simp] theorem length_indices (n : Nat) : (indices n).length = n := by
  simp [indices]

theorem zero_not_mem_indices (n : Nat) : 0 ∉ indices n := by
  simp [indices]

theorem indices_range {n : Nat} (counters : n < 2 ^ 31) :
    ∀ v ∈ indices n, -2 ^ 31 < v ∧ v < 2 ^ 31 := by
  intro v inside
  obtain ⟨k, hk, rfl⟩ := List.mem_map.1 inside
  rw [List.mem_range'_1] at hk
  omega

theorem lagrangeCoeff_indices {n : Nat} (counters : n < 2 ^ 31) :
    lagrangeCoeff [] (indices n) =
      .ok ((List.range n).map (weight (r := r) (indices n))) := by
  rw [lagrangeCoeff_eq [] (zero_not_mem_indices n) (indices_range counters) (by simpa using counters.le),
    List.nil_append, length_indices]

theorem point_indices {n i : Nat} (bound : i < n) :
    (point (indices n) i : ZMod r) = ((i + 1 : Nat) : ZMod r) := by
  rw [point, List.getD_eq_getElem _ _ (by simpa using bound)]
  simp [indices, add_comm]

theorem indices_distinct (n : Nat) : (indices n).Nodup :=
  (List.nodup_map_iff_inj_on List.nodup_range').2 fun _ _ _ _ same => Int.ofNat_inj.1 same

theorem indices_injOn {n : Nat} (small : n < r) :
    Set.InjOn (fun v : Int => (v : ZMod r)) {v | v ∈ indices n} := by
  intro a ha b hb same
  obtain ⟨j, hj, rfl⟩ := List.mem_map.1 (ha : a ∈ indices n)
  obtain ⟨k, hk, rfl⟩ := List.mem_map.1 (hb : b ∈ indices n)
  rw [List.mem_range'_1] at hj hk
  simp only [Int.cast_natCast] at same
  rw [natCast_inj (by omega) (by omega) same]

theorem getLagrangeCoeff_weight {n i : Nat} (bound : i < n) (counters : n < 2 ^ 31) :
    getLagrangeCoeff n (i + 1) = .ok (weight (indices n) i : ZMod r) := by
  rw [getLagrangeCoeff_eq (Nat.succ_pos i) bound counters]
  apply congrArg Except.ok
  rw [weight, Lagrange.basis, Lagrange.basis, eval_prod, eval_prod, length_indices]
  symm
  apply Finset.prod_nbij (· + 1)
  · intro j hj
    simp only [Finset.mem_erase, Finset.mem_range, Finset.mem_Icc] at hj ⊢
    omega
  · intro j _ k _ same
    exact Nat.succ.inj same
  · intro k hk
    rw [Finset.mem_coe, Finset.mem_erase, Finset.mem_Icc] at hk
    refine ⟨k - 1, ?_, Nat.sub_add_cancel hk.2.1⟩
    rw [Finset.mem_coe, Finset.mem_erase, Finset.mem_range]
    omega
  · intro j hj
    simp only [Finset.mem_erase, Finset.mem_range] at hj
    rw [point_indices bound, point_indices hj.2]

theorem getLagrangeCoeff_error (n pos : Nat) :
    (getLagrangeCoeff n pos : Except Err (ZMod r)) = .error .invalid_length ↔
      pos = 0 ∨ n < pos := by
  rw [getLagrangeCoeff]
  split
  · constructor
    · intro _
      omega
    · intro _
      rfl
  · constructor
    · intro h
      split at h <;> cases h
    · omega

theorem recoverShareBy_eq {coeff share : List (ZMod r)} (length : coeff.length = share.length)
    (nonempty : share ≠ []) (short : share.length ≤ 2 ^ 31) :
    recoverShareBy coeff share = .ok (List.zipWith (· * ·) coeff share).sum := by
  have total (cs : List (ZMod r × ZMod r)) (a : ZMod r) :
      cs.foldl (fun secret cs => secret + cs.1 * cs.2) a = a + (cs.map fun c => c.1 * c.2).sum := by
    induction cs generalizing a with
    | nil => simp
    | cons c cs ih => rw [List.foldl_cons, ih, List.map_cons, List.sum_cons, add_assoc]
  cases share with
  | nil => exact absurd rfl nonempty
  | cons s share =>
      cases coeff with
      | nil => cases length
      | cons c coeff =>
          have whole : (coeff.zip share).take (2 ^ 31 - 1) = coeff.zip share := by
            apply List.take_of_length_le
            rw [List.length_cons] at short
            rw [List.length_zip]
            omega
          rw [recoverShareBy, if_neg (not_not.2 length), whole]
          apply congrArg Except.ok
          rw [total, List.zipWith_cons_cons, List.sum_cons, List.zip_eq_zipWith, List.map_zipWith]

theorem zipWith_range (n : Nat) (f g : Nat → ZMod r) :
    (List.zipWith (· * ·) ((List.range n).map f) ((List.range n).map g)).sum =
      ∑ i ∈ Finset.range n, f i * g i := by
  rw [List.zipWith_map, List.zipWith_self, Finset.sum_range, ← List.sum_ofFn]
  congr 1
  apply List.ext_getElem (by simp)
  intro i _ _
  simp

theorem map_point {α : Type} (val : List Int) (f : ZMod r → α) :
    (List.range val.length).map (fun i => f (point val i)) = val.map fun v : Int => f v := by
  apply List.ext_getElem (by simp)
  intro i hi _
  rw [List.length_map, List.length_range] at hi
  rw [List.getElem_map, List.getElem_map, List.getElem_range, point, List.getD_eq_getElem _ _ hi]

theorem lagrange_agree (large : 2 ^ 32 ≤ r)
    {interpolation : List (ZMod r) → List (ZMod r) → ZMod r}
    (documented : Interpolates interpolation) :
    (∀ (lag_coeff : List (ZMod r)) (val : List Int), val.Nodup → val.length ≤ 2 ^ 31 →
      (∀ v ∈ val, v ≠ 0 ∧ -2 ^ 31 < v ∧ v < 2 ^ 31) →
      ∃ coeff, lagrangeCoeff lag_coeff val = .ok (lag_coeff ++ coeff) ∧
        coeff.length = val.length ∧ ∀ F : (ZMod r)[X], F.degree < val.length →
          (List.zipWith (fun c (v : Int) => c * F.eval (v : ZMod r)) coeff val).sum = F.eval 0) ∧
    (∀ n pos : Nat, 1 ≤ pos → pos ≤ n → n < 2 ^ 31 →
      ∃ coeff c, lagrangeCoeff [] (indices n) = .ok coeff ∧
        (getLagrangeCoeff n pos : Except Err (ZMod r)) = .ok c ∧ coeff[pos - 1]? = some c) ∧
    (∀ share : List (ZMod r), 1 ≤ share.length → share.length < 2 ^ 31 →
      ∃ coeff secret, lagrangeCoeff [] (indices share.length) = .ok coeff ∧
        recoverShareBy coeff share = .ok secret ∧ recoverShare interpolation share = .ok secret) ∧
    ∀ n pos : Nat, (getLagrangeCoeff n pos : Except Err (ZMod r)) = .error .invalid_length ↔
      pos = 0 ∨ n < pos := by
  refine ⟨fun lag_coeff val distinct short range => ?_, fun n pos positive bound counters => ?_,
    fun share positive counters => ?_, fun n pos => ?_⟩
  · have nonzero : 0 ∉ val := fun mem => (range 0 mem).1 rfl
    have ints := fun v mem => (range v mem).2
    refine ⟨_, lagrangeCoeff_eq lag_coeff nonzero ints short, by simp, fun F degree => ?_⟩
    have total := sum_weight distinct (intCast_injOn large ints) degree
    rw [← zipWith_range, map_point val F.eval, List.zipWith_map_right] at total
    exact total
  · obtain ⟨i, rfl⟩ := Nat.exists_eq_succ_of_ne_zero (Nat.one_le_iff_ne_zero.1 positive)
    refine ⟨_, _, lagrangeCoeff_indices counters, getLagrangeCoeff_weight bound counters, ?_⟩
    simp [Nat.lt_of_succ_le bound]
  · have small : share.length < r := counters.trans (lt_of_lt_of_le (by norm_num) large)
    obtain ⟨F, degree, values⟩ := exists_polynomial small share rfl
    have recovered := recoverShare_values documented positive small counters degree
    have total := sum_weight (indices_distinct _) (indices_injOn small) (F := F) (by simpa using degree)
    rw [← values] at recovered
    refine ⟨_, _, lagrangeCoeff_indices counters, ?_, recovered⟩
    have points : share = (List.range (indices share.length).length).map fun i =>
        F.eval (point (indices share.length) i) := by
      conv_lhs => rw [values]
      rw [length_indices]
      apply List.map_congr_left
      intro i hi
      rw [point_indices (List.mem_range.1 hi)]
    rw [← zipWith_range, ← points, length_indices] at total
    rw [recoverShareBy_eq (by simp) (List.length_pos_iff.1 positive) counters.le, total]
  · exact getLagrangeCoeff_error n pos

theorem lagrange_agree_three : ∃ coeff : List (ZMod Params.groupOrder), ∃ secret,
    lagrangeCoeff [] (indices 3) = .ok coeff ∧ recoverShareBy coeff [5, 7, 100] = .ok secret ∧
      recoverShare interpolationAtZero [5, 7, 100] = .ok secret := by
  have large : 2 ^ 32 ≤ Params.groupOrder := by
    unfold Params.groupOrder
    norm_num
  obtain ⟨_, _, shares, _⟩ := lagrange_agree large interpolationAtZero_interpolates
  exact shares [5, 7, 100] (by simp) (by simp)

end ProofOfCustody.Bls
