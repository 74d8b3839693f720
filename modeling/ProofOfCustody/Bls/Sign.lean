import Mathlib
import ProofOfCustody.Bls.Lagrange
import ProofOfCustody.Bls.Mcl
import ProofOfCustody.Group.Laws

/-!
# Distributed signing

Every player signs with its own key scaled by its Lagrange coefficient, inputs the coordinates of
its signature, and the players add the shared points up one after the other.
-/

namespace ProofOfCustody.Bls
open Effect Spdz OnlineOp Curve GroupOp

variable {n p r : Nat} [Fact p.Prime] [Fact r.Prime] {alphai : Fin n → ZMod p}
  {G1 G2 GT : Type} [AddCommGroup G1] [Module (ZMod r) G1] [AddCommGroup G2] [Module (ZMod r) G2]
  [CommGroup GT] (mcl : Mcl G1 G2 GT)

/-- `BLS_::sign_scale`: the new `sigma`. -/
def signScale (sk scale : ZMod r) (msg : String) : G2 :=
  let sigma := mcl.hashAndMapTo msg
  let sign_sk := sk * scale
  sign_sk • sigma

def verify [DecidableEq GT] (vk : G1) (sigma : G2) (msg : String) : Bool :=
  let h := mcl.hashAndMapTo msg
  let e1 := mcl.pairing vk h
  let e2 := mcl.pairing mcl.basePointG1 sigma
  e1 = e2

/-- What `dstb_sign` does before the first input: the entry `s[P.my_num()]`. -/
def scaledSignature (n my_num : Nat) (sk : ZMod r) (msg : String) :
    Except Err (OnlineOp.Complex (ZMod p) × OnlineOp.Complex (ZMod p)) := do
  let lag_coeff ← getLagrangeCoeff n (my_num + 1)
  let sigma := signScale mcl sk lag_coeff msg
  mclBnG2ToComplexPlain mcl (mcl.getStr sigma)

def ofExcept {α : Type} : Except Err α → Online alphai α
  | .ok a => .ret a
  | .error e => Online.throw e

/-- The entries of `s` for the other players keep their initial zeros. -/
def dstbSign (sk : Fin n → ZMod r) (msg : String) :
    Online alphai (Affine (OnlineOp.Complex (Shared n (ZMod p)))) := do
  let s ← (List.finRange n).mapM fun my_num : Fin n =>
    ofExcept (scaledSignature mcl n my_num (sk my_num) msg)
  let ac ← (List.finRange n).mapM fun i : Fin n => do
    let si ← Online.index s i
    let x ← OnlineOp.Complex.getInputs i fun player => if player = i then si.1 else ⟨0, 0⟩
    let y ← OnlineOp.Complex.getInputs i fun player => if player = i then si.2 else ⟨0, 0⟩
    return ⟨x, y⟩
  let out ← Online.index ac 0
  Program.forRange (fun i out => do
    let aci ← Online.index ac i
    (G2Op alphai).addAffInplace out aci) 1 (n - 1) out

section Points
variable [Gaussian.Irreducible (ZMod p)] {b : Gaussian (ZMod p)}

def SharesPoint (a : Affine (OnlineOp.Complex (Shared n (ZMod p)))) (P : (short b).Point) : Prop :=
  ∃ x y h, P = .some x y h ∧ a.map Complex.val = ⟨x, y⟩

def SameX (P Q : (short b).Point) : Prop :=
  ∃ x y y' h h', P = .some x y h ∧ Q = .some x y' h'

theorem not_sameX_zero (Q : (short b).Point) : ¬SameX 0 Q := by
  rintro ⟨x, y, y', h, h', zero, _⟩
  exact WeierstrassCurve.Affine.Point.some_ne_zero h zero.symm

theorem addAff_point [NeZero n] {a c : Affine (OnlineOp.Complex (Shared n (ZMod p)))}
    {P Q : (short b).Point}
    (ha : SharesPoint a P) (hc : SharesPoint c Q) :
    ((G2Op alphai).addAffInplace a c).Meets NonzeroInvMask
      (fun d => ¬SameX P Q ∧ SharesPoint d (P + Q))
      (fun e => e = .division_by_zero ∧ SameX P Q) := by
  obtain ⟨x, y, h, rfl, ha⟩ := ha
  obtain ⟨x', y', h', rfl, hc⟩ := hc
  have spec := (G2Op_lawful : Lawful (G2Op alphai) _ _).addAff_map a c
  rw [ha, hc] at spec
  refine spec.mono (fun _ h => h) (fun d hd => ?_) fun e he => ⟨he.1, ?_⟩
  · obtain ⟨sum, added⟩ := Affine.chord_add (P := ⟨x, y⟩) (Q := ⟨x', y'⟩) hd.1 h h'
    refine ⟨?_, _, _, sum, added, hd.2⟩
    rintro ⟨_, _, _, _, _, left, right⟩
    cases left
    cases right
    exact hd.1 rfl
  · obtain rfl : x = x' := he.2
    exact ⟨x, y, y', h, h', rfl, rfl⟩

def partialSum (S : Fin n → (short b).Point) (i : Nat) : (short b).Point :=
  ((List.ofFn S).take i).sum

def Collides (S : Fin n → (short b).Point) : Prop := ∃ i : Fin n, SameX (partialSum S i) (S i)

theorem partialSum_succ (S : Fin n → (short b).Point) (i : Fin n) :
    partialSum S (i + 1) = partialSum S i + S i := by
  unfold partialSum
  rw [List.sum_take_succ _ _ (by simp)]
  simp

theorem partialSum_all (S : Fin n → (short b).Point) : partialSum S n = ∑ j, S j := by
  unfold partialSum
  rw [List.take_of_length_le (by simp), List.sum_ofFn]

end Points

theorem index_of_forall₂ (alphai : Fin n → ZMod p) {α : Type} {R : Fin n → α → Prop} {s : List α}
    (related : List.Forall₂ R (List.finRange n) s) (i : Fin n) :
    ∃ c, R i c ∧ (Online.index s i : Online alphai α) = .ret c := by
  have bound : i < s.length := by
    rw [← related.length_eq, List.length_finRange]
    exact i.isLt
  refine ⟨s[i], ?_, Online.index_of_lt bound⟩
  simpa using (List.forall₂_iff_get.1 related).2 i (by simp) bound

section Documented
variable [Gaussian.Irreducible (ZMod p)] {b : Gaussian (ZMod p)} {point : G2 →+ (short b).Point}
  {mcl}

omit [Module (ZMod r) G1] in
theorem scaledSignature_eq (documented : mcl.Documented point) {j : Nat} {sk lc : ZMod r}
    {msg : String} (coeff : getLagrangeCoeff n (j + 1) = .ok lc) {x y : Gaussian (ZMod p)}
    {h : (short b).Nonsingular x y} (finite : point (signScale mcl sk lc msg) = .some x y h) :
    scaledSignature mcl n j sk msg = .ok (⟨x.re, x.im⟩, ⟨y.re, y.im⟩) := by
  unfold scaledSignature
  rw [coeff]
  change mclBnG2ToComplexPlain mcl (mcl.getStr _) = _
  rw [documented.getStr_finite _ x y h finite, mclBnG2ToComplexPlain_printed documented]

variable [NeZero n]

omit [Module (ZMod r) G1] in
theorem dstbSign_spec (documented : mcl.Documented point) (alphai : Fin n → ZMod p)
    (sk : Fin n → ZMod r) {lc : Fin n → ZMod r} (msg : String) {E : Err → Prop}
    (coeff : ∀ j : Fin n, getLagrangeCoeff n (j + 1) = .ok (lc j))
    (identity : ∀ j, signScale mcl (sk j) (lc j) msg = 0 →
      ∃ e, scaledSignature mcl n j (sk j) msg =
        (.error e : Except Err (OnlineOp.Complex (ZMod p) × OnlineOp.Complex (ZMod p))) ∧ E e) :
    let S := fun j => point (signScale mcl (sk j) (lc j) msg)
    (Collides S → E .division_by_zero) →
    (dstbSign mcl sk msg : Online alphai _).Meets NonzeroInvMask
      (fun out => ¬Collides S ∧ SharesPoint out (∑ j, S j)) E := by
  intro S collision
  -- the local signatures
  refine Program.Meets.bind (P := List.Forall₂ (fun j c => ∃ x y h, S j = .some x y h ∧
    c = ((⟨x.re, x.im⟩, ⟨y.re, y.im⟩) : OnlineOp.Complex (ZMod p) × OnlineOp.Complex (ZMod p)))
    (List.finRange n)) (.mapM _ fun j _ => ?_) fun s hs => ?_
  · cases value : S j with
    | zero =>
      obtain ⟨e, failed, allowed⟩ :=
        identity j (documented.point_injective (value.trans (map_zero point).symm))
      rw [failed]
      exact allowed
    | some x y h =>
      rw [scaledSignature_eq documented (coeff j) value]
      exact ⟨x, y, h, rfl, rfl⟩
  -- their inputs
  refine Program.Meets.bind (P := List.Forall₂ (fun i a => SharesPoint a (S i)) (List.finRange n))
    (.mapM _ fun i _ => ?_) fun ac hac => ?_
  · obtain ⟨_, ⟨x, y, h, value, rfl⟩, indexed⟩ := index_of_forall₂ alphai hs i
    rw [indexed]
    refine (Complex.getInputs_spec i _).bind fun cx hx => ?_
    refine (Complex.getInputs_spec i _).bind fun cy hy => ?_
    rw [if_pos rfl] at hx hy
    exact ⟨x, y, h, value, Affine.ext hx hy⟩
  -- the chain of additions
  obtain ⟨out, hout, indexed⟩ := index_of_forall₂ alphai hac (0 : Fin n)
  rw [Fin.val_zero] at indexed
  rw [indexed]
  have first : partialSum S 1 = S 0 := by
    have := partialSum_succ S 0
    rw [Fin.val_zero, zero_add] at this
    rw [this]
    exact zero_add _
  refine Program.Meets.imp (Program.Meets.forRange (fun i out => SharesPoint out (partialSum S i) ∧
    ∀ k : Fin n, k < i → ¬SameX (partialSum S k) (S k)) 1 (n - 1) out ?start ?step) ?final
  case start =>
    refine ⟨first ▸ hout, fun k before => ?_⟩
    obtain rfl : k = 0 := Fin.ext (by simpa using before)
    exact not_sameX_zero _
  case step =>
    intro i out _ upper ⟨hout, apart⟩
    have bound : i < n := by omega
    obtain ⟨aci, haci, indexed⟩ := index_of_forall₂ alphai hac ⟨i, bound⟩
    rw [indexed]
    refine (addAff_point hout haci).mono (fun _ h => h) (fun c hc => ⟨?_, fun k before => ?_⟩)
      fun e he => he.1 ▸ collision ⟨⟨i, bound⟩, he.2⟩
    · rw [show i + 1 = (⟨i, bound⟩ : Fin n).val + 1 from rfl, partialSum_succ]
      exact hc.2
    · rcases Nat.lt_succ_iff_lt_or_eq.1 before with earlier | same
      · exact apart k earlier
      · obtain rfl : k = ⟨i, bound⟩ := Fin.ext same
        exact hc.1
  case final =>
    intro out ⟨hout, apart⟩
    have all : 1 + (n - 1) = n := by
      have := NeZero.pos n
      omega
    rw [all] at hout apart
    rw [partialSum_all] at hout
    exact ⟨fun ⟨i, same⟩ => apart i i.isLt same, hout⟩

omit [NeZero n] in
theorem verify_iff [DecidableEq GT] (documented : mcl.Documented point) (s : ZMod r) (sigma : G2)
    (msg : String) :
    verify mcl (s • mcl.basePointG1) sigma msg = true ↔ sigma = s • mcl.hashAndMapTo msg := by
  unfold verify
  rw [decide_eq_true_iff, documented.pairing_smul]
  constructor
  · exact fun same => (documented.pairing_injective same).symm
  · rintro rfl
    rfl

omit [NeZero n] [Fact r.Prime] [Module (ZMod r) G1] [Module (ZMod r) G2] in
theorem SharesPoint.unique (documented : mcl.Documented point)
    {out : Affine (OnlineOp.Complex (Shared n (ZMod p)))} {sigma sigma' : G2}
    (h : SharesPoint out (point sigma)) (h' : SharesPoint out (point sigma')) : sigma = sigma' := by
  obtain ⟨x, y, _, value, coordinates⟩ := h
  obtain ⟨x', y', _, value', coordinates'⟩ := h'
  obtain ⟨rfl, rfl⟩ := (Affine.mk.injEq _ _ _ _).mp (coordinates.symm.trans coordinates')
  exact documented.point_injective (value.trans value'.symm)

omit [NeZero n] [AddCommGroup G1] [Module (ZMod r) G1] [CommGroup GT] in
theorem sum_scaled {sk lc : Fin n → ZMod r} {s : ZMod r} {msg : String}
    (joint : ∑ j, lc j * sk j = s) :
    ∑ j, point (signScale mcl (sk j) (lc j) msg) = point (s • mcl.hashAndMapTo msg) := by
  rw [← map_sum]
  congr 1
  simp only [signScale, ← Finset.sum_smul, ← joint, mul_comm]

/-- The players end with the point `sk * H(msg)`, or a partial sum meets the next signature in its
`x`-coordinate and they divide by zero. -/
theorem dstbSign_exact [DecidableEq GT] (documented : mcl.Documented point)
    (alphai : Fin n → ZMod p) {sk lc : Fin n → ZMod r} {s : ZMod r} (msg : String)
    (coeff : ∀ j : Fin n, getLagrangeCoeff n (j + 1) = .ok (lc j)) (joint : ∑ j, lc j * sk j = s)
    (nonzero : ∀ j, signScale mcl (sk j) (lc j) msg ≠ 0) :
    ReturnsUnless (Collides fun j => point (signScale mcl (sk j) (lc j) msg))
      (dstbSign mcl sk msg : Online alphai _) fun out =>
        ∃ sigma, (∀ sigma', SharesPoint out (point sigma') ↔ sigma' = sigma) ∧
          sigma = s • mcl.hashAndMapTo msg ∧
          verify mcl (s • mcl.basePointG1) sigma msg = true := by
  have spec := dstbSign_spec documented alphai sk msg (E := fun e => e = .division_by_zero ∧
    Collides fun j => point (signScale mcl (sk j) (lc j) msg)) coeff
    (fun j zero => absurd zero (nonzero j)) fun collides => ⟨rfl, collides⟩
  simp only [sum_scaled joint] at spec
  apply returnsUnless_of_meets
  refine spec.imp fun out h => ⟨h.1, s • mcl.hashAndMapTo msg, fun sigma' => ⟨fun shares => ?_, ?_⟩,
    rfl, (verify_iff documented _ _ _).2 rfl⟩
  · exact shares.unique documented h.2
  · rintro rfl
    exact h.2

end Documented

section Small

instance irreducibleSeven : Gaussian.Irreducible (ZMod 7) := Gaussian.irreducible_zmod (by decide)

instance factPrimeThirteen : Fact (Nat.Prime 13) := ⟨by norm_num⟩

theorem thirteen_nonsingular : (short (3 : Gaussian (ZMod 7))).Nonsingular 1 (1 + 1) :=
  Affine.nonsingular (P := ⟨1, 1 + 1⟩) (by decide) (by decide) (by decide) (by decide)

def generator : (short (3 : Gaussian (ZMod 7))).Point := .some 1 (1 + 1) thirteen_nonsingular

theorem generator_order : (13 : Nat) • generator = 0 := by decide +kernel

def multiples : ZMod 13 →+ (short (3 : Gaussian (ZMod 7))).Point :=
  ZMod.lift 13 ⟨zmultiplesHom _ generator, (natCast_zsmul generator 13).trans generator_order⟩

theorem multiples_natCast (k : Nat) : multiples k = k • generator := by
  have := ZMod.lift_coe 13
    ⟨zmultiplesHom _ generator, (natCast_zsmul generator 13).trans generator_order⟩ (k : Int)
  rw [Int.cast_natCast] at this
  exact this.trans (natCast_zsmul generator k)

theorem multiples_injective : Function.Injective multiples := by
  rw [injective_iff_map_eq_zero]
  intro a zero
  rw [← ZMod.natCast_zmod_val a, multiples_natCast] at zero
  have small : ∀ k : Fin 13, (k : Nat) • generator = 0 → k = 0 := by decide +kernel
  have := small ⟨a.val, ZMod.val_lt a⟩ zero
  rw [← ZMod.natCast_zmod_val a, show a.val = 0 from congrArg Fin.val this, Nat.cast_zero]

def readDigits (str : List Char) : Except Err Int :=
  if str ≠ [] ∧ ∀ c ∈ str, c.isDigit then return (Nat.ofDigitChars 10 str 0 : Int)
  else throw .undefined

theorem readDigits_toDigits (a : Nat) : readDigits (Nat.toDigits 10 a) = .ok a := by
  have digits : Nat.toDigits 10 a ≠ [] ∧ ∀ c ∈ Nat.toDigits 10 a, c.isDigit :=
    ⟨Nat.toDigits_ne_nil, fun c mem => Nat.isDigit_of_mem_toDigits (by decide) (by decide) mem⟩
  rw [readDigits, if_pos digits, Nat.ofDigitChars_ten_toDigits]
  rfl

def smallMcl : Mcl (ZMod 13) (ZMod 13) (Multiplicative (ZMod 13)) where
  basePointG1 := 1
  hashAndMapTo _ := 1
  pairing P Q := .ofAdd (P * Q)
  getStr P := match multiples P with
    | .zero => ['0']
    | .some x y _ => printed x y
  mpzClass := readDigits

theorem smallMcl_documented : smallMcl.Documented multiples where
  point_injective := multiples_injective
  pairing_add_left P P' Q := congrArg Multiplicative.ofAdd (add_mul P P' Q)
  pairing_add_right P Q Q' := congrArg Multiplicative.ofAdd (mul_add P Q Q')
  nondegenerate Q trivial := by simpa [smallMcl] using trivial
  getStr_finite P x y h value := by
    simp only [smallMcl, value]
  mpzClass_digits := readDigits_toDigits

theorem double_nonsingular : (short (3 : Gaussian (ZMod 7))).Nonsingular 6 3 :=
  Affine.nonsingular (P := ⟨6, 3⟩) (by decide) (by decide) (by decide) (by decide)

theorem double_generator : (2 : Nat) • generator = .some 6 3 double_nonsingular := by
  decide +kernel

def smallShares : Fin 2 → ZMod 13 := ![1, -1]
def smallCoefficients : Fin 2 → ZMod 13 := ![1 + 1, -1]

theorem small_apart : ¬Collides fun j =>
    multiples (signScale smallMcl (smallShares j) (smallCoefficients j) "nonce") := by
  rintro ⟨i, same⟩
  fin_cases i
  · exact not_sameX_zero _ same
  · obtain ⟨x, y, y', h, h', left, right⟩ := same
    have first : multiples 2 = .some x y h := left
    have second : multiples 1 = .some x y' h' := right
    cases ((multiples_natCast 2).trans double_generator).symm.trans first
    cases ((multiples_natCast 1).trans (one_smul _ generator)).symm.trans second

theorem small_coefficients : ∀ j : Fin 2, getLagrangeCoeff 2 (j + 1) = .ok (smallCoefficients j) := by
  decide +kernel

theorem small_nonzero :
    ∀ j, signScale smallMcl (smallShares j) (smallCoefficients j) "nonce" ≠ 0 := by
  decide

theorem dstbSign_exact_small :
    let alphai : Fin 2 → ZMod 7 := ![1, 2]
    ∃ out, ((dstbSign smallMcl smallShares "nonce" : Online alphai _).run
        (plainTape alphai)).result = .ok out ∧ SharesPoint out (multiples 3) := by
  intro alphai
  obtain ⟨out, returned, sigma, shares, value, _⟩ := ((dstbSign_exact smallMcl_documented alphai
    "nonce" small_coefficients rfl small_nonzero) (plainTape alphai)
    (plainTape_invMasksNonzero alphai _)).2 small_apart
  exact ⟨out, returned, (shares _).2 (by rw [value]; decide)⟩

end Small

end ProofOfCustody.Bls
