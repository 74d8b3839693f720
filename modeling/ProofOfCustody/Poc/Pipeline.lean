import Mathlib
import ProofOfCustody.Bls.Sign
import ProofOfCustody.Poc.CustodySpec
import ProofOfCustody.Poc.KeyTransportRun

/-!
# The pipeline of two primes

Phase one signs the nonce and reveals the `x`-coordinate of the signature under a pad; phase two
takes the pad away in the second field, where the custody bit of the data is computed.
-/

namespace ProofOfCustody.Poc
open Effect Spdz Shared OnlineOp Curve Bls Binary

variable {n p q r : Nat} [Fact p.Prime] [Fact q.Prime] [Fact r.Prime]
  {alphai : Fin n → ZMod p} {alphai' : Fin n → ZMod q}
  {G1 G2 GT : Type} [AddCommGroup G1] [AddCommGroup G2] [Module (ZMod r) G2] [CommGroup GT]

/-- `run_poc_compute_ephem_key_2primes_phase_one` -/
def runPhaseOne (mcl : Mcl G1 G2 GT) (fuel : Nat) (sk : Fin n → ZMod r) (msg : String)
    (rnd : Fin n → Octets) : Online alphai (List Int × (Fin n → List Int)) := do
  let ac ← dstbSign mcl sk msg
  let ek_tmp₀ := ac.x.real
  let ek_tmp₁ := ac.x.imag
  transportPhaseOne fuel rnd ek_tmp₀ ek_tmp₁

/-- `run_poc_compute_ephem_key_2primes_phase_two`, then the offline and the online function. -/
def runSecondField (local_bits : Fin n → List Int) (reveal_bits : List Int) (msg : List (ZMod q)) :
    Online alphai' Int := do
  let ek ← transportPhaseTwo local_bits reveal_bits
  let pre_key ← computeCustodyBitOffline2primes CHUNK_NUM ek
  let ek₀ ← Online.index ek 0
  computeCustodyBitOnline2primes CHUNK_NUM pre_key ek₀ msg

omit [AddCommGroup G1] [CommGroup GT] in
theorem runPhaseOne_returns {mcl : Mcl G1 G2 GT} {fuel : Nat} {sk : Fin n → ZMod r} {msg : String}
    {rnd : Fin n → Octets} {t : Tape (spdz alphai)}
    {ac : Affine (OnlineOp.Complex (Shared n (ZMod p)))} {a : List Int × (Fin n → List Int)}
    (signed : ((dstbSign mcl sk msg).run t).result = .ok ac)
    (transported : ((transportPhaseOne fuel rnd ac.x.real ac.x.imag).run
      ((dstbSign mcl sk msg).run t).rest).result = .ok a) :
    ((runPhaseOne mcl fuel sk msg rnd).run t).result = .ok a := by
  unfold runPhaseOne
  rw [Program.run_bind, Run.andThen, signed]
  exact transported

def transportedKeys (x : Gaussian (ZMod p)) : List (ZMod q) :=
  (List.range 3).map fun i => (digit (keyNumber x.re x.im) i : ZMod q)

def custodyBitOf (x : Gaussian (ZMod p)) (msg : List (ZMod q)) : Int :=
  if ∃ j < 10, IsSquare (tableHash (transportedKeys x) msg + ((j : Nat) : ZMod q) +
    (transportedKeys x).getD 0 0) then 1 else 0

section Spec
variable [NeZero n] [Gaussian.Irreducible (ZMod p)] {mcl : Mcl G1 G2 GT} {b : Gaussian (ZMod p)}
  {point : G2 →+ (short b).Point} {A : Draw (spdz alphai') → Prop} {E : Err → Prop}

omit [AddCommGroup G1] [CommGroup GT] [NeZero n] [Gaussian.Irreducible (ZMod p)] in
theorem scaledSignature_zero (identity : mcl.getStr 0 = ['0']) {j : Nat} {sk lc : ZMod r}
    {msg : String} (coeff : getLagrangeCoeff n (j + 1) = .ok lc)
    (zero : signScale mcl sk lc msg = 0) :
    scaledSignature mcl n j sk msg =
      (.error .undefined : Except Err (OnlineOp.Complex (ZMod p) × OnlineOp.Complex (ZMod p))) := by
  unfold scaledSignature
  rw [coeff]
  change mclBnG2ToComplexPlain mcl (mcl.getStr (signScale mcl sk lc msg)) = _
  rw [zero, identity]
  rfl

theorem runPhaseOne_spec (players : n < 2 ^ 31) (documented : mcl.Documented point)
    (identity : mcl.getStr 0 = ['0']) (small : p < 2 ^ PSIZE) (fuel : Nat) {sk lc : Fin n → ZMod r}
    {s : ZMod r} (msg : String)
    (coeff : ∀ j : Fin n, getLagrangeCoeff n (j + 1) = .ok (lc j)) (joint : ∑ j, lc j * sk j = s)
    (rnd : Fin n → Octets) :
    (runPhaseOne mcl fuel sk msg rnd : Online alphai _).Meets NonzeroInvMask
      (fun r => ∃ x y h, point (s • mcl.hashAndMapTo msg) = .some x y h ∧
        r.1 = (List.zipWith xor (keyWord x.re x.im) (xorAll fun i => pad (rnd i))).map bit ∧
        r.2 = fun i => localBits (rnd i)) (fun _ => True) := by
  have signed := dstbSign_spec documented alphai sk msg (E := fun _ => True) coeff
    (fun j zero => ⟨_, scaledSignature_zero identity (coeff j) zero, trivial⟩) fun _ => trivial
  refine signed.bind fun ac ⟨_, hac⟩ => ?_
  rw [sum_scaled joint] at hac
  obtain ⟨x, y, h, value, coordinates⟩ := hac
  have real : val ac.x.real = x.re := congrArg (fun P => P.x.re) coordinates
  have imag : val ac.x.imag = x.im := congrArg (fun P => P.x.im) coordinates
  refine (transportPhaseOne_spec players small fuel rnd ac.x.real ac.x.imag).mono (fun _ h => h)
    (fun r hr => ⟨x, y, h, value, ?_, hr.2⟩) fun _ _ => trivial
  rw [hr.1, real, imag]

omit [Gaussian.Irreducible (ZMod p)] in
theorem runSecondField_spec (players : n < 2 ^ 31)
    (masks : ∀ m : Square alphai', A ⟨Site.square .legendre, m⟩ → val m.a ≠ 0)
    (small : p < 2 ^ PSIZE) (x : Gaussian (ZMod p)) (rnd : Fin n → Octets) {msg : List (ZMod q)}
    (length : msg.length = CHUNK_NUM) :
    Program.Meets A (fun res => res = custodyBitOf x msg) E
      (runSecondField (fun i => localBits (rnd i))
        ((List.zipWith xor (keyWord x.re x.im) (xorAll fun i => pad (rnd i))).map bit) msg :
        Online alphai' _) := by
  have several : 3 ≤ CHUNK_NUM := by
    rw [CHUNK_NUM_eq]
    decide
  refine (transportPhaseTwo_spec players (fun i => localBits_eq (rnd i)) (fun i => length_pad (rnd i))
    (length_keyWord x.re x.im)).bind fun ek hek => ?_
  rw [toNat_keyWord small] at hek
  obtain ⟨k0, k1, k2, rfl⟩ : ∃ k0 k1 k2, ek = [k0, k1, k2] := by
    apply List.length_eq_three.1
    simpa using congrArg List.length hek
  have keys : [val k0, val k1, val k2] = transportedKeys x := hek
  refine (offline2primes_spec k0 k1 k2 several).bind fun pre_key filled => ?_
  rw [keys] at filled
  rw [Online.index_zero, Program.ret_bind]
  refine (online2primes_spec masks k0 filled length (by omega)).imp fun res hres => ?_
  rw [hres, custodyBitOf, ← keys]
  rfl

/-- What may differ between two runs: the shares of the key, the local bits, the MAC keys, the
preprocessing of both fields and the bound on the rejection sampling. -/
structure Execution (n p q r : Nat) [Fact p.Prime] [Fact q.Prime] where
  sk : Fin n → ZMod r
  rnd : Fin n → Octets
  alphai : Fin n → ZMod p
  alphai' : Fin n → ZMod q
  tape : Tape (spdz alphai)
  tape' : Tape (spdz alphai')
  fuel : Nat

def Execution.Splits (run : Execution n p q r) (s : ZMod r) : Prop :=
  ∃ lc : Fin n → ZMod r, (∀ j : Fin n, getLagrangeCoeff n (j + 1) = .ok (lc j)) ∧
    ∑ j, lc j * run.sk j = s

def Execution.Outputs (run : Execution n p q r) (mcl : Mcl G1 G2 GT) (nonce : String)
    (data : List (ZMod q)) (res : Int) : Prop :=
  let one : Run (spdz run.alphai) _ := (runPhaseOne mcl run.fuel run.sk nonce run.rnd).run run.tape
  InvMasksNonzero one ∧ ∃ reveal_bits local_bits, one.result = .ok (reveal_bits, local_bits) ∧
    let two : Run (spdz run.alphai') _ := (runSecondField local_bits reveal_bits data).run run.tape'
    MasksNonzero two ∧ two.result = .ok res

theorem Execution.outputs_eq (run : Execution n p q r) (players : n < 2 ^ 31)
    (documented : mcl.Documented point) (identity : mcl.getStr 0 = ['0']) (small : p < 2 ^ PSIZE)
    {s : ZMod r} (splits : run.Splits s)
    {nonce : String} {data : List (ZMod q)} (length : data.length = CHUNK_NUM) {res : Int}
    (outputs : run.Outputs mcl nonce data res) :
    ∃ x y h, point (s • mcl.hashAndMapTo nonce) = .some x y h ∧ res = custodyBitOf x data := by
  obtain ⟨lc, coeff, joint⟩ := splits
  obtain ⟨invMasks, reveal_bits, local_bits, returned, masks, returned'⟩ := outputs
  have admitted : ∀ d ∈ _, NonzeroInvMask d := fun d drawn m same => invMasks m (same ▸ drawn)
  obtain ⟨x, y, h, value, rfl, rfl⟩ := (runPhaseOne_spec players documented identity small run.fuel
    nonce coeff joint run.rnd).returned admitted returned
  refine ⟨x, y, h, value, ?_⟩
  exact (runSecondField_spec (E := fun _ => False) players masks small x run.rnd length).returned
    (fun _ drawn => drawn) returned'

/-- Two runs for one key, nonce and message output one bit, which only depends on the
`x`-coordinate of the signature and on the message. -/
theorem pipeline_agrees (players : n < 2 ^ 31) (documented : mcl.Documented point)
    (identity : mcl.getStr 0 = ['0']) (small : p < 2 ^ PSIZE) (s : ZMod r) (nonce : String)
    {data : List (ZMod q)}
    (length : data.length = CHUNK_NUM) :
    (∀ (run run' : Execution n p q r) (res res' : Int), run.Splits s → run'.Splits s →
      run.Outputs mcl nonce data res → run'.Outputs mcl nonce data res' → res = res') ∧
    ∀ (run : Execution n p q r) (res : Int), run.Splits s → run.Outputs mcl nonce data res →
      ∃ x y h, point (s • mcl.hashAndMapTo nonce) = .some x y h ∧ res = custodyBitOf x data := by
  have determined (run : Execution n p q r) (res : Int) (splits : run.Splits s)
      (outputs : run.Outputs mcl nonce data res) :=
    run.outputs_eq players documented identity small splits length outputs
  refine ⟨fun run run' res res' splits splits' outputs outputs' => ?_, determined⟩
  obtain ⟨x, y, h, value, rfl⟩ := determined run res splits outputs
  obtain ⟨x', y', h', value', rfl⟩ := determined run' res' splits' outputs'
  cases value.symm.trans value'
  rfl

end Spec

section Small

def smallOctets : Fin 2 → Octets := fun _ _ => 90

def smallData : List (ZMod 3) := List.replicate CHUNK_NUM 0

def smallExecution : Execution 2 7 3 13 where
  sk := smallShares
  rnd := smallOctets
  alphai := GroupOp.smallKey
  alphai' j := (j : Nat) + 1
  tape := plainTape _
  tape' := plainTape _
  fuel := 2

theorem smallExecution_splits : smallExecution.Splits 3 :=
  ⟨smallCoefficients, small_coefficients, by decide⟩

theorem smallExecution_signs : ∃ ac, ((dstbSign smallMcl smallShares "nonce" :
    Online smallExecution.alphai _).run (plainTape _)).result = .ok ac := by
  have signed := dstbSign_spec smallMcl_documented smallExecution.alphai smallShares "nonce"
    (E := fun _ => False) small_coefficients (fun j zero => absurd zero (small_nonzero j)) small_apart
  obtain ⟨ac, returned, _⟩ := signed.run_ok (plainTape _) fun d drawn m same =>
    plainTape_invMasksNonzero _ _ m (same ▸ drawn)
  exact ⟨ac, returned⟩

theorem seven_small : 7 < 2 ^ PSIZE := by
  rw [PSIZE_eq]
  decide +kernel

theorem smallExecution_phaseOne : ∃ a, ((runPhaseOne smallMcl 2 smallShares "nonce" smallOctets).run
    (plainTape smallExecution.alphai)).result = .ok a := by
  obtain ⟨ac, signed⟩ := smallExecution_signs
  have first (start : Nat) : FirstAccepted (plainTape smallExecution.alphai) start 0 :=
    ⟨plainTape_accepted _ _, nofun⟩
  rcases transportPhaseOne_run (by decide) seven_small 2 smallOctets ac.x.real
      ac.x.imag (plainTape smallExecution.alphai) with ⟨_, _, _, _, _, _, ⟨a, returned⟩, _⟩ | ⟨_, missed⟩
  · exact ⟨a, runPhaseOne_returns signed (by rwa [plainTape_rest])⟩
  · exact (missed 0 0 (by decide) (by decide) (first 0) (first 1)).elim

theorem pipeline_agrees_small :
    ∃ res, smallExecution.Outputs smallMcl "nonce" smallData res ∧
      ∃ x y h, multiples 3 = .some x y h ∧ res = custodyBitOf x smallData := by
  have length : smallData.length = CHUNK_NUM := List.length_replicate
  obtain ⟨⟨reveal_bits, local_bits⟩, returned⟩ := smallExecution_phaseOne
  have invMasks := plainTape_invMasksNonzero smallExecution.alphai
    (runPhaseOne smallMcl 2 smallShares "nonce" smallOctets)
  have admitted : ∀ d ∈ _, NonzeroInvMask d := fun d drawn m same => invMasks m (same ▸ drawn)
  obtain ⟨x, _, _, _, rfl, rfl⟩ := (runPhaseOne_spec (by decide) smallMcl_documented rfl seven_small 2
    "nonce" small_coefficients rfl smallOctets).returned admitted returned
  have masks := plainTape_masksNonzero smallExecution.alphai'
    (runSecondField (fun i => localBits (smallOctets i)) ((List.zipWith xor (keyWord x.re x.im)
      (xorAll fun i => pad (smallOctets i))).map bit) smallData)
  obtain ⟨res, returned', _⟩ := (runSecondField_spec (E := fun _ => False) (by decide) masks seven_small
    x smallOctets length).run_ok (plainTape smallExecution.alphai') fun _ drawn => drawn
  have outputs : smallExecution.Outputs smallMcl "nonce" smallData res :=
    ⟨invMasks, _, _, returned, masks, returned'⟩
  exact ⟨res, outputs, (pipeline_agrees (by decide) smallMcl_documented rfl seven_small 3 "nonce"
    length).2 smallExecution res smallExecution_splits outputs⟩

end Small

end ProofOfCustody.Poc
