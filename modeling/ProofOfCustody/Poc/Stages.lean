import Mathlib
import ProofOfCustody.Poc.LocalSpec

/-!
# The stages of the program

Stage one signs the nonce and reveals the masked key. Stage two takes the mask away, tabulates the
powers of the keys once and computes the custody bit of one message after the other. Both end with
the last check of all that was opened.
-/

namespace ProofOfCustody.Poc
open Effect Spdz Shared Network Curve Bls Binary
open OnlineOp (PSIZE Accepted)

def revealed {n p : Nat} (x : Gaussian (ZMod p)) (rnd : Fin n → Octets) : List Int :=
  (List.zipWith xor (keyWord x.re x.im) (xorAll fun i => pad (rnd i))).map bit

section One
variable {n p r : Nat} [NeZero n] [Fact p.Prime] [Fact r.Prime] {alphai : Fin n → ZMod p}
  {G1 G2 GT : Type} [AddCommGroup G1] [AddCommGroup G2] [Module (ZMod r) G2] [CommGroup GT]
  [Gaussian.Irreducible (ZMod p)] {mcl : Mcl G1 G2 GT} {b : Gaussian (ZMod p)}
  {point : G2 →+ (short b).Point} {sk lc : Fin n → ZMod r} {s : ZMod r} {msg : String}

theorem runPhaseOne_ends (players : n < 2 ^ 31) (documented : mcl.Documented point)
    (small : p < 2 ^ PSIZE)
    (coeff : ∀ j : Fin n, getLagrangeCoeff n (j + 1) = .ok (lc j)) (joint : ∑ j, lc j * sk j = s)
    (finite : ∀ j, signScale mcl (sk j) (lc j) msg ≠ 0) (rnd : Fin n → Octets)
    (t : Tape (spdz alphai)) (masks : InvMasksNonzero ((dstbSign mcl sk msg).run t)) {j j' fuel : Nat}
    (earlier : j < j') (later : j' < fuel)
    (accepted : Accepted ((dstbSign mcl sk msg).run t).rest j)
    (accepted' : Accepted ((dstbSign mcl sk msg).run t).rest j') :
    let S := fun j => point (signScale mcl (sk j) (lc j) msg)
    (Collides S ∧ ((runPhaseOne mcl fuel sk msg rnd).run t).result = .error .division_by_zero) ∨
      ¬Collides S ∧ ∃ x y h, point (s • mcl.hashAndMapTo msg) = .some x y h ∧
        ((runPhaseOne mcl fuel sk msg rnd).run t).result =
          .ok (revealed x rnd, fun i => localBits (rnd i)) := by
  intro S
  have spec := dstbSign_spec documented alphai sk msg (E := fun e => e = .division_by_zero ∧ Collides S)
    coeff (fun j zero => absurd zero (finite j)) fun collides => ⟨rfl, collides⟩
  rcases spec.run t fun d drawn m same => masks m (same ▸ drawn) with
    ⟨ac, returned, apart, shares⟩ | ⟨e, failed, rfl, collides⟩
  · rw [sum_scaled joint] at shares
    obtain ⟨x, y, h, value, coordinates⟩ := shares
    have real : val ac.x.real = x.re := congrArg (fun P => P.x.re) coordinates
    have imag : val ac.x.imag = x.im := congrArg (fun P => P.x.im) coordinates
    obtain ⟨i, before, first⟩ := OnlineOp.exists_firstAccepted (Nat.zero_le j) accepted
    obtain ⟨i', before', second⟩ := OnlineOp.exists_firstAccepted (show i + 1 ≤ j' by omega) accepted'
    rcases transportPhaseOne_run players small fuel rnd ac.x.real ac.x.imag
        ((dstbSign mcl sk msg).run t).rest with ⟨_, _, _, _, _, _, ⟨a, transported⟩, _⟩ | ⟨_, missed⟩
    · refine .inr ⟨apart, x, y, h, value, ?_⟩
      rw [runPhaseOne_returns returned transported]
      obtain ⟨bits, own⟩ := (transportPhaseOne_spec (A := fun _ => True) players small fuel rnd
        ac.x.real ac.x.imag).returned (fun _ _ => trivial) transported
      rw [real, imag] at bits
      exact congrArg Except.ok (Prod.ext bits own)
    · exact (missed i i' (by omega) (by omega) first second).elim
  · refine .inl ⟨collides, ?_⟩
    rw [runPhaseOne, Program.run_bind_of_error failed]
    rfl

/-- In every order of their steps the players end stage one alike: they divide by zero when two of
the points that they add have one `x`-coordinate, and else each has what is revealed of the
signature and its own bits, and nothing is left unchecked. -/
theorem stageOne_network {O : Outside (ZMod p)} {T : TreeSum n}
    (limits : Limits O T (max n (2 * PSIZE))) (documented : mcl.Documented point)
    (small : p < 2 ^ PSIZE) (coeff : ∀ j : Fin n, getLagrangeCoeff n (j + 1) = .ok (lc j))
    (joint : ∑ j, lc j * sk j = s) (finite : ∀ j, signScale mcl (sk j) (lc j) msg ≠ 0)
    (rnd : Fin n → Octets) (t : Tape (spdz alphai)) (random : Fin n → Nat → UInt8)
    (masks : InvMasksNonzero ((dstbSign mcl sk msg).run t)) {j j' fuel : Nat} (earlier : j < j')
    (later : j' < fuel) (accepted : Accepted ((dstbSign mcl sk msg).run t).rest j)
    (accepted' : Accepted ((dstbSign mcl sk msg).run t).rest j') :
    let S := fun j => point (signScale mcl (sk j) (lc j) msg)
    ∃ e, Settles (fun i => (Spdz.Local.session O T (fun i =>
          Local.runPhaseOne (OnlineOp.Local.seat O T alphai i) mcl fuel (sk i) msg (rnd i))
          t random i).run.run) (fun i => .ok (e i)) ∧
      ((Collides S ∧ e = fun _ => .error .division_by_zero) ∨
        ¬Collides S ∧ ∃ x y h, point (s • mcl.hashAndMapTo msg) = .some x y h ∧
          ∃ M : Fin n → Members n (ZMod p),
            (e = fun i => .ok ((revealed x rnd, localBits (rnd i)), M i)) ∧
            ∀ i, (M i).output.waitingForCheck = 0) := by
  intro S
  have signed (j : Fin n) : ∃ c : OnlineOp.Complex (ZMod p) × OnlineOp.Complex (ZMod p),
      scaledSignature mcl n j (sk j) msg = .ok c := by
    cases value : S j with
    | zero => exact absurd (documented.point_injective (value.trans (map_zero point).symm)) (finite j)
    | some x y h => exact ⟨_, scaledSignature_eq documented (coeff j) value⟩
  choose c signed using signed
  obtain ⟨e, settles, concludes⟩ := (Local.runPhaseOne_localizes limits le_rfl (le_max_left _ _)
    (le_max_right _ _) fuel rnd signed).settles (T := T) limits.players.le t random
  refine ⟨e, settles, ?_⟩
  rcases runPhaseOne_ends limits.players documented small coeff joint finite rnd t masks earlier later
      accepted accepted' with ⟨collides, failed⟩ | ⟨apart, x, y, h, value, returned⟩
  · rw [Concludes, failed] at concludes
    exact .inl ⟨collides, concludes⟩
  · rw [Concludes, returned] at concludes
    exact .inr ⟨apart, x, y, h, value, concludes⟩

def octetOutside : Outside (ZMod 7) where
  enc :=
    { size := 1
      pack := fun x => [UInt8.ofNat x.val]
      unpack := fun o => (o.headD 0).toNat
      length_pack := fun _ => rfl
      unpack_pack := by decide }
  hash := id
  almost_randomize _ _ := 1

theorem smallLimits : Limits octetOutside (⟨0, 2, 2⟩ : TreeSum 2) (max 2 (2 * PSIZE)) where
  levels := by decide
  opening := by decide
  wide := by decide
  numbers := by decide
  count := by
    rw [OnlineOp.PSIZE_eq]
    decide
  octets := by
    rw [OnlineOp.PSIZE_eq]
    decide

theorem stageOne_network_small :
    ∃ e, Settles (fun i => (Spdz.Local.session octetOutside ⟨0, 2, 2⟩ (fun i =>
          Local.runPhaseOne (OnlineOp.Local.seat octetOutside ⟨0, 2, 2⟩ GroupOp.smallKey i) smallMcl 2
            (smallShares i) "nonce" (smallOctets i)) (plainTape GroupOp.smallKey) (fun _ _ => 0)
          i).run.run) (fun i => .ok (e i)) ∧
      ∃ x y h, multiples 3 = .some x y h ∧ ∃ M : Fin 2 → Members 2 (ZMod 7),
        (e = fun i => .ok ((revealed x smallOctets, localBits (smallOctets i)), M i)) ∧
        ∀ i, (M i).output.waitingForCheck = 0 := by
  have accepted (j : Nat) : Accepted ((dstbSign smallMcl smallShares "nonce").run
      (plainTape GroupOp.smallKey)).rest j := by
    rw [plainTape_rest]
    exact OnlineOp.plainTape_accepted _ _
  have joint : ∑ j, smallCoefficients j * smallShares j = 3 := by decide
  obtain ⟨e, settles, ends⟩ := stageOne_network smallLimits smallMcl_documented seven_small
    small_coefficients joint small_nonzero smallOctets (plainTape GroupOp.smallKey) (fun _ _ => 0)
      (plainTape_invMasksNonzero _ _)
    Nat.zero_lt_one Nat.one_lt_two (accepted 0) (accepted 1)
  rcases ends with ⟨collides, _⟩ | ⟨_, x, y, h, value, M, ends⟩
  · exact absurd collides small_apart
  · exact ⟨e, settles, x, y, h, value, M, ends⟩

end One

section Two
variable {n p q : Nat} [Fact p.Prime] [Fact q.Prime] {alphai : Fin n → ZMod q} {O : Outside (ZMod q)}
  {T : TreeSum n}

def runStageTwo (local_bits : Fin n → List Int) (reveal_bits : List Int)
    (msgs : List (List (ZMod q))) : Online alphai (List Int) := do
  let ek ← transportPhaseTwo local_bits reveal_bits
  let pre_key ← computeCustodyBitOffline2primes CHUNK_NUM ek
  msgs.mapM fun msg => do
    let ek₀ ← Online.index ek 0
    computeCustodyBitOnline2primes CHUNK_NUM pre_key ek₀ msg

theorem runStageTwo_spec [NeZero n] (players : n < 2 ^ 31) {A : Draw (spdz alphai) → Prop} {E : Err → Prop}
    (masks : ∀ m : Square alphai, A ⟨Site.square .legendre, m⟩ → val m.a ≠ 0)
    (small : p < 2 ^ PSIZE) (x : Gaussian (ZMod p)) (rnd : Fin n → Octets)
    {msgs : List (List (ZMod q))} (lengths : ∀ msg ∈ msgs, msg.length = CHUNK_NUM) :
    Program.Meets A (fun bits => bits = msgs.map (custodyBitOf x)) E
      (runStageTwo (fun i => localBits (rnd i)) (revealed x rnd) msgs : Online alphai _) := by
  have several : 3 ≤ CHUNK_NUM := by
    rw [CHUNK_NUM_eq]
    decide
  refine (transportPhaseTwo_spec players (fun i => localBits_eq (rnd i)) (fun i => length_pad (rnd i))
    (length_keyWord x.re x.im)).bind fun ek hek => ?_
  rw [toNat_keyWord small] at hek
  obtain ⟨k0, k1, k2, rfl⟩ : ∃ k0 k1 k2, ek = [k0, k1, k2] := by
    apply List.length_eq_three.1
    simpa using congrArg List.length hek
  have keys : [val k0, val k1, val k2] = transportedKeys x := hek
  refine (offline2primes_spec k0 k1 k2 several).bind fun pre_key filled => ?_
  rw [keys] at filled
  refine (Program.Meets.mapM (R := fun msg bit => bit = custodyBitOf x msg) msgs
    fun msg member => ?_).imp fun bits related => eq_map_of_forall₂ related
  rw [Online.index_zero, Program.ret_bind]
  refine (online2primes_spec masks k0 filled (lengths msg member) (by omega)).imp fun res hres => ?_
  rw [hres, custodyBitOf, ← keys]
  rfl

variable (limits : Limits O T (max n 2))
include limits

theorem runStageTwo_localizes {local_bits : Fin n → List Int}
    (long : ∀ i, 2 * PSIZE ≤ (local_bits i).length) (reveal_bits : List Int)
    (msgs : List (List (ZMod q))) :
    Localizes O (Authentic alphai) (fun _ => True) (fun _ bits => bits)
      (runStageTwo local_bits reveal_bits msgs : Online alphai _) fun i =>
        Local.runStageTwo (OnlineOp.Local.seat O T alphai i) (local_bits i) reveal_bits msgs := by
  refine (Local.transportPhaseTwo_localizes limits le_rfl (le_max_left _ _) long reveal_bits).bind
    fun ek hek => ?_
  have pair := le_max_right n 2
  refine (Local.computeCustodyBitOffline2primes_localizes limits le_rfl pair CHUNK_NUM hek).bind
    fun pre_key hpre => ?_
  let joint (msg : List (ZMod q)) : Online alphai Int := do
    let ek₀ ← Online.index ek 0
    computeCustodyBitOnline2primes CHUNK_NUM pre_key ek₀ msg
  let step (i : Fin n) (msg : List (ZMod q)) : Spdz.Local n (ZMod q) Int := do
    let ek₀ ← Spdz.Local.index (OnlineOp.Local.ownVec i ek) 0
    Local.computeCustodyBitOnline2primes (OnlineOp.Local.seat O T alphai i) CHUNK_NUM
      (OnlineOp.Local.ownVec i pre_key) ek₀ msg
  have each (msg : List (ZMod q)) : Localizes O (Authentic alphai) (fun _ => True) (fun _ bit => bit)
      (joint msg) fun i => step i msg :=
    (Localizes.index hek 0).bind fun ek₀ h₀ =>
      Local.computeCustodyBitOnline2primes_localizes limits le_rfl pair CHUNK_NUM hpre h₀ msg
  have all := Localizes.mapMClear (g := step) fun msg (_ : msg ∈ msgs) => each msg
  simp only [List.map_id'] at all
  exact all.imp fun _ _ => trivial

/-- In every order of their steps all players end with the same bits, which are the custody bits of
the messages under the key, and nothing is left unchecked. -/
theorem stageTwo_network [NeZero n] (small : p < 2 ^ PSIZE) (x : Gaussian (ZMod p))
    (rnd : Fin n → Octets) {msgs : List (List (ZMod q))}
    (lengths : ∀ msg ∈ msgs, msg.length = CHUNK_NUM) (t : Tape (spdz alphai))
    (random : Fin n → Nat → UInt8)
    (masks : MasksNonzero
      ((runStageTwo (fun i => localBits (rnd i)) (revealed x rnd) msgs : Online alphai _).run t)) :
    ∃ M : Fin n → Members n (ZMod q),
      Settles (fun i => (Spdz.Local.session O T (fun i =>
          Local.runStageTwo (OnlineOp.Local.seat O T alphai i) (localBits (rnd i)) (revealed x rnd) msgs)
          t random i).run.run)
        (fun i => .ok (.ok (msgs.map (custodyBitOf x), M i))) ∧
      ∀ i, (M i).output.waitingForCheck = 0 := by
  have long (i : Fin n) : 2 * PSIZE ≤ (localBits (rnd i)).length := by
    rw [localBits_eq, List.length_map, length_pad]
  obtain ⟨b, settles, concludes⟩ := (runStageTwo_localizes limits long (revealed x rnd)
    msgs).settles (T := T) limits.players.le t random
  obtain ⟨bits, returned, rfl⟩ := (runStageTwo_spec (E := fun _ => False) limits.players masks small x
    rnd lengths).run_ok t fun _ drawn => drawn
  rw [Concludes, returned] at concludes
  obtain ⟨M, rfl, checked⟩ := concludes
  exact ⟨M, settles, checked⟩

end Two

theorem plainLimits : Limits MacCheck.plainOutside (⟨0, 2, 2⟩ : TreeSum 2) (max 2 2) where
  levels := by decide
  opening := by decide
  wide := by decide
  numbers := by decide
  count := by decide
  octets := by decide

theorem stageTwo_network_small : ∃ M : Fin 2 → Members 2 (ZMod 3),
    Settles (fun i => (Spdz.Local.session MacCheck.plainOutside ⟨0, 2, 2⟩ (fun i =>
        Local.runStageTwo (OnlineOp.Local.seat MacCheck.plainOutside ⟨0, 2, 2⟩ (fun _ => 1) i)
          (localBits (smallOctets i)) (revealed (⟨1, 2⟩ : Gaussian (ZMod 7)) smallOctets)
          [smallData, smallData]) (plainTape fun _ => 1) (fun _ _ => 0) i).run.run)
      (fun i => .ok (.ok ([smallData, smallData].map (custodyBitOf (⟨1, 2⟩ : Gaussian (ZMod 7))),
        M i))) ∧
    ∀ i, (M i).output.waitingForCheck = 0 :=
  stageTwo_network plainLimits seven_small ⟨1, 2⟩ smallOctets (by simp [smallData])
    (plainTape fun _ => 1) (fun _ _ => 0)
    (plainTape_masksNonzero _ _)

end ProofOfCustody.Poc
