import Mathlib
import ProofOfCustody.Poc.Local

/-!
# The two stages over the network

Every function of the two stages on the shares of the players localizes the joint function, and so
the players end the stages with what the joint execution computes.
-/

namespace ProofOfCustody.Poc.Local
open Effect Spdz Network Curve OnlineOp.Local
open OnlineOp (PSIZE QSIZE)

section Field
variable {n : Nat} {F : Type} [Field F] [DecidableEq F] {alphai : Fin n → F} {O : Outside F}
  {T : TreeSum n} {W : Submodule F (Shared n F)}

theorem xorAndCombine_localizes (covers : Shared.Authentic alphai ≤ W)
    {shared_bits : List (Shared n F)} (inside : ∀ s ∈ shared_bits, s ∈ W) (reveal_bits : List Int) :
    Localizes O W (fun c => ∀ s ∈ c, s ∈ W) ownVec
      (Poc.xorAndCombine shared_bits reveal_bits : Online alphai _) fun i =>
        xorAndCombine (seat O T alphai i) (ownVec i shared_bits) reveal_bits := by
  refine Localizes.throwIf (fun i => by simp) .invalid_length fun _ => ?_
  let op (s : Shared n F) (r : Int) : Shared n F := OnlineOp.XORPlain alphai s ((r : Int) : F)
  have opened : ∀ s ∈ List.zipWith op shared_bits reveal_bits, s ∈ W :=
    zipWith_mem fun s hs r _ => XORPlain_mem covers (inside s hs) _
  have slice (l : Nat) : ∀ s ∈ ((List.zipWith op shared_bits reveal_bits).drop (l * QSIZE)).take QSIZE,
      s ∈ W := fun s member => opened s (List.mem_of_mem_drop (List.mem_of_mem_take member))
  have zipped (i : Fin n) : List.zipWith (fun s r => XORPlain (seat O T alphai i) s ((r : Int) : F))
      (ownVec i shared_bits) reveal_bits = ownVec i (List.zipWith op shared_bits reveal_bits) := by
    have zipped := own_zipWith op (fun i s r => XORPlain (seat O T alphai i) s ((r : Int) : F))
      (fun _ r => r) (fun i s r => own_XORPlain i s _) i shared_bits reveal_bits
    rwa [List.map_id'] at zipped
  let step (i : Fin n) (l : Nat) : Local n F (Share F) :=
    Local.defined (B2A (((ownVec i (List.zipWith op shared_bits reveal_bits)).drop
      (l * QSIZE)).take QSIZE) QSIZE)
  have each (l : Nat) : Localizes O W (· ∈ W) own (Online.defined (OnlineOp.B2A
      (((List.zipWith op shared_bits reveal_bits).drop (l * QSIZE)).take QSIZE) QSIZE) :
        Online alphai _) fun i => step i l :=
    (B2A_localizes (slice l) QSIZE).congr fun i => by
      simp only [step, ownVec, List.map_take, List.map_drop]
  refine ((Localizes.mapMClear (g := step) fun l (_ : l ∈ List.range 3) => each l).imp
    fun _ all => all.2).congr fun i => ?_
  rw [zipped]

section Network
variable {m : Nat} (limits : Limits O T m) (covers : Shared.Authentic alphai ≤ W)
include limits covers

theorem sharedRandBits_localizes (everyone : n ≤ m) {local_bits : Fin n → List Int}
    (long : ∀ i, 2 * PSIZE ≤ (local_bits i).length) :
    Localizes O W (fun c => ∀ s ∈ c, s ∈ W) ownVec (Poc.sharedRandBits local_bits : Online alphai _)
      fun i => sharedRandBits (seat O T alphai i) (local_bits i) := by
  refine ((Localizes.mapMClear fun j hj => ?_).imp fun _ all => all.2).congr fun i => by
    rw [sharedRandBits]
  have present (i : Fin n) : j < (local_bits i).length :=
    (List.mem_range.1 hj).trans_le (long i)
  refine (Localizes.mapMClear fun k _ => ?_).bind fun sbit ⟨_, hsbit⟩ =>
    KXOR_localizes limits covers hsbit everyone
  rw [if_pos present]
  refine (Processor.getInputs_localizes (T := T) covers k fun i =>
    (((local_bits i).getD j 0 : Int) : F)).congr fun i => ?_
  rw [Local.index, List.getElem?_eq_getElem (present i), List.getD_eq_getElem _ _ (present i)]
  rfl

theorem transportPhaseTwo_localizes (everyone : n ≤ m) {local_bits : Fin n → List Int}
    (long : ∀ i, 2 * PSIZE ≤ (local_bits i).length) (reveal_bits : List Int) :
    Localizes O W (fun c => ∀ s ∈ c, s ∈ W) ownVec
      (Poc.transportPhaseTwo local_bits reveal_bits : Online alphai _) fun i =>
        transportPhaseTwo (seat O T alphai i) (local_bits i) reveal_bits :=
  (sharedRandBits_localizes limits covers everyone long).bind fun _ inside =>
    xorAndCombine_localizes covers inside reveal_bits

end Network

theorem assign_localizes {xs : List (Shared n F)} (hxs : ∀ s ∈ xs, s ∈ W) (l : Nat)
    {x : Shared n F} (hx : x ∈ W) :
    Localizes O W (fun c => ∀ s ∈ c, s ∈ W) ownVec (Poc.assign xs l x : Online alphai _) fun i =>
      assign (ownVec i xs) l (own i x) := by
  refine Localizes.throwUnless (fun i => by simp) .undefined fun _ => ?_
  refine .ret_of (fun s member => ?_) fun i => List.map_set.symm
  rcases List.mem_or_eq_of_mem_set member with old | new
  · exact hxs s old
  · exact new ▸ hx

theorem back_localizes {xs : List (Shared n F)} (hxs : ∀ s ∈ xs, s ∈ W) :
    Localizes O W (· ∈ W) own (Poc.back xs : Online alphai _) fun i => back (ownVec i xs) := by
  rw [Poc.back]
  cases last : xs.getLast? with
  | none =>
      refine (Localizes.throw .undefined).congr fun i => ?_
      rw [back, ownVec, List.getLast?_map, last]
      rfl
  | some x =>
      refine (Localizes.ret (hxs x (List.mem_of_getLast? last))).congr fun i => ?_
      rw [back, ownVec, List.getLast?_map, last]
      rfl

theorem hashTable_localizes (covers : Shared.Authentic alphai ≤ W) {pre_key : List (Shared n F)}
    (inside : ∀ s ∈ pre_key, s ∈ W) (msg : List F) :
    Localizes O W (· ∈ W) own (Poc.hashTable pre_key msg : Online alphai _) fun i =>
      hashTable (seat O T alphai i) (ownVec i pre_key) msg := by
  refine (Localizes.index inside 0).bind fun pre_key₀ h₀ => ?_
  refine (Localizes.indexClear msg 1).bind fun msg₁ _ => ?_
  refine (Localizes.indexClear msg 0).bind fun msg₀ _ => ?_
  have start := add_mem (W.smul_mem msg₁ h₀) (constant_mem covers msg₀)
  let step (l : Nat) (uhf_out : Shared n F) : Online alphai (Shared n F) := do
    let key ← Online.index pre_key (l - 1)
    let msgi ← Online.index msg l
    return OnlineOp.addInplace uhf_out (OnlineOp.mulPlain key msgi)
  let step' (i : Fin n) (l : Nat) (uhf_out : Share F) : Local n F (Share F) := do
    let key ← Local.index (ownVec i pre_key) (l - 1)
    let msgi ← Local.index msg l
    return addInplace uhf_out (mulPlain key msgi)
  have loop (out : Shared n F) (hout : out ∈ W) : Localizes O W (· ∈ W) own
      (Program.forRange step 2 (msg.length - 2) out : Online alphai _) fun i =>
        Local.forRange (step' i) 2 (msg.length - 2) (own i out) := by
    refine .forRange (fun _ => (· ∈ W)) hout fun l uhf_out _ _ hout => ?_
    refine (Localizes.index inside (l - 1)).bind fun key hkey => ?_
    refine (Localizes.indexClear msg l).bind fun msgi _ => ?_
    exact .ret_of (add_mem hout (W.smul_mem msgi hkey)) fun i => rfl
  exact (loop _ start).bind fun out hout => (back_localizes inside).bind fun last hlast =>
    .ret_of (add_mem hout hlast) fun i => rfl

section Network
variable {m : Nat} (limits : Limits O T m) (covers : Shared.Authentic alphai ≤ W)
include limits covers

theorem computeCustodyBitOffline2primes_localizes (pair : 2 ≤ m) (N : Nat) {keys : List (Shared n F)}
    (inside : ∀ s ∈ keys, s ∈ W) :
    Localizes O W (fun c => ∀ s ∈ c, s ∈ W) ownVec
      (Poc.computeCustodyBitOffline2primes N keys : Online alphai _) fun i =>
        computeCustodyBitOffline2primes (seat O T alphai i) N (ownVec i keys) := by
  refine Localizes.throwIf (fun i => by simp) .bad_value fun _ => ?_
  refine (Localizes.index inside 0).bind fun keys₀ h₀ => ?_
  refine (Localizes.index inside 1).bind fun keys₁ h₁ => ?_
  refine (Localizes.index inside 2).bind fun keys₂ h₂ => ?_
  have square {a : Shared n F} (ha : a ∈ W) := sqr_localizes limits pair covers ha
  have product {c a : Shared n F} (hc : c ∈ W) (ha : a ∈ W) :=
    mulInplace_localizes limits pair covers hc ha
  refine (square h₀).bind fun s0 hs0 => (product hs0 h₀).bind fun s0_cube hs0_cube => ?_
  refine (square h₁).bind fun s1 hs1 => (product hs1 h₁).bind fun s1_cube hs1_cube => ?_
  refine (square h₂).bind fun s2 hs2 => ?_
  have empty : ∀ s ∈ List.replicate N (0 : Shared n F), s ∈ W := by
    intro s member
    rw [List.eq_of_mem_replicate member]
    exact zero_mem W
  refine ((assign_localizes empty 1 hs2).congr fun i => by
    rw [ownVec, List.map_replicate]; rfl).bind fun pre_key h => ?_
  refine (product hs2 h₂).bind fun s2_cube hs2_cube => ?_
  refine (assign_localizes h 0 h₁).bind fun pre_key h => ?_
  refine (assign_localizes h 2 hs0_cube).bind fun pre_key h => ?_
  refine Localizes.forRange (fun _ (c : List (Shared n F)) => ∀ s ∈ c, s ∈ W) h
    fun l pre_key _ _ h => ?_
  let cube : Shared n F := if l % 3 = 0 then s1_cube else if l % 3 = 1 then s2_cube else s0_cube
  have hcube : cube ∈ W := by
    unfold cube
    split
    · exact hs1_cube
    · split
      · exact hs2_cube
      · exact hs0_cube
  have own_cube (i : Fin n) : own i cube = if l % 3 = 0 then own i s1_cube
      else if l % 3 = 1 then own i s2_cube else own i s0_cube := by
    unfold cube
    rw [apply_ite (own i), apply_ite (own i)]
  refine (Localizes.index h (l - 3)).bind fun prev hprev => ?_
  refine ((mul_localizes limits pair covers hprev hcube).congr fun i => ?_).bind
    fun c hc => assign_localizes h l hc
  rw [← own_cube]

end Network

end Field

section Bit
variable {n p : Nat} [Fact p.Prime] {alphai : Fin n → ZMod p} {O : Outside (ZMod p)} {T : TreeSum n}
  {W : Submodule (ZMod p) (Shared n (ZMod p))} {m : Nat} (limits : Limits O T m)
  (covers : Shared.Authentic alphai ≤ W)
include limits covers

theorem computeCustodyBitOnline2primes_localizes (pair : 2 ≤ m) (N : Nat)
    {pre_key : List (Shared n (ZMod p))}
    (inside : ∀ s ∈ pre_key, s ∈ W) {key : Shared n (ZMod p)} (hkey : key ∈ W)
    (msg : List (ZMod p)) :
    Localizes O W (fun _ => True) (fun _ res => res)
      (Poc.computeCustodyBitOnline2primes N pre_key key msg : Online alphai _) fun i =>
        computeCustodyBitOnline2primes (seat O T alphai i) N (ownVec i pre_key) (own i key) msg := by
  refine Localizes.throwIf (fun _ => Iff.rfl) .bad_value fun _ => ?_
  refine (hashTable_localizes covers inside msg).bind fun uhf_out hout => ?_
  generalize 10 = rounds
  let step (l : Nat) (res : Int) : Online alphai Int := do
    let bit ← OnlineOp.legendrePrf key (OnlineOp.addPlain alphai uhf_out (l : ZMod p))
    return Int.lor res bit
  let step' (i : Fin n) (l : Nat) (res : Int) : Local n (ZMod p) Int := do
    let bit ← legendrePrf (seat O T alphai i) (own i key)
      (addPlain (seat O T alphai i) (own i uhf_out) (l : ZMod p))
    return Int.lor res bit
  have loop : Localizes O W (fun _ => True) (fun _ res => res)
      (Program.forRange step 0 rounds 0 : Online alphai _) fun i =>
        Local.forRange (step' i) 0 rounds 0 := by
    refine .forRange (fun _ _ => True) trivial fun l res _ _ _ => ?_
    have input := add_mem hout (constant_mem covers (l : ZMod p))
    exact (legendrePrf_localizes limits pair covers hkey input).bind fun bit _ =>
      .ret_of trivial fun i => rfl
  exact loop

omit limits covers in
theorem readBits_localizes (out : List (ZMod p)) (k : Nat) :
    Localizes O W (fun _ => True) (fun _ bits => bits)
      ((List.range k).mapM fun l => do
        let o ← Online.index out l
        return (o.val : Int) : Online alphai (List Int)) fun _ =>
        (List.range k).mapM fun l => (do
          let o ← Local.index out l
          return (o.val : Int) : Local n (ZMod p) Int) := by
  have each (l : Nat) : Localizes O W (fun _ => True) (fun _ bit => bit)
      (Online.index out l >>= fun o => pure (o.val : Int) : Online alphai Int) fun _ =>
        Local.index out l >>= fun o => pure (o.val : Int) :=
    (Localizes.indexClear out l).bind fun o _ => .ret trivial
  have all := Localizes.mapMClear fun l (_ : l ∈ List.range k) => each l
  simp only [List.map_id'] at all
  exact all.imp fun _ _ => trivial

theorem xorBits_localizes (pair : 2 ≤ m) {deco_bits shared_bits : List (Shared n (ZMod p))}
    (hdeco : ∀ s ∈ deco_bits, s ∈ W) (hbits : ∀ s ∈ shared_bits, s ∈ W) (k : Nat) :
    Localizes O W (fun c => c.length = k ∧ ∀ s ∈ c, s ∈ W) ownVec
      ((List.range k).mapM fun l => (do
        let d ← Online.index deco_bits l
        let s ← Online.index shared_bits l
        OnlineOp.XORInplace d s : Online alphai (Shared n (ZMod p)))) fun i =>
        (List.range k).mapM fun l => (do
          let d ← Local.index (ownVec i deco_bits) l
          let s ← Local.index (ownVec i shared_bits) l
          XORInplace (seat O T alphai i) d s : Local n (ZMod p) (Share (ZMod p))) := by
  let joint (l : Nat) : Online alphai (Shared n (ZMod p)) := do
    let d ← Online.index deco_bits l
    let s ← Online.index shared_bits l
    OnlineOp.XORInplace d s
  let step (i : Fin n) (l : Nat) : Local n (ZMod p) (Share (ZMod p)) := do
    let d ← Local.index (ownVec i deco_bits) l
    let s ← Local.index (ownVec i shared_bits) l
    XORInplace (seat O T alphai i) d s
  have each (l : Nat) : Localizes O W (· ∈ W) own (joint l) fun i => step i l :=
    (Localizes.index hdeco l).bind fun d hd => (Localizes.index hbits l).bind fun s hs =>
      XOR_localizes limits pair covers hd hs
  have all := Localizes.mapMClear (g := step) fun l (_ : l ∈ List.range k) => each l
  rwa [List.length_range] at all

omit limits covers in
theorem pair_of_room (room : 2 * PSIZE ≤ m) : 2 ≤ m := by
  have := OnlineOp.PSIZE_pos
  omega

theorem decomposeAndReveal_localizes (room : 2 * PSIZE ≤ m) (fuel : Nat)
    {keys shared_bits : List (Shared n (ZMod p))}
    (hkeys : ∀ s ∈ keys, s ∈ W) (hbits : ∀ s ∈ shared_bits, s ∈ W) :
    Localizes O W (fun _ => True) (fun _ bits => bits)
      (Poc.decomposeAndReveal fuel keys shared_bits : Online alphai _) fun i =>
        decomposeAndReveal (seat O T alphai i) fuel (ownVec i keys) (ownVec i shared_bits) := by
  refine Localizes.throwIf (fun i => by simp) .invalid_length fun sizes => ?_
  simp only [List.length_map]
  refine (Localizes.index hkeys 0).bind fun keys₀ h₀ => ?_
  refine (A2B_localizes limits room covers fuel h₀).bind fun deco first => ?_
  refine (Localizes.index hkeys 1).bind fun keys₁ h₁ => ?_
  refine (A2B_localizes limits room covers fuel h₁).bind fun tmp second => ?_
  have whole : ∀ s ∈ deco ++ tmp, s ∈ W := List.forall_mem_append.2 ⟨first.2, second.2⟩
  have own_whole (i : Fin n) : ownVec i deco ++ ownVec i tmp = ownVec i (deco ++ tmp) :=
    List.map_append.symm
  simp only [own_whole]
  refine (xorBits_localizes limits covers (pair_of_room room) whole hbits _).bind
    fun xored added => ?_
  have masked : ∀ s ∈ xored ++ (deco ++ tmp).drop shared_bits.length, s ∈ W :=
    List.forall_mem_append.2 ⟨added.2, fun s member => whole s (List.mem_of_mem_drop member)⟩
  have own_masked (i : Fin n) : ownVec i xored ++ (ownVec i (deco ++ tmp)).drop shared_bits.length =
      ownVec i (xored ++ (deco ++ tmp).drop shared_bits.length) := by
    simp only [ownVec, List.map_append, List.map_drop]
  have short : (xored ++ (deco ++ tmp).drop shared_bits.length).length ≤ m := by
    rw [List.length_append, List.length_drop, List.length_append, added.1, first.1, second.1]
    omega
  simp only [own_masked]
  exact (Localizes.reveal limits rfl masked short).bind fun out _ =>
    readBits_localizes out (2 * PSIZE)

theorem transportPhaseOne_localizes (everyone : n ≤ m) (room : 2 * PSIZE ≤ m) (fuel : Nat)
    (rnd : Fin n → Octets) {x0 x1 : Shared n (ZMod p)}
    (h0 : x0 ∈ W) (h1 : x1 ∈ W) :
    Localizes O W (fun _ => True) (fun i r => (r.1, r.2 i))
      (Poc.transportPhaseOne fuel rnd x0 x1 : Online alphai _) fun i =>
        transportPhaseOne (seat O T alphai i) fuel (rnd i) (own i x0) (own i x1) := by
  have long (i : Fin n) : 2 * PSIZE ≤ (localBits (rnd i)).length := by
    rw [localBits_eq, List.length_map, length_pad]
  have keys : ∀ s ∈ [x0, x1], s ∈ W := by
    simpa using ⟨h0, h1⟩
  let read (i : Fin n) (r : List (Shared n (ZMod p)) × (Fin n → List Int)) :
      List (Share (ZMod p)) × List Int := (ownVec i r.1, r.2 i)
  have phase : Localizes O W (fun r => ∀ s ∈ r.1, s ∈ W) read
      (Poc.sharedRandBitsPhaseOne rnd : Online alphai _) fun i =>
        sharedRandBitsPhaseOne (seat O T alphai i) (rnd i) :=
    (sharedRandBits_localizes limits covers everyone long).bind fun shared_bits inside =>
      .ret_of inside fun i => rfl
  exact phase.bind fun r inside =>
    (decomposeAndReveal_localizes limits covers room fuel keys inside).bind fun bits _ =>
      .ret_of trivial fun i => rfl

section Sign
variable {r : Nat} [Fact r.Prime] {G1 G2 GT : Type} [AddCommGroup G2] [Module (ZMod r) G2]
  {mcl : Bls.Mcl G1 G2 GT} {sk : Fin n → ZMod r} {msg : String}
  {c : Fin n → OnlineOp.Complex (ZMod p) × OnlineOp.Complex (ZMod p)}

omit limits in
theorem inputSignature_localizes (c : Fin n → OnlineOp.Complex (ZMod p) × OnlineOp.Complex (ZMod p))
    (k : Fin n) :
    Localizes O W (AffineIn W) ownAffine
      (do
        let x ← OnlineOp.Complex.getInputs k fun player => if player = k then (c k).1 else ⟨0, 0⟩
        let y ← OnlineOp.Complex.getInputs k fun player => if player = k then (c k).2 else ⟨0, 0⟩
        return ⟨x, y⟩ : Online alphai (Affine (OnlineOp.Complex (Shared n (ZMod p)))))
      fun i => (do
        let si := if i = k then c i else (⟨0, 0⟩, ⟨0, 0⟩)
        let x ← Complex.getInputs (seat O T alphai i) k si.1
        let y ← Complex.getInputs (seat O T alphai i) k si.2
        return ⟨x, y⟩ : Local n (ZMod p) (Affine (OnlineOp.Complex (Share (ZMod p))))) := by
  have both (i : Fin n) : (if i = k then c i else (⟨0, 0⟩, ⟨0, 0⟩)) =
      (if i = k then (c k).1 else ⟨0, 0⟩, if i = k then (c k).2 else ⟨0, 0⟩) := by
    by_cases same : i = k
    · rw [if_pos same, if_pos same, if_pos same, same]
    · rw [if_neg same, if_neg same, if_neg same]
  simp only [both]
  exact (complexGetInputs_localizes covers k _).bind fun x hx =>
    (complexGetInputs_localizes covers k _).bind fun y hy => .ret ⟨hx, hy⟩

theorem dstbSign_localizes (pair : 2 ≤ m)
    (signed : ∀ j : Fin n, Bls.scaledSignature mcl n j (sk j) msg = .ok (c j)) :
    Localizes O W (AffineIn W) ownAffine (Bls.dstbSign mcl sk msg : Online alphai _) fun i =>
      dstbSign (seat O T alphai i) mcl (sk i) msg := by
  have collected : ((List.finRange n).mapM fun j : Fin n =>
      (Bls.ofExcept (Bls.scaledSignature mcl n j (sk j) msg) : Online alphai _)) =
        .ret ((List.finRange n).map c) := by
    simp only [signed, Bls.ofExcept]
    exact List.mapM_pure
  rw [Bls.dstbSign, collected, Program.ret_bind]
  refine Localizes.congr ?_ fun i => (by rw [dstbSign, signed])
  let joint (k : Fin n) : Online alphai (Affine (OnlineOp.Complex (Shared n (ZMod p)))) := do
    let si ← Online.index ((List.finRange n).map c) k
    let x ← OnlineOp.Complex.getInputs k fun player => if player = k then si.1 else ⟨0, 0⟩
    let y ← OnlineOp.Complex.getInputs k fun player => if player = k then si.2 else ⟨0, 0⟩
    return ⟨x, y⟩
  let step (i k : Fin n) : Local n (ZMod p) (Affine (OnlineOp.Complex (Share (ZMod p)))) := do
    let si := if i = k then c i else (⟨0, 0⟩, ⟨0, 0⟩)
    let x ← Complex.getInputs (seat O T alphai i) k si.1
    let y ← Complex.getInputs (seat O T alphai i) k si.2
    return ⟨x, y⟩
  have each (k : Fin n) : Localizes O W (AffineIn W) ownAffine (joint k) fun i => step i k := by
    unfold joint
    rw [Online.index_of_lt (by simp), Program.ret_bind, List.getElem_map, List.getElem_finRange]
    exact inputSignature_localizes covers c k
  have inputs := Localizes.mapMClear (g := step) fun k (_ : k ∈ List.finRange n) => each k
  let add (ac : List (Affine (OnlineOp.Complex (Shared n (ZMod p))))) (l : Nat)
      (out : Affine (OnlineOp.Complex (Shared n (ZMod p)))) : Online alphai _ := do
    let aci ← Online.index ac l
    (GroupOp.G2Op alphai).addAffInplace out aci
  let add' (i : Fin n) (ac : List (Affine (OnlineOp.Complex (Share (ZMod p))))) (l : Nat)
      (out : Affine (OnlineOp.Complex (Share (ZMod p)))) : Local n (ZMod p) _ := do
    let aci ← Local.index ac l
    addAffInplace (seat O T alphai i) out aci
  refine inputs.bind
    (f := fun ac => Online.index ac 0 >>= fun out => Program.forRange (add ac) 1 (n - 1) out)
    (g := fun i ac => Local.index ac 0 >>= fun out => Local.forRange (add' i ac) 1 (n - 1) out)
    fun ac ⟨_, hac⟩ => (Localizes.index hac 0).bind fun out hout => ?_
  refine .forRange (fun _ => AffineIn W) hout fun l out _ _ hout => ?_
  exact (Localizes.index hac l).bind fun aci haci =>
    addAff_localizes limits pair covers hout haci

theorem runPhaseOne_localizes (everyone : n ≤ m) (room : 2 * PSIZE ≤ m) (fuel : Nat) (rnd : Fin n → Octets)
    (signed : ∀ j : Fin n, Bls.scaledSignature mcl n j (sk j) msg = .ok (c j)) :
    Localizes O W (fun _ => True) (fun i r => (r.1, r.2 i))
      (Poc.runPhaseOne mcl fuel sk msg rnd : Online alphai _) fun i =>
        runPhaseOne (seat O T alphai i) mcl fuel (sk i) msg (rnd i) :=
  (dstbSign_localizes limits covers (pair_of_room room) signed).bind fun _ hac =>
    transportPhaseOne_localizes limits covers everyone room fuel rnd hac.x.real hac.x.imag

end Sign

end Bit

end ProofOfCustody.Poc.Local
