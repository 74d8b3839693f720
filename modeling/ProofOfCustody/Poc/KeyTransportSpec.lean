import Mathlib
import ProofOfCustody.Poc.KeyTransport
import ProofOfCustody.Spdz.Plain

/-!
# The key arrives
-/

namespace ProofOfCustody.Poc
open Effect Spdz Shared OnlineOp Binary

variable {n : Nat}

def pad (rnd : Octets) : List Bool :=
  List.ofFn fun i : Fin (2 * PSIZE) => (rnd ⟨i / 8, octet_lt i⟩).toNat.testBit (i.val % 8)

@[simp] theorem length_pad (rnd : Octets) : (pad rnd).length = 2 * PSIZE := List.length_ofFn

theorem shift_eq_bit (x k : Nat) : (((x >>> k) % 2 : Nat) : Int) = bit (x.testBit k) := by
  rw [Nat.testBit_eq_decide_div_mod_eq, Nat.shiftRight_eq_div_pow]
  rcases Nat.mod_two_eq_zero_or_one (x / 2 ^ k) with h | h <;> rw [h] <;> rfl

theorem localBits_eq (rnd : Octets) : localBits rnd = (pad rnd).map bit := by
  refine List.ext_getElem (by simp [localBits]) fun i _ _ => ?_
  simp only [localBits, pad, List.getElem_ofFn, List.getElem_map, shift_eq_bit]

def xorAll (words : Fin n → List Bool) : List Bool :=
  (List.range (2 * PSIZE)).map fun j => parity ((List.finRange n).map fun i => (words i).getD j false)

@[simp] theorem length_xorAll (words : Fin n → List Bool) : (xorAll words).length = 2 * PSIZE := by
  simp [xorAll]

theorem encodes_of_forall₂ {F β : Type} [Field F] {f : β → Bool} {xs : List β}
    {ss : List (Shared n F)} (h : List.Forall₂ (fun x s => val s = bit (f x)) xs ss) :
    Encodes ss (xs.map f) := by
  induction h with
  | nil => exact .nil
  | cons head _ ih => exact ih.cons head

theorem eq_map_of_forall₂ {α β : Type} {f : α → β} {xs : List α} {ys : List β}
    (h : List.Forall₂ (fun x y => y = f x) xs ys) : ys = xs.map f := by
  induction h with
  | nil => rfl
  | cons head _ ih => rw [head, ih, List.map_cons]

section Values
variable [NeZero n] {F : Type} [Field F] {alphai : Fin n → F} {A : Draw (spdz alphai) → Prop}
  {E : Err → Prop}

theorem sharedRandBits_spec (players : n < 2 ^ 31) {words : Fin n → List Bool}
    {local_bits : Fin n → List Int}
    (same : ∀ i, local_bits i = (words i).map bit) (length : ∀ i, (words i).length = 2 * PSIZE) :
    Program.Meets A (fun shared_bits => Encodes shared_bits (xorAll words)) E
      (sharedRandBits local_bits : Online alphai _) := by
  refine (Program.Meets.mapM (R := fun j s => val s =
    bit (parity ((List.finRange n).map fun i => (words i).getD j false))) _ fun j hj => ?_).imp
      fun _ => encodes_of_forall₂
  have bound (i : Fin n) : j < (local_bits i).length := by
    rw [same, List.length_map, length]
    exact List.mem_range.1 hj
  refine (Program.Meets.mapM (R := fun i s => val s = bit ((words i).getD j false)) _
    fun i _ => ?_).bind fun sbit hs => ?_
  · rw [if_pos bound]
    refine (getInputs_spec i _).imp fun s hs => hs.trans ?_
    rw [same, ← bit_false, List.getD_map]
    cases (words i).getD j false <;> simp
  · exact KXOR_spec (encodes_of_forall₂ hs) (by simp) (NeZero.pos n) (by omega)

theorem xorAndCombine_spec {shared_bits : List (Shared n F)} {w r : List Bool}
    (shared : Encodes shared_bits w) (lw : w.length = 3 * QSIZE) (lr : r.length = 3 * QSIZE) :
    Program.Meets A (fun keys => keys.map val = (List.range 3).map fun i =>
        (toNat (((List.zipWith xor w r).drop (i * QSIZE)).take QSIZE) : F)) E
      (xorAndCombine shared_bits (r.map bit) : Online alphai _) := by
  rw [xorAndCombine, if_neg (by simp [shared.length_eq, lw, lr])]
  have encodes : Encodes (List.zipWith (fun s r => XORPlain alphai s ((r : Int) : F)) shared_bits
      (r.map bit)) (List.zipWith xor w r) := by
    refine .of_getElem (by simp [shared.length_eq]) fun i hi _ => ?_
    simp only [List.length_zipWith, lt_inf_iff] at hi
    have cast (b : Bool) : ((bit b : Int) : F) = bit b := by cases b <;> simp
    rw [List.getElem_zipWith, List.getElem_zipWith, List.getElem_map, cast]
    exact XORPlain_val (shared.getElem hi.1)
  refine (Program.Meets.mapM (R := fun i s => val s =
    (toNat (((List.zipWith xor w r).drop (i * QSIZE)).take QSIZE) : F)) _ fun i hi => ?_).imp
      fun keys hkeys => ?_
  · have length : (((List.zipWith xor w r).drop (i * QSIZE)).take QSIZE).length = QSIZE := by
      have := List.mem_range.1 hi
      rw [List.length_take, List.length_drop, List.length_zipWith, lw, lr, QSIZE_eq]
      omega
    have slice := (encodes.drop (i * QSIZE)).take QSIZE
    dsimp only
    rw [B2A_eq (slice.length_eq.trans length) QSIZE_pos QSIZE_le]
    exact recompose_val slice length QSIZE_pos
  · exact eq_map_of_forall₂ (List.forall₂_map_right_iff.2 hkeys)

end Values

section Modulus
variable {p : Nat} {alphai : Fin n → ZMod p}

def keyWord (x0 x1 : ZMod p) : List Bool := ofNat PSIZE x0.val ++ ofNat PSIZE x1.val

@[simp] theorem length_keyWord (x0 x1 : ZMod p) : (keyWord x0 x1).length = 2 * PSIZE := by
  simp [keyWord, two_mul]

variable [Fact p.Prime] {A : Draw (spdz alphai) → Prop} {E : Err → Prop}

theorem val_of_bit (b : Bool) : (((bit b : ZMod p)).val : Int) = bit b := by
  have := (Fact.out : p.Prime).one_lt
  cases b
  · simp
  · simp [ZMod.val_one'' (show p ≠ 1 by omega)]

theorem readBits_spec {xs : List Bool} {m : Nat} (length : xs.length = m) :
    Program.Meets A (fun bits => bits = xs.map bit) E
      ((List.range m).mapM fun i => do
        let o ← Online.index (xs.map (bit (R := ZMod p))) i
        return (o.val : Int) : Online alphai (List Int)) := by
  refine (Program.Meets.mapM (R := fun i b => b = bit (xs.getD i false)) _ fun i hi => ?_).imp
    fun bits h => ?_
  · have bound := List.mem_range.1 hi
    rw [Online.index_of_lt (by simp; omega), List.getElem_map,
      ← List.getD_eq_getElem _ false (by omega)]
    exact val_of_bit _
  · rw [eq_map_of_forall₂ h, map_eq_map_range _ length]

variable [NeZero n]

theorem xorBits_spec {deco_bits shared_bits : List (Shared n (ZMod p))} {k w : List Bool} {m : Nat}
    (deco : Encodes deco_bits k) (shared : Encodes shared_bits w) (lk : k.length = m)
    (lw : w.length = m) :
    Program.Meets A (fun xored => Encodes xored (List.zipWith xor k w)) E
      ((List.range m).mapM fun i => do
        let d ← Online.index deco_bits i
        let s ← Online.index shared_bits i
        XORInplace d s : Online alphai (List (Shared n (ZMod p)))) := by
  have ld := deco.length_eq
  have ls := shared.length_eq
  rw [zipWith_eq_map_range xor lk lw]
  refine (Program.Meets.mapM (R := fun i s => val s = bit (xor (k.getD i false) (w.getD i false))) _
    fun i hi => ?_).imp fun _ => encodes_of_forall₂
  have bound := List.mem_range.1 hi
  rw [Online.index_of_lt (by omega), Online.index_of_lt (by omega)]
  simp only [Program.ret_bind]
  refine XOR_spec ?_ ?_
  · rw [← deco.getD, List.getD_eq_getElem]
  · rw [← shared.getD, List.getD_eq_getElem]

def revealXored (deco_bits shared_bits : List (Shared n (ZMod p))) : Online alphai (List Int) := do
  let xored ← (List.range shared_bits.length).mapM fun i => do
    let d ← Online.index deco_bits i
    let s ← Online.index shared_bits i
    XORInplace d s
  let deco_bits := xored ++ deco_bits.drop shared_bits.length
  let out ← Online.reveal .bits deco_bits
  (List.range (2 * PSIZE)).mapM fun i => do
    let o ← Online.index out i
    return (o.val : Int)

theorem revealXored_spec {deco_bits shared_bits : List (Shared n (ZMod p))} {k w : List Bool}
    (deco : Encodes deco_bits k) (shared : Encodes shared_bits w) (lk : k.length = 2 * PSIZE)
    (lw : w.length = 2 * PSIZE) :
    Program.Meets A (fun reveal_bits => reveal_bits = (List.zipWith xor k w).map bit) E
      (revealXored deco_bits shared_bits : Online alphai _) := by
  have ld := deco.length_eq.trans lk
  rw [revealXored, shared.length_eq.trans lw]
  refine (xorBits_spec deco shared lk lw).bind fun xored masked => ?_
  rw [List.drop_eq_nil_of_le (by omega), List.append_nil]
  simp only [Online.meets_reveal]
  rw [masked]
  exact readBits_spec (by simp [lk, lw])

theorem decomposeAndReveal_spec (small : p < 2 ^ PSIZE) (fuel : Nat) (x0 x1 : Shared n (ZMod p))
    {shared_bits : List (Shared n (ZMod p))} {w : List Bool} (shared : Encodes shared_bits w)
    (lw : w.length = 2 * PSIZE) :
    Program.Meets A
      (fun reveal_bits => reveal_bits = (List.zipWith xor (keyWord (val x0) (val x1)) w).map bit)
      (· = .outOfFuel) (decomposeAndReveal fuel [x0, x1] shared_bits : Online alphai _) := by
  rw [decomposeAndReveal, if_neg (by simp [shared.length_eq.trans lw])]
  refine (A2B_spec small fuel x0).bind fun b0 h0 => ?_
  refine (A2B_spec small fuel x1).bind fun b1 h1 => ?_
  exact revealXored_spec (h0.append h1) shared (length_keyWord _ _) lw

theorem transportPhaseOne_spec (players : n < 2 ^ 31) (small : p < 2 ^ PSIZE) (fuel : Nat)
    (rnd : Fin n → Octets)
    (x0 x1 : Shared n (ZMod p)) :
    Program.Meets A
      (fun r => r.1 = (List.zipWith xor (keyWord (val x0) (val x1))
        (xorAll fun i => pad (rnd i))).map bit ∧ r.2 = fun i => localBits (rnd i))
      (· = .outOfFuel) (transportPhaseOne fuel rnd x0 x1 : Online alphai _) := by
  refine Program.Meets.bind (P := fun r => Encodes r.1 (xorAll fun i => pad (rnd i)) ∧
    r.2 = fun i => localBits (rnd i)) ?_ ?_
  · refine (sharedRandBits_spec players (fun i => localBits_eq (rnd i)) fun i => length_pad (rnd i)).bind
      fun shared_bits shared => ⟨shared, rfl⟩
  · rintro ⟨shared_bits, local_bits⟩ ⟨shared, rfl⟩
    refine (decomposeAndReveal_spec small fuel x0 x1 shared (length_xorAll _)).bind fun r hr => ?_
    exact ⟨hr, rfl⟩

end Modulus

theorem three_QSIZE : 3 * QSIZE = 2 * PSIZE := by
  rw [QSIZE_eq, PSIZE_eq]

def keyNumber {p : Nat} (x0 x1 : ZMod p) : Nat := x0.val + 2 ^ PSIZE * x1.val

def digit (X i : Nat) : Nat := X / 2 ^ (QSIZE * i) % 2 ^ QSIZE

theorem toNat_keyWord {p : Nat} [NeZero p] (small : p < 2 ^ PSIZE) (x0 x1 : ZMod p) :
    toNat (keyWord x0 x1) = keyNumber x0 x1 := by
  rw [keyWord, toNat_append, length_ofNat, toNat_ofNat_of_lt ((ZMod.val_lt _).trans small),
    toNat_ofNat_of_lt ((ZMod.val_lt _).trans small), keyNumber]

theorem toNat_slice {w : List Bool} (length : w.length = 3 * QSIZE) {i : Nat} (bound : i < 3) :
    toNat ((w.drop (i * QSIZE)).take QSIZE) = digit (toNat w) i := by
  have upper : i * QSIZE + QSIZE ≤ 3 * QSIZE := by
    rw [← Nat.succ_mul]
    exact Nat.mul_le_mul_right _ bound
  rw [toNat_take _ (by rw [List.length_drop]; omega), toNat_drop _ (by omega), digit, Nat.mul_comm]

theorem transportPhaseTwo_spec [NeZero n] (players : n < 2 ^ 31) {F : Type} [Field F]
    {alphai : Fin n → F}
    {A : Draw (spdz alphai) → Prop} {E : Err → Prop} {words : Fin n → List Bool}
    {local_bits : Fin n → List Int} (same : ∀ i, local_bits i = (words i).map bit)
    (length : ∀ i, (words i).length = 2 * PSIZE) {k : List Bool} (lk : k.length = 2 * PSIZE) :
    Program.Meets A (fun keys => keys.map val =
        (List.range 3).map fun i => (digit (toNat k) i : F)) E
      (transportPhaseTwo local_bits ((List.zipWith xor k (xorAll words)).map bit) :
        Online alphai _) := by
  have lr : (List.zipWith xor k (xorAll words)).length = 3 * QSIZE := by
    rw [List.length_zipWith, lk, length_xorAll, min_self, three_QSIZE]
  refine (sharedRandBits_spec players same length).bind fun shared_bits shared => ?_
  refine (xorAndCombine_spec shared ((length_xorAll _).trans three_QSIZE.symm) lr).imp
    fun keys hkeys => hkeys.trans (List.map_congr_left fun i hi => ?_)
  rw [zipWith_xor_cancel (lk.trans (length_xorAll words).symm),
    toNat_slice (lk.trans three_QSIZE.symm) (List.mem_range.1 hi)]

end ProofOfCustody.Poc
