import Mathlib
import ProofOfCustody.OnlineOp.ConvertSpec

/-!
# What the bit operations of `OnlineOp` open

On vectors of the same sizes every bit operation is coupled with itself, whatever bits the vectors
hold. A block of random bits is rotated within the accepted words, which hides the masked value.
-/

namespace ProofOfCustody.OnlineOp
open Effect Spdz Shared Binary

variable {n : Nat} {F : Type} [Field F] {alphai : Fin n → F}

section Oblivious
variable [NeZero n] {sim : Similarity (spdz alphai)}

theorem XOR_coupled (free : ∀ t t' : Triple alphai, sim Site.triple t t') (a b a' b' : Shared n F) :
    Coupled sim (fun _ _ => True) (XOR a b : Online alphai _) (XOR a' b') :=
  (mul_coupled free a b a' b').bind fun _ _ _ => .ret trivial

theorem AND_coupled (free : ∀ t t' : Triple alphai, sim Site.triple t t') (a b a' b' : Shared n F) :
    Coupled sim (fun _ _ => True) (AND a b : Online alphai _) (AND a' b') :=
  (mul_coupled free a b a' b').imp fun _ _ _ => trivial

theorem mulVec_sized (free : ∀ t t' : Triple alphai, sim Site.triple t t')
    {a b a' b' : List (Shared n F)} {k : Nat} (la : a.length = k) (lb : b.length = k)
    (la' : a'.length = k) (lb' : b'.length = k) (short : k ≤ 2 ^ 31) :
    Coupled sim (Sized k) (mulVec [] a b : Online alphai _) (mulVec [] a' b') := by
  refine (mulVec_coupled free [] (la.trans lb.symm) (la'.trans lb'.symm) (la.trans la'.symm)
    (la.trans_le short)).imp ?_
  rintro c c' ⟨hc, hc'⟩
  have length := congrArg List.length hc
  have length' := congrArg List.length hc'
  simp only [List.length_map, List.length_zipWith, la, lb, la', lb', min_self] at length length'
  exact ⟨length, length'⟩

theorem XORVec_coupled (free : ∀ t t' : Triple alphai, sim Site.triple t t')
    {a b a' b' : List (Shared n F)} {k : Nat} (la : a.length = k) (lb : b.length = k)
    (la' : a'.length = k) (lb' : b'.length = k) (short : k ≤ 2 ^ 31) :
    Coupled sim (Sized k) (XORVec a b k : Online alphai _) (XORVec a' b' k) := by
  rw [XORVec, XORVec, if_neg (by simp [la, lb]), if_neg (by simp [la', lb'])]
  simp only [addVec, zipVec_eq (la.trans lb.symm), zipVec_eq (la'.trans lb'.symm), Program.ret_bind]
  refine (mulVec_sized free la lb la' lb' short).bind fun c c' sized => .ret ?_
  simp [Sized, subInplaceVec, zipVecInplace, resize, sized.1, sized.2, la, lb, la', lb']

theorem XORInplaceVec_coupled (free : ∀ t t' : Triple alphai, sim Site.triple t t')
    {a b a' b' : List (Shared n F)} {k : Nat} (la : a.length = k) (lb : b.length = k)
    (la' : a'.length = k) (lb' : b'.length = k) (short : k ≤ 2 ^ 31) :
    Coupled sim (Sized k) (XORInplaceVec a b k : Online alphai _) (XORInplaceVec a' b' k) := by
  rw [XORInplaceVec, XORInplaceVec, resize_length la, resize_length la']
  exact XORVec_coupled free la lb la' lb' short

theorem ORVec_coupled (free : ∀ t t' : Triple alphai, sim Site.triple t t')
    {a b a' b' : List (Shared n F)} {k : Nat} (la : a.length = k) (lb : b.length = k)
    (la' : a'.length = k) (lb' : b'.length = k) (short : k ≤ 2 ^ 31) :
    Coupled sim (Sized k) (ORVec a b k : Online alphai _) (ORVec a' b' k) := by
  rw [ORVec, ORVec, if_neg (by simp [la, lb]), if_neg (by simp [la', lb'])]
  simp only [addVec, zipVec_eq (la.trans lb.symm), zipVec_eq (la'.trans lb'.symm), Program.ret_bind]
  refine (mulVec_sized free la lb la' lb' short).bind fun c c' sized => .ret ?_
  simp [Sized, subInplaceVec, zipVecInplace, resize, sized.1, sized.2, la, lb, la', lb']

theorem KXOR_coupled (free : ∀ t t' : Triple alphai, sim Site.triple t t')
    {a a' : List (Shared n F)} {k : Nat} (la : a.length = k) (la' : a'.length = k) :
    Coupled sim (fun _ _ => True) (KXOR a k : Online alphai _) (KXOR a' k) := by
  induction k using Nat.strong_induction_on generalizing a a' with
  | h k ih =>
      rw [KXOR.eq_def a, KXOR.eq_def a', if_neg (show ¬a.length ≠ k by simp [la]),
        if_neg (show ¬a'.length ≠ k by simp [la'])]
      by_cases zero : k = 0
      · rw [if_pos zero, if_pos zero]
        exact .throw _
      rw [if_neg zero, if_neg zero]
      by_cases one : k = 1
      · rw [if_pos one, if_pos one]
        exact .ret trivial
      rw [if_neg one, if_neg one]
      have halves {next next' : List (Shared n F) → Online alphai (Shared n F)} (m : Nat)
          (inside : 2 * m ≤ k) (step : ∀ c c' : List (Shared n F), c.length = m → c'.length = m →
            Coupled sim (fun _ _ => True) (next c) (next' c')) :
          Coupled sim (fun _ _ => True)
            (Online.defined (splitPairs a m) >>= fun half => XORInplaceVec half.1 half.2 m >>= next)
            (Online.defined (splitPairs a' m) >>= fun half =>
              XORInplaceVec half.1 half.2 m >>= next') := by
        by_cases small : m ≤ 2 ^ 30
        · rw [splitPairs_eq small (by omega) 0, splitPairs_eq small (by omega) 0]
          simp only [Online.defined_some, Program.ret_bind]
          exact (XORInplaceVec_coupled free (by simp) (by simp) (by simp) (by simp) (by omega)).bind
            fun c c' sized => step c c' sized.1 sized.2
        · rw [splitPairs_none (by omega), splitPairs_none (by omega)]
          exact .throw _
      by_cases even : k % 2 = 0
      · rw [if_pos even, if_pos even]
        exact halves (k / 2) (by omega) fun c c' lc lc' => ih (k / 2) (by omega) lc lc'
      · rw [if_neg even, if_neg even, show (k - 1) / 2 = k / 2 by omega]
        exact halves (k / 2) (by omega) fun c c' lc lc' =>
          ih ((k + 1) / 2) (by omega) (by simp [lc]; omega) (by simp [lc']; omega)

theorem prefixOR_coupled (free : ∀ t t' : Triple alphai, sim Site.triple t t')
    {a a' : List (Shared n F)} {k : Nat} (la : a.length = k) (la' : a'.length = k)
    (unsigned : k < 2 ^ 32) :
    Coupled sim (Sized k) (prefixOR a k : Online alphai _) (prefixOR a' k) := by
  induction k using Nat.strong_induction_on generalizing a a' with
  | h k ih =>
      rw [prefixOR.eq_def a, prefixOR.eq_def a', if_neg (show ¬a.length ≠ k by simp [la]),
        if_neg (show ¬a'.length ≠ k by simp [la'])]
      by_cases zero : k = 0
      · rw [if_pos zero, if_pos zero]
        exact .throw _
      rw [if_neg zero, if_neg zero]
      by_cases one : k = 1
      · rw [if_pos one, if_pos one]
        exact .ret (by simp [Sized, one])
      rw [if_neg one, if_neg one]
      refine (ih (k / 2) (by omega) (by simp [la]; omega) (by simp [la']; omega) (by omega)).bind ?_
      rintro c0 c0' ⟨l0, l0'⟩
      refine (ih (k - k / 2) (by omega) (by simp [la]) (by simp [la']) (by omega)).bind ?_
      rintro c1 c1' ⟨l1, l1'⟩
      refine (ORVec_coupled free (by simp) l1 (by simp) l1' (by omega)).bind ?_
      rintro tmp tmp' ⟨lt, lt'⟩
      exact .ret (by simp [Sized, l0, l0', lt, lt']; omega)

theorem ltPlain_coupled (free : ∀ t t' : Triple alphai, sim Site.triple t t')
    {a a' : List (Shared n F)} {xs xs' ys : List Bool} {k : Nat} (ha : Encodes a xs)
    (ha' : Encodes a' xs') (la : xs.length = k) (la' : xs'.length = k) (lb : ys.length = k)
    (positive : 0 < k) (short : k ≤ 2 ^ 31) :
    Coupled sim (fun c c' => val c = bit (decide (toNat xs < toNat ys)) ∧
        val c' = bit (decide (toNat xs' < toNat ys)))
      (ltPlain a (ys.map bit) k : Online alphai _) (ltPlain a' (ys.map bit) k) := by
  have plain {a : List (Shared n F)} {b : List F} (la : a.length = k) (lb : b.length = k) :
      ∃ c : List (Shared n F), c.length = k ∧ (XORPlainVec a b k : Online alphai _) = .ret c := by
    rw [XORPlainVec, if_neg (by simp [la, lb])]
    simp only [addPlainVec, mulPlainVec, zipVec_eq (la.trans lb.symm), Program.ret_bind]
    exact ⟨_, by simp [subInplaceVec, zipVecInplace, resize, la, lb], rfl⟩
  have shape : Coupled sim (fun _ _ => True) (ltPlain a (ys.map bit) k : Online alphai _)
      (ltPlain a' (ys.map bit) k) := by
    have lb' : (ys.map (bit (R := F))).length = k := by rw [List.length_map, lb]
    obtain ⟨c, lc, hc⟩ := plain (ha.length_eq.trans la) lb'
    obtain ⟨c', lc', hc'⟩ := plain (ha'.length_eq.trans la') lb'
    rw [ltPlain, ltPlain, hc, hc']
    simp only [Program.ret_bind]
    refine (prefixOR_coupled free (by simpa using lc) (by simpa using lc') (by omega)).bind ?_
    rintro d d' ⟨ld, ld'⟩
    have added {d : List (Shared n F)} (ld : d.length = k) : ∃ c : Shared n F,
        (do
          let e ← Online.defined (differences sub d.reverse k)
          let tmp ← mulPlainVec e (ys.map bit)
          Online.defined (sumEntries addInplace tmp k) : Online alphai _) = .ret c := by
      rw [differences_topDifference (by simpa using ld) positive short, Online.defined_some,
        Program.ret_bind, mulPlainVec, zipVec_eq ((length_topDifference _ positive).trans lb'.symm),
        Program.ret_bind, sumEntries_sum (by simp [length_topDifference _ positive, lb]) positive short]
      exact ⟨_, rfl⟩
    obtain ⟨c, hc⟩ := added ld
    obtain ⟨c', hc'⟩ := added ld'
    rw [hc, hc']
    exact .ret trivial
  exact (shape.and_meets (E := fun _ => False) (ltPlain_spec ha la lb positive short)
    (ltPlain_spec ha' la' lb positive short)).imp fun _ _ h => h.2

theorem carrySum_coupled (free : ∀ t t' : Triple alphai, sim Site.triple t t')
    (x y ca x' y' ca' : Shared n F) :
    Coupled sim (fun _ _ => True) (carrySum x y ca : Online alphai _) (carrySum x' y' ca') := by
  refine (XOR_coupled free x y x' y').bind fun s s' _ => ?_
  refine (XOR_coupled free s ca s' ca').bind fun _ _ _ => ?_
  refine (XOR_coupled free x ca x' ca').bind fun tmp tmp' _ => ?_
  refine (XOR_coupled free y ca y' ca').bind fun out out' _ => ?_
  refine (AND_coupled free out tmp out' tmp').bind fun out out' _ => ?_
  exact (XOR_coupled free out ca out' ca').bind fun _ _ _ => .ret trivial

theorem addBit_coupled (free : ∀ t t' : Triple alphai, sim Site.triple t t')
    {a b a' b' : List (Shared n F)} {k : Nat} (la : a.length = k) (lb : b.length = k)
    (la' : a'.length = k) (lb' : b'.length = k) (positive : 0 < k) :
    Coupled sim (fun _ _ => True) (addBit [] a b : Online alphai _) (addBit [] a' b') := by
  rw [addBit, addBit, if_neg (by simp [la, lb]), if_neg (by simp [la', lb']),
    Online.index_of_lt (i := 0) (by omega), Online.index_of_lt (i := 0) (by omega),
    Online.index_of_lt (i := 0) (by omega), Online.index_of_lt (i := 0) (by omega)]
  simp only [Program.ret_bind]
  refine (AND_coupled free _ _ _ _).bind fun ca ca' _ => ?_
  refine (XOR_coupled free _ _ _ _).bind fun c c' _ => ?_
  rw [la, la']
  refine (Coupled.forRange (fun _ _ _ => True) 1 (intRounds k - 1) _ _ trivial ?_).bind fun _ _ _ =>
    .ret trivial
  intro i s s' lower upper _
  have : intRounds k ≤ k := min_le_left _ _
  rw [Online.index_of_lt (i := i) (by omega), Online.index_of_lt (i := i) (by omega),
    Online.index_of_lt (i := i) (by omega), Online.index_of_lt (i := i) (by omega)]
  simp only [Program.ret_bind]
  exact (carrySum_coupled free _ _ _ _ _ _).bind fun _ _ _ => .ret trivial

end Oblivious

section Modulus
variable {p : Nat} [Fact p.Prime] {alphai : Fin n → ZMod p} {k : Nat}

def word (v : Fin k → RandomBit alphai) : List Bool := List.ofFn fun i => truth (v i)

@[simp] theorem length_word (v : Fin k → RandomBit alphai) : (word v).length = k :=
  List.length_ofFn

theorem getElem_word (v : Fin k → RandomBit alphai) (i : Nat) (h : i < (word v).length) :
    (word v)[i] = truth (v ⟨i, by simpa using h⟩) :=
  List.getElem_ofFn h

def rotate (δ : ZMod p) (w : List Bool) : List Bool :=
  if toNat w < p then ofNat w.length ((toNat w : ZMod p) + δ).val else w

@[simp] theorem length_rotate (δ : ZMod p) (w : List Bool) : (rotate δ w).length = w.length := by
  rw [rotate]
  split <;> simp

theorem toNat_rotate {δ : ZMod p} {w : List Bool} (small : p < 2 ^ w.length)
    (accepted : toNat w < p) : toNat (rotate δ w) = ((toNat w : ZMod p) + δ).val := by
  rw [rotate, if_pos accepted, toNat_ofNat_of_lt ((ZMod.val_lt _).trans small)]

theorem rotate_accepted {δ : ZMod p} {w : List Bool} (small : p < 2 ^ w.length) :
    toNat (rotate δ w) < p ↔ toNat w < p := by
  by_cases accepted : toNat w < p
  · simp only [toNat_rotate small accepted, ZMod.val_lt, accepted]
  · rw [rotate, if_neg accepted]

theorem rotate_neg_rotate {δ : ZMod p} {w : List Bool} (small : p < 2 ^ w.length) :
    rotate (-δ) (rotate δ w) = w := by
  by_cases accepted : toNat w < p
  · refine toNat_injective (by simp) ?_
    rw [toNat_rotate (by simpa using small) ((rotate_accepted small).2 accepted),
      toNat_rotate small accepted, ZMod.natCast_zmod_val, add_neg_cancel_right,
      ZMod.val_natCast_of_lt accepted]
  · have : rotate δ w = w := by rw [rotate, if_neg accepted]
    rw [this, rotate, if_neg accepted]

variable [NeZero n]

theorem truth_flip (t : RandomBit alphai) : truth t.flip = !truth t := by
  rcases t.is_bit with h | h <;> simp [truth, h]

def steer (w : List Bool) (v : Fin k → RandomBit alphai) : Fin k → RandomBit alphai :=
  fun i => if truth (v i) = w.getD i false then v i else (v i).flip

theorem word_steer {w : List Bool} (length : w.length = k) (v : Fin k → RandomBit alphai) :
    word (steer w v) = w := by
  refine List.ext_getElem (by simp [length]) fun i hi hi' => ?_
  rw [getElem_word, steer, List.getD_eq_getElem _ _ hi']
  split
  · assumption
  · rename_i differ
    rw [truth_flip]
    exact (Bool.not_eq_eq_eq_not.1 (Bool.eq_not_of_ne differ).symm).symm

theorem steer_steer (w : List Bool) (v : Fin k → RandomBit alphai) :
    steer (word v) (steer w v) = v := by
  funext i
  have entry : (word v).getD i false = truth (v i) := by
    rw [List.getD_eq_getElem _ _ (by simp), getElem_word]
  rw [steer, entry, steer]
  split
  · simp
  · simp [truth_flip]

def rotateEquiv (δ : ZMod p) (small : p < 2 ^ k) :
    (Fin k → RandomBit alphai) ≃ (Fin k → RandomBit alphai) where
  toFun v := steer (rotate δ (word v)) v
  invFun v := steer (rotate (-δ) (word v)) v
  left_inv v := by
    beta_reduce
    rw [word_steer (by simp), rotate_neg_rotate (by simpa using small), steer_steer]
  right_inv v := by
    have back : rotate (- -δ) (rotate (-δ) (word v)) = word v :=
      rotate_neg_rotate (by simpa using small)
    rw [neg_neg] at back
    beta_reduce
    rw [word_steer (by simp), back, steer_steer]

theorem word_rotateEquiv (δ : ZMod p) (small : p < 2 ^ k) (v : Fin k → RandomBit alphai) :
    word (rotateEquiv δ small v) = rotate δ (word v) :=
  word_steer (by simp) v

section Openings
variable {sim : Similarity (spdz alphai)}

theorem preRand_coupled (triples : ∀ t t' : Triple alphai, sim Site.triple t t')
    (bits : ∀ t t' : RandomBit alphai, sim Site.bit t t') (small : p < 2 ^ PSIZE) (δ : ZMod p)
    (fuel : Nat) :
    Coupled sim (fun r r' => val r'.1 = val r.1 + δ)
      (preRand fuel : Online alphai _) (preRand fuel) := by
  induction fuel with
  | zero => exact .throw _
  | succ fuel ih =>
      rw [preRand, drawBits_eq (List.range PSIZE) List.length_range, Program.drawAll_bind]
      refine .draws (S := spdz alphai) Site.bit PSIZE (rotateEquiv δ small) (fun v i => bits _ _)
        fun v => ?_
      have before : Encodes (List.ofFn fun i => (v i).bit) (word v) := block_encodes v
      have after : Encodes (List.ofFn fun i => (rotateEquiv δ small v i).bit) (rotate δ (word v)) := by
        rw [← word_rotateEquiv δ small]
        exact block_encodes _
      have flag := ltPlain_coupled triples before after (length_word v)
        ((length_rotate δ _).trans (length_word v)) (length_ofNat PSIZE p) PSIZE_pos PSIZE_le
      simp only [toNat_ofNat_of_lt small, rotate_accepted (show p < 2 ^ (word v).length by simpa)]
        at flag
      simp only [Program.ret_bind, decompose_eq PSIZE_pos PSIZE_le, Online.defined_some]
      refine flag.bind ?_
      rintro c c' ⟨hc, hc'⟩
      refine (Online.reveal_one_coupled .flag (hc.trans hc'.symm)).bind ?_
      rintro _ _ ⟨rfl, rfl⟩
      rw [Online.index_zero, Program.ret_bind, Program.ret_bind, hc]
      split
      · rename_i accepted
        have bound : toNat (word v) < p := by
          by_contra rejected
          simp [rejected] at accepted
        have length := (length_rotate δ (word v)).trans (length_word v)
        rw [B2A_eq (before.length_eq.trans (length_word v)) PSIZE_pos PSIZE_le,
          B2A_eq (after.length_eq.trans length) PSIZE_pos PSIZE_le]
        refine .ret ?_
        rw [recompose_val before (length_word v) PSIZE_pos, recompose_val after length PSIZE_pos,
          toNat_rotate (by simpa using small) bound, ZMod.natCast_zmod_val]
      · exact ih

theorem unmask_coupled (triples : ∀ t t' : Triple alphai, sim Site.triple t t')
    {a a' r r' : Shared n (ZMod p)} {bitr bitr' : List (Shared n (ZMod p))} {rs rs' : List Bool}
    (mask : Mask r bitr rs) (mask' : Mask r' bitr' rs') (same : val (a - r) = val (a' - r')) :
    Coupled sim (fun _ _ => True) (unmask a r bitr : Online alphai _) (unmask a' r' bitr') := by
  simp only [unmask, sub]
  refine (Online.reveal_one_coupled .difference same).bind ?_
  rintro _ _ ⟨rfl, rfl⟩
  simp only [Online.index_zero, Program.ret_bind]
  have hb := ZMod.val_lt (val (a - r))
  generalize (val (a - r)).val = b at hb
  split
  · exact .ret trivial
  · have bits (x : Int) : ∃ f, (decompose x PSIZE : Option (List (ZMod p))) = some f :=
      ⟨_, shiftBits_eq _ _ _ PSIZE_pos PSIZE_le⟩
    obtain ⟨f, hf⟩ := bits b
    obtain ⟨tf, htf⟩ := bits (((2 : Int) <<< PSIZE) + b - p)
    simp only [decompose_bound hb, hf, htf, Online.defined_some, Program.ret_bind]
    refine (ltPlain_coupled triples mask.bits mask'.bits mask.length mask'.length
      (length_ofNat PSIZE _) PSIZE_pos PSIZE_le).bind fun _ _ _ => ?_
    refine (addBit_coupled triples (by simp) (mask.bits.length_eq.trans mask.length) (by simp)
      (mask'.bits.length_eq.trans mask'.length) PSIZE_pos).bind fun _ _ _ => .ret trivial

theorem A2B_coupled (triples : ∀ t t' : Triple alphai, sim Site.triple t t')
    (bits : ∀ t t' : RandomBit alphai, sim Site.bit t t') (small : p < 2 ^ PSIZE)
    (fuel : Nat) (a a' : Shared n (ZMod p)) :
    Coupled sim (fun c c' => Encodes c (ofNat PSIZE (val a).val) ∧
        Encodes c' (ofNat PSIZE (val a').val))
      (A2B fuel a : Online alphai _) (A2B fuel a') := by
  refine (Coupled.and_meets (R := fun _ _ => True) ?shape (A2B_spec small fuel a)
    (A2B_spec small fuel a')).imp fun _ _ h => h.2
  refine ((preRand_coupled triples bits small (val a' - val a) fuel).and_meets
    (preRand_spec small fuel) (preRand_spec small fuel)).bind ?_
  rintro ⟨r, bitr⟩ ⟨r', bitr'⟩ ⟨gap, ⟨rs, mask⟩, ⟨rs', mask'⟩⟩
  refine unmask_coupled triples mask mask' ?_
  rw [map_sub, map_sub, gap]
  ring

end Openings
end Modulus

end ProofOfCustody.OnlineOp
