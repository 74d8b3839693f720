import Mathlib
import ProofOfCustody.Binary.Word
import ProofOfCustody.OnlineOp.ArithSpec
import ProofOfCustody.OnlineOp.Bits

/-!
# What the bit operations of `OnlineOp` compute

A vector of shared values encodes a word when its entries have the bits of the word as values.
-/

namespace ProofOfCustody.OnlineOp
open Effect Spdz Shared Binary

variable {n : Nat} {F : Type} [Field F] {alphai : Fin n → F} {α β : Type}

def Encodes (a : List (Shared n F)) (xs : List Bool) : Prop := a.map val = xs.map bit

namespace Encodes
variable {a b : List (Shared n F)} {xs ys : List Bool}

theorem length_eq (h : Encodes a xs) : a.length = xs.length := by
  simpa using congrArg List.length h

theorem nil : Encodes ([] : List (Shared n F)) [] := rfl

theorem cons {s : Shared n F} {x : Bool} (head : val s = bit x) (h : Encodes a xs) :
    Encodes (s :: a) (x :: xs) := by
  rw [Encodes, List.map_cons, List.map_cons, head, h]

theorem append (h : Encodes a xs) (h' : Encodes b ys) : Encodes (a ++ b) (xs ++ ys) := by
  rw [Encodes, List.map_append, List.map_append, h, h']

theorem push {s : Shared n F} {x : Bool} (h : Encodes a xs) (last : val s = bit x) :
    Encodes (a ++ [s]) (xs ++ [x]) :=
  h.append (cons last nil)

theorem getD (h : Encodes a xs) (i : Nat) : val (a.getD i 0) = bit (xs.getD i false) := by
  have := congrArg (fun l => l.getD i (0 : F)) h
  rw [← map_zero (val (n := n) (F := F)), List.getD_map] at this
  rw [this, map_zero, ← bit_false, List.getD_map]

theorem getElem {i : Nat} (h : Encodes a xs) (hi : i < a.length) :
    val a[i] = bit (xs.get ⟨i, h.length_eq ▸ hi⟩) := by
  have := h.getD i
  rwa [List.getD_eq_getElem _ _ hi, List.getD_eq_getElem _ _ (h.length_eq ▸ hi)] at this

theorem of_getElem (length : a.length = xs.length)
    (h : ∀ (i : Nat) (hi : i < a.length) (hi' : i < xs.length), val a[i] = bit xs[i]) :
    Encodes a xs :=
  List.ext_getElem (by simpa using length) fun i hi hi' => by
    simpa using h i (by simpa using hi) (by simpa using hi')

theorem reverse (h : Encodes a xs) : Encodes a.reverse xs.reverse := by
  rw [Encodes, List.map_reverse, List.map_reverse, h]

theorem take (h : Encodes a xs) (i : Nat) : Encodes (a.take i) (xs.take i) := by
  rw [Encodes, List.map_take, List.map_take, h]

theorem drop (h : Encodes a xs) (i : Nat) : Encodes (a.drop i) (xs.drop i) := by
  rw [Encodes, List.map_drop, List.map_drop, h]

theorem dropLast (h : Encodes a xs) : Encodes a.dropLast xs.dropLast := by
  rw [Encodes, List.map_dropLast, List.map_dropLast, h]

theorem replicate {s : Shared n F} {x : Bool} (h : val s = bit x) (k : Nat) :
    Encodes (List.replicate k s) (List.replicate k x) := by
  rw [Encodes, List.map_replicate, List.map_replicate, h]

theorem select (h : Encodes a xs) (f : Nat → Nat) (m : Nat) :
    Encodes ((List.range m).map fun i => a.getD (f i) 0)
      ((List.range m).map fun i => xs.getD (f i) false) := by
  rw [Encodes, List.map_map, List.map_map]
  exact List.map_congr_left fun i _ => h.getD (f i)

end Encodes

theorem resize_length [Zero α] {c : List α} {k : Nat} (h : c.length = k) : resize c k = c := by
  simp [resize, ← h]

theorem zipVec_eq {op : Shared n F → β → Shared n F} {a : List (Shared n F)} {b : List β}
    (same : a.length = b.length) :
    (zipVec op a b : Online alphai _) = .ret (List.zipWith op a b) := by
  rw [zipVec, if_neg (by omega)]
  rfl

theorem zipVecInplace_eq {op : Shared n F → β → Shared n F} {c : List (Shared n F)} {a : List β}
    (same : c.length = a.length) : zipVecInplace op c a = List.zipWith op c a := by
  rw [zipVecInplace, resize_length same]

theorem power_eq {a : F} {exp : Nat} (positive : 0 < exp) : power a exp = a ^ exp := by
  have fold (k : Nat) (b : F) : (List.range' 1 k).foldl (fun a' _ => a' * a) b = b * a ^ k := by
    rw [List.foldl_const, List.length_range']
    induction k generalizing b with
    | zero => simp
    | succ k ih => rw [Function.iterate_succ_apply, ih, pow_succ']; ring
  rw [power, if_neg (by omega), fold, ← pow_succ', Nat.sub_add_cancel positive]

theorem mulVec_products {a b tmp : List (Shared n F)} (same : a.length = b.length)
    (h : tmp.map val = List.zipWith (· * ·) (a.map val) (b.map val)) :
    tmp.length = a.length ∧ ∀ (i : Nat) (htmp : i < tmp.length) (ha : i < a.length)
      (hb : i < b.length), val tmp[i] = val a[i] * val b[i] := by
  refine ⟨by simpa [same] using congrArg List.length h, fun i htmp ha hb => ?_⟩
  have := List.getElem_of_eq h (i := i) (by simpa using htmp)
  simpa using this

section Gates
variable [NeZero n] {A : Draw (spdz alphai) → Prop} {E : Err → Prop}

theorem XOR_spec {a b : Shared n F} {x y : Bool} (ha : val a = bit x) (hb : val b = bit y) :
    Program.Meets A (fun c => val c = bit (xor x y)) E (XOR a b : Online alphai _) := by
  refine (mul_spec a b).bind fun tmp htmp => ?_
  simp only [Program.pure_eq, Program.meets_ret, add, subInplace, map_sub, map_add, htmp.1, ha, hb]
  cases x <;> cases y <;> simp

theorem OR_spec {a b : Shared n F} {x y : Bool} (ha : val a = bit x) (hb : val b = bit y) :
    Program.Meets A (fun c => val c = bit (x || y)) E (OR a b : Online alphai _) := by
  refine (mul_spec a b).bind fun tmp htmp => ?_
  simp only [Program.pure_eq, Program.meets_ret, add, subInplace, map_sub, map_add, htmp.1, ha, hb]
  cases x <;> cases y <;> simp

theorem AND_spec {a b : Shared n F} {x y : Bool} (ha : val a = bit x) (hb : val b = bit y) :
    Program.Meets A (fun c => val c = bit (x && y)) E (AND a b : Online alphai _) := by
  refine (mul_spec a b).imp fun c hc => ?_
  rw [hc.1, ha, hb]
  cases x <;> cases y <;> simp

theorem XORPlain_val {a : Shared n F} {x y : Bool} (ha : val a = bit x) :
    val (XORPlain alphai a (bit y)) = bit (xor x y) := by
  simp only [XORPlain, addPlain, mulPlain, subInplace, map_sub, map_add, val_smul, val_constant, ha]
  cases x <;> cases y <;> simp

theorem XORVec_spec {a b : List (Shared n F)} {xs ys : List Bool} {k : Nat} (ha : Encodes a xs)
    (hb : Encodes b ys) (la : xs.length = k) (lb : ys.length = k) (short : k ≤ 2 ^ 31) :
    Program.Meets A (fun c => Encodes c (List.zipWith xor xs ys)) E
      (XORVec a b k : Online alphai _) := by
  have la' := ha.length_eq.trans la
  have lb' := hb.length_eq.trans lb
  have same : a.length = b.length := la'.trans lb'.symm
  rw [XORVec, if_neg (by simp [la', lb'])]
  simp only [addVec, zipVec_eq same, Program.ret_bind]
  refine (mulVec_spec [] same (la'.trans_le short)).bind fun tmp htmp => ?_
  obtain ⟨ltmp, product⟩ := mulVec_products same htmp.1
  have first : zipVecInplace subInplace (List.zipWith add a b) tmp =
      List.zipWith subInplace (List.zipWith add a b) tmp :=
    zipVecInplace_eq (by simp [← same, ltmp])
  simp only [Program.pure_eq, Program.meets_ret, subInplaceVec, first]
  rw [zipVecInplace_eq (by simp [← same, ltmp])]
  refine .of_getElem (by simp [la, lb, la', lb', ltmp]) fun i hi hi' => ?_
  simp only [List.length_zipWith, lt_inf_iff] at hi
  simp only [List.getElem_zipWith, subInplace, add, map_sub, map_add, product i hi.2 hi.1.1.1
    hi.1.1.2, ha.getElem, hb.getElem, List.get_eq_getElem]
  cases xs[i] <;> cases ys[i] <;> simp

theorem ORVec_spec {a b : List (Shared n F)} {xs ys : List Bool} {k : Nat} (ha : Encodes a xs)
    (hb : Encodes b ys) (la : xs.length = k) (lb : ys.length = k) (short : k ≤ 2 ^ 31) :
    Program.Meets A (fun c => Encodes c (List.zipWith or xs ys)) E
      (ORVec a b k : Online alphai _) := by
  have la' := ha.length_eq.trans la
  have lb' := hb.length_eq.trans lb
  have same : a.length = b.length := la'.trans lb'.symm
  rw [ORVec, if_neg (by simp [la', lb'])]
  simp only [addVec, zipVec_eq same, Program.ret_bind]
  refine (mulVec_spec [] same (la'.trans_le short)).bind fun tmp htmp => ?_
  obtain ⟨ltmp, product⟩ := mulVec_products same htmp.1
  simp only [Program.pure_eq, Program.meets_ret, subInplaceVec]
  rw [zipVecInplace_eq (by simp [← same, ltmp])]
  refine .of_getElem (by simp [la, lb, la', lb', ltmp]) fun i hi hi' => ?_
  simp only [List.length_zipWith, lt_inf_iff] at hi
  simp only [List.getElem_zipWith, subInplace, add, map_sub, map_add, product i hi.2 hi.1.1
    hi.1.2, ha.getElem, hb.getElem, List.get_eq_getElem]
  cases xs[i] <;> cases ys[i] <;> simp

theorem XORPlainVec_spec {a : List (Shared n F)} {xs ys : List Bool} {k : Nat} (ha : Encodes a xs)
    (la : xs.length = k) (lb : ys.length = k) :
    Program.Meets A (fun c => Encodes c (List.zipWith xor xs ys)) E
      (XORPlainVec a (ys.map bit) k : Online alphai _) := by
  have la' := ha.length_eq.trans la
  have same : a.length = (ys.map (bit (R := F))).length := by simp [la', lb]
  rw [XORPlainVec, if_neg (by simp [la', lb])]
  simp only [addPlainVec, mulPlainVec, zipVec_eq same, Program.ret_bind, Program.pure_eq,
    Program.meets_ret, subInplaceVec]
  rw [zipVecInplace_eq (c := List.zipWith _ _ _) (by simp), zipVecInplace_eq (by simp)]
  refine .of_getElem (by simp [la, lb, la']) fun i hi hi' => ?_
  simp only [List.length_zipWith, lt_inf_iff] at hi
  simp only [List.getElem_zipWith, List.getElem_map]
  exact XORPlain_val (ha.getElem hi.1.1.1)

end Gates

def parity (xs : List Bool) : Bool := xs.foldr xor false

@[simp] theorem parity_nil : parity [] = false := rfl
@[simp] theorem parity_cons (x : Bool) (xs : List Bool) : parity (x :: xs) = xor x (parity xs) := rfl

structure Foldable (g : Bool → Bool → Bool) : Prop where
  assoc : ∀ x y z, g (g x y) z = g x (g y z)
  left : ∀ x, g false x = x
  right : ∀ x, g x false = x

theorem foldable_xor : Foldable xor := ⟨Bool.xor_assoc, Bool.false_xor, Bool.xor_false⟩
theorem foldable_or : Foldable or := ⟨Bool.or_assoc, Bool.false_or, Bool.or_false⟩

namespace Foldable
variable {g : Bool → Bool → Bool} (gate : Foldable g)
include gate

theorem foldr_append (xs ys : List Bool) :
    (xs ++ ys).foldr g false = g (xs.foldr g false) (ys.foldr g false) := by
  induction xs with
  | nil => exact (gate.left _).symm
  | cons x xs ih => rw [List.cons_append, List.foldr_cons, List.foldr_cons, ih, gate.assoc]

theorem foldr_take_succ (xs : List Bool) (i : Nat) :
    (xs.take (i + 1)).foldr g false = g ((xs.take i).foldr g false) (xs.getD i false) := by
  rw [List.take_add_one, gate.foldr_append, List.getD_eq_getElem?_getD]
  cases xs[i]? with
  | none => rfl
  | some x => exact congrArg _ (gate.right x)

theorem foldr_pairs (xs : List Bool) (m : Nat) :
    ((List.range m).map fun i => g (xs.getD (2 * i) false) (xs.getD (2 * i + 1) false)).foldr g false =
      (xs.take (2 * m)).foldr g false := by
  induction m with
  | zero => simp
  | succ m ih =>
      rw [List.range_succ, List.map_append, gate.foldr_append, ih, Nat.mul_succ,
        gate.foldr_take_succ, gate.foldr_take_succ, gate.assoc]
      exact congrArg _ (gate.right _)

end Foldable

section Folds
variable [NeZero n] {A : Draw (spdz alphai) → Prop} {E : Err → Prop}

omit [NeZero n] in
theorem foldPairs_spec {g : Bool → Bool → Bool} (foldable : Foldable g)
    {op : List (Shared n F) → List (Shared n F) → Nat → Online alphai (List (Shared n F))}
    (gate : ∀ {a b xs ys k}, Encodes a xs → Encodes b ys → xs.length = k → ys.length = k →
      k ≤ 2 ^ 31 → Program.Meets A (fun c => Encodes c (List.zipWith g xs ys)) E (op a b k))
    {a : List (Shared n F)} {xs : List Bool} {k : Nat} (ha : Encodes a xs)
    (length : xs.length = k) (positive : 0 < k) (short : k ≤ 2 ^ 31 + 1) :
    Program.Meets A (fun c => val c = bit (xs.foldr g false)) E (foldPairs op a k) := by
  have pairs {a : List (Shared n F)} {xs : List Bool} (ha : Encodes a xs) {m : Nat}
      (small : m ≤ 2 ^ 30) :
      Program.Meets A (fun c => Encodes c ((List.range m).map fun i =>
          g (xs.getD (2 * i) false) (xs.getD (2 * i + 1) false))) E
        (op ((List.range m).map fun i => a.getD (2 * i) 0)
          ((List.range m).map fun i => a.getD (2 * i + 1) 0) m) := by
    refine (gate (ha.select (2 * ·) m) (ha.select (2 * · + 1) m) (by simp) (by simp)
      (by omega)).imp fun c hc => ?_
    rwa [List.zipWith_map, List.zipWith_self] at hc
  induction k using Nat.strong_induction_on generalizing a xs with
  | h k ih =>
      have whole : (xs.take k).foldr g false = xs.foldr g false := by rw [← length, List.take_length]
      have la : a.length = k := ha.length_eq.trans length
      rw [foldPairs, if_neg (not_not.2 la), if_neg (by omega)]
      split
      · rename_i one
        subst one
        refine (ha.getD 0).trans ?_
        rw [← whole, foldable.foldr_take_succ]
        exact congrArg bit (foldable.left _).symm
      · split
        · rename_i even
          rw [splitPairs_eq (by omega) (by omega) 0, Online.defined_some, Program.ret_bind]
          refine (pairs ha (m := k / 2) (by omega)).bind fun c hc => ?_
          refine (ih (k / 2) (by omega) hc (by simp) (by omega) (by omega)).imp fun c' hc' => ?_
          rw [hc', foldable.foldr_pairs, show 2 * (k / 2) = k by omega, whole]
        · rename_i odd
          rw [show (k - 1) / 2 = k / 2 by omega, splitPairs_eq (by omega) (by omega) 0,
            Online.defined_some, Program.ret_bind]
          refine (pairs ha (m := k / 2) (by omega)).bind fun c hc => ?_
          refine (ih ((k + 1) / 2) (by omega) (hc.push (ha.getD (k - 1))) (by simp; omega)
            (by omega) (by omega)).imp fun c' hc' => ?_
          rw [hc', foldable.foldr_append, foldable.foldr_pairs, show 2 * (k / 2) = k - 1 by omega, ← whole,
            show xs.take k = xs.take (k - 1 + 1) by rw [Nat.sub_add_cancel positive],
            foldable.foldr_take_succ]
          exact congrArg (fun x => bit (g _ x)) (foldable.right _)

omit [NeZero n] in
theorem foldPairs_none {op : List (Shared n F) → List (Shared n F) → Nat →
    Online alphai (List (Shared n F))} {a : List (Shared n F)} {k : Nat} (length : a.length = k)
    (large : 2 ^ 31 + 1 < k) : (foldPairs op a k : Online alphai _) = Online.throw .undefined := by
  rw [foldPairs, if_neg (not_not.2 length), if_neg (by omega), if_neg (by omega)]
  split
  · rw [splitPairs_none (by omega)]
    rfl
  · rw [splitPairs_none (by omega)]
    rfl

omit [NeZero n] in
theorem KXOR_eq (a : List (Shared n F)) (k : Nat) :
    (KXOR a k : Online alphai _) = foldPairs XORInplaceVec a k := by
  induction k using Nat.strong_induction_on generalizing a with
  | h k ih =>
      rw [KXOR, foldPairs]
      split
      · rfl
      split
      · rfl
      split
      · rfl
      split
      · exact congrArg _ (funext fun half => congrArg _ (funext fun c => ih (k / 2) (by omega) c))
      · exact congrArg _ (funext fun half =>
          congrArg _ (funext fun c => ih ((k + 1) / 2) (by omega) _))

theorem KXOR_spec {a : List (Shared n F)} {xs : List Bool} {k : Nat} (ha : Encodes a xs)
    (length : xs.length = k) (positive : 0 < k) (short : k ≤ 2 ^ 31 + 1) :
    Program.Meets A (fun c => val c = bit (parity xs)) E (KXOR a k : Online alphai _) := by
  rw [KXOR_eq]
  refine foldPairs_spec foldable_xor ?_ ha length positive short
  intro a b xs ys k ha hb la lb short
  rw [XORInplaceVec, resize_length (ha.length_eq.trans la)]
  exact XORVec_spec ha hb la lb short

theorem KOR_spec {a : List (Shared n F)} {xs : List Bool} {k : Nat} (ha : Encodes a xs)
    (length : xs.length = k) (positive : 0 < k) (short : k ≤ 2 ^ 31 + 1) :
    Program.Meets A (fun c => val c = bit (xs.foldr or false)) E (KOR a k : Online alphai _) := by
  refine foldPairs_spec foldable_or ?_ ha length positive short
  intro a b xs ys k ha hb la lb short
  exact ORVec_spec ha hb la lb short

theorem prefixOR_spec {a : List (Shared n F)} {xs : List Bool} {k : Nat} (ha : Encodes a xs)
    (length : xs.length = k) (positive : 0 < k) (unsigned : k < 2 ^ 32) :
    Program.Meets A (fun c => Encodes c (orPrefix false xs)) E (prefixOR a k : Online alphai _) := by
  induction k using Nat.strong_induction_on generalizing a xs with
  | h k ih =>
      rw [prefixOR, if_neg (by simp [ha.length_eq, length]), if_neg (by omega)]
      split
      · rename_i one
        obtain ⟨x, rfl⟩ := List.length_eq_one_iff.1 (length.trans one)
        have := Encodes.cons (ha.getD 0) .nil
        simpa [orPrefix] using this
      · rename_i several
        have left : (xs.take (k / 2)).length = k / 2 := by
          rw [List.length_take]
          omega
        refine (ih (k / 2) (by omega) (ha.take (k / 2)) left (by omega) (by omega)).bind
          fun c0 h0 => ?_
        refine (ih (k - k / 2) (by omega) (ha.drop (k / 2)) (by simp [length]) (by omega)
          (by omega)).bind fun c1 h1 => ?_
        have nonempty : xs.take (k / 2) ≠ [] := by
          rw [← List.length_pos_iff_ne_nil, left]
          omega
        have last := orPrefix_last false _ nonempty
        rw [left] at last
        have joint : val (c0.getD (k / 2 - 1) 0) = bit ((xs.take (k / 2)).any id) := by
          rw [h0.getD, List.getD_eq_getElem?_getD, last]
          simp
        refine (ORVec_spec (Encodes.replicate joint (k - k / 2)) h1 (by simp) (by simp [length])
          (by omega)).bind fun tmp htmp => ?_
        have right : List.zipWith or (List.replicate (k - k / 2) ((xs.take (k / 2)).any id))
            (orPrefix false (xs.drop (k / 2))) =
            orPrefix ((xs.take (k / 2)).any id) (xs.drop (k / 2)) := by
          rw [orPrefix_eq_map ((xs.take (k / 2)).any id)]
          exact List.ext_getElem (by simp [length]) fun i _ _ => by simp
        have whole := h0.append htmp
        rw [right] at whole
        change Encodes (c0 ++ tmp) _
        rwa [← List.take_append_drop (k / 2) xs, orPrefix_append, Bool.false_or]

end Folds

end ProofOfCustody.OnlineOp
