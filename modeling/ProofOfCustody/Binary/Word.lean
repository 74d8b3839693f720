import Mathlib

/-!
# Little-endian words of bits

The number a word spells, running disjunctions, the comparison by the highest difference, and the
ripple-carry sum.
-/

namespace ProofOfCustody.Binary

def toNat (bs : List Bool) : Nat := Nat.ofDigits 2 (bs.map Bool.toNat)

def ofNat : Nat → Nat → List Bool
  | 0, _ => []
  | k + 1, x => decide (x % 2 = 1) :: ofNat k (x / 2)

def bit {R : Type} [Ring R] (b : Bool) : R := bif b then 1 else 0

@[simp] theorem bit_false {R : Type} [Ring R] : (bit false : R) = 0 := rfl
@[simp] theorem bit_true {R : Type} [Ring R] : (bit true : R) = 1 := rfl

theorem bit_injective {R : Type} [Ring R] [Nontrivial R] : Function.Injective (bit (R := R)) := by
  intro b c h
  cases b <;> cases c <;> simp_all

@[simp] theorem toNat_nil : toNat [] = 0 := rfl
@[simp] theorem toNat_cons (b : Bool) (bs : List Bool) : toNat (b :: bs) = b.toNat + 2 * toNat bs := by
  simp [toNat, Nat.ofDigits_cons]

theorem toNat_append (bs cs : List Bool) :
    toNat (bs ++ cs) = toNat bs + 2 ^ bs.length * toNat cs := by
  simp [toNat, Nat.ofDigits_append]

theorem toNat_lt (bs : List Bool) : toNat bs < 2 ^ bs.length := by
  have := Nat.ofDigits_lt_base_pow_length' (b := 0) (l := bs.map Bool.toNat) (by
    intro x hx
    obtain ⟨b, _, rfl⟩ := List.mem_map.1 hx
    exact b.toNat_lt)
  simpa [toNat] using this

theorem toNat_injective {bs cs : List Bool} (same : bs.length = cs.length)
    (value : toNat bs = toNat cs) : bs = cs := by
  induction bs generalizing cs with
  | nil => exact (List.length_eq_zero_iff.1 same.symm).symm
  | cons b bs ih =>
      obtain ⟨c, cs, rfl⟩ := List.exists_cons_of_length_eq_add_one same.symm
      rw [toNat_cons, toNat_cons] at value
      obtain rfl : b = c := by
        cases b <;> cases c <;> simp only [Bool.toNat_false, Bool.toNat_true] at value ⊢ <;> omega
      rw [ih (by simpa using same) (by omega)]

@[simp] theorem length_ofNat (k x : Nat) : (ofNat k x).length = k := by
  induction k generalizing x with
  | zero => rfl
  | succ k ih => simp [ofNat, ih]

theorem toNat_ofNat (k x : Nat) : toNat (ofNat k x) = x % 2 ^ k := by
  induction k generalizing x with
  | zero => simp [ofNat, Nat.mod_one]
  | succ k ih =>
      have low : (decide (x % 2 = 1)).toNat = x % 2 := by
        rcases Nat.mod_two_eq_zero_or_one x with h | h <;> simp [h]
      rw [ofNat, toNat_cons, ih, low, pow_succ', Nat.mod_mul]

theorem toNat_ofNat_of_lt {k x : Nat} (h : x < 2 ^ k) : toNat (ofNat k x) = x := by
  rw [toNat_ofNat, Nat.mod_eq_of_lt h]

theorem ofNat_toNat (bs : List Bool) : ofNat bs.length (toNat bs) = bs :=
  toNat_injective (length_ofNat _ _) (toNat_ofNat_of_lt (toNat_lt bs))

theorem toNat_eq_sum (bs : List Bool) :
    toNat bs = ∑ i ∈ Finset.range bs.length, (bs.getD i false).toNat * 2 ^ i := by
  induction bs with
  | nil => rfl
  | cons b bs ih =>
      rw [toNat_cons, ih, List.length_cons, Finset.sum_range_succ', Finset.mul_sum, Nat.add_comm]
      simp only [List.getD_cons_zero, List.getD_cons_succ, pow_zero, mul_one, pow_succ]
      congr 1
      exact Finset.sum_congr rfl fun i _ => by ring

theorem testBit_toNat (bs : List Bool) (i : Nat) : (toNat bs).testBit i = bs.getD i false := by
  induction bs generalizing i with
  | nil => simp
  | cons b bs ih =>
      rw [toNat_cons]
      cases i with
      | zero => cases b <;> simp [Nat.testBit_zero]
      | succ i =>
          rw [Nat.testBit_succ, List.getD_cons_succ, ← ih]
          congr 1
          have := b.toNat_lt
          omega

theorem toNat_dropLast {bs : List Bool} {k : Nat} (length : bs.length = k + 1) :
    toNat bs.dropLast = toNat bs % 2 ^ k := by
  have nonempty : bs ≠ [] := by
    rintro rfl
    simp at length
  have value := congrArg toNat (List.dropLast_append_getLast nonempty)
  have bound := toNat_lt bs.dropLast
  rw [toNat_append, List.length_dropLast, length, Nat.add_sub_cancel] at value
  rw [List.length_dropLast, length, Nat.add_sub_cancel] at bound
  rw [← value, Nat.add_mul_mod_self_left, Nat.mod_eq_of_lt bound]

theorem toNat_take (bs : List Bool) {i : Nat} (h : i ≤ bs.length) :
    toNat (bs.take i) = toNat bs % 2 ^ i := by
  have bound := toNat_lt (bs.take i)
  rw [List.length_take_of_le h] at bound
  conv_rhs => rw [← List.take_append_drop i bs, toNat_append, List.length_take_of_le h]
  rw [Nat.add_mul_mod_self_left, Nat.mod_eq_of_lt bound]

theorem toNat_drop (bs : List Bool) {i : Nat} (h : i ≤ bs.length) :
    toNat (bs.drop i) = toNat bs / 2 ^ i := by
  have bound := toNat_lt (bs.take i)
  rw [List.length_take_of_le h] at bound
  conv_rhs => rw [← List.take_append_drop i bs, toNat_append, List.length_take_of_le h]
  rw [Nat.add_mul_div_left _ _ (by positivity), Nat.div_eq_of_lt bound, Nat.zero_add]

theorem zipWith_eq_map_range {α : Type} (f : Bool → Bool → α) {bs cs : List Bool} {k : Nat}
    (lb : bs.length = k) (lc : cs.length = k) :
    List.zipWith f bs cs = (List.range k).map fun i => f (bs.getD i false) (cs.getD i false) := by
  refine List.ext_getElem (by simp [lb, lc]) fun i hi _ => ?_
  simp only [List.length_zipWith, lt_inf_iff] at hi
  rw [List.getElem_zipWith, List.getElem_map, List.getElem_range, List.getD_eq_getElem _ _ hi.1,
    List.getD_eq_getElem _ _ hi.2]

theorem map_eq_map_range {α : Type} (f : Bool → α) {bs : List Bool} {k : Nat} (lb : bs.length = k) :
    bs.map f = (List.range k).map fun i => f (bs.getD i false) := by
  rw [← zipWith_eq_map_range (fun b _ => f b) lb lb, List.zipWith_self]

theorem zipWith_xor_cancel {bs cs : List Bool} (same : bs.length = cs.length) :
    List.zipWith xor cs (List.zipWith xor bs cs) = bs := by
  refine List.ext_getElem (by simp [same]) fun i _ _ => ?_
  rw [List.getElem_zipWith, List.getElem_zipWith, Bool.xor_comm, Bool.xor_assoc, Bool.xor_self,
    Bool.xor_false]

def orPrefix : Bool → List Bool → List Bool
  | _, [] => []
  | acc, b :: bs => (acc || b) :: orPrefix (acc || b) bs

def orSuffix : List Bool → List Bool
  | [] => []
  | b :: bs => (b || bs.any id) :: orSuffix bs

@[simp] theorem length_orPrefix (acc : Bool) (bs : List Bool) : (orPrefix acc bs).length = bs.length := by
  induction bs generalizing acc with
  | nil => rfl
  | cons b bs ih => simp [orPrefix, ih]

theorem orPrefix_append (acc : Bool) (bs cs : List Bool) :
    orPrefix acc (bs ++ cs) = orPrefix acc bs ++ orPrefix (acc || bs.any id) cs := by
  induction bs generalizing acc with
  | nil => simp [orPrefix]
  | cons b bs ih => simp [orPrefix, ih, Bool.or_assoc]

theorem orPrefix_eq_map (acc : Bool) (bs : List Bool) :
    orPrefix acc bs = (orPrefix false bs).map (acc || ·) := by
  induction bs generalizing acc with
  | nil => rfl
  | cons b bs ih =>
      rw [orPrefix, ih (acc || b), orPrefix, ih (false || b), List.map_cons, List.map_map]
      simp [Function.comp_def, Bool.or_assoc]

theorem orPrefix_last (acc : Bool) (bs : List Bool) (nonempty : bs ≠ []) :
    (orPrefix acc bs)[bs.length - 1]? = some (acc || bs.any id) := by
  induction bs generalizing acc with
  | nil => exact absurd rfl nonempty
  | cons b bs ih =>
      cases bs with
      | nil => simp [orPrefix]
      | cons c bs => simpa [orPrefix, Bool.or_assoc] using ih (acc || b) (by simp)

theorem orPrefix_reverse (bs : List Bool) : (orPrefix false bs.reverse).reverse = orSuffix bs := by
  induction bs with
  | nil => rfl
  | cons b bs ih =>
      rw [List.reverse_cons, orPrefix_append, List.reverse_append, ih, orSuffix]
      simp [orPrefix, Bool.or_comm]

section Comparison
variable {R : Type} [Ring R]

def top : List Bool → List R
  | [] => []
  | c :: cs => (bit (c || cs.any id) - bit (cs.any id)) :: top cs

theorem any_xor {xs ys : List Bool} (same : xs.length = ys.length) :
    (List.zipWith xor xs ys).any id = decide (xs ≠ ys) := by
  induction xs generalizing ys with
  | nil => simp [List.length_eq_zero_iff.1 same.symm]
  | cons x xs ih =>
      obtain ⟨y, ys, rfl⟩ := List.exists_cons_of_length_eq_add_one same.symm
      rw [List.zipWith_cons_cons, List.any_cons, ih (by simpa using same)]
      cases x <;> cases y <;> simp

theorem sum_top_xor {xs ys : List Bool} (same : xs.length = ys.length) :
    (List.zipWith (· * ·) (top (List.zipWith xor xs ys)) (ys.map bit)).sum =
      (bit (decide (toNat xs < toNat ys)) : R) := by
  induction xs generalizing ys with
  | nil => simp [List.length_eq_zero_iff.1 same.symm, top]
  | cons x xs ih =>
      obtain ⟨y, ys, rfl⟩ := List.exists_cons_of_length_eq_add_one same.symm
      have tail : xs.length = ys.length := by simpa using same
      simp only [List.zipWith_cons_cons, top, List.map_cons, List.sum_cons, ih tail, any_xor tail]
      by_cases equal : xs = ys
      · subst equal
        cases x <;> cases y <;> simp
      · have differ : toNat xs ≠ toNat ys := fun h => equal (toNat_injective tail h)
        have high : toNat (x :: xs) < toNat (y :: ys) ↔ toNat xs < toNat ys := by
          have hx := x.toNat_lt
          have hy := y.toNat_lt
          rw [toNat_cons, toNat_cons]
          omega
        simp [equal, high, -toNat_cons]

end Comparison

def sumBit (x y c : Bool) : Bool := xor (xor x y) c
def carryBit (x y c : Bool) : Bool := xor (xor y c && xor x c) c

theorem fullAdder_value (x y c : Bool) :
    (sumBit x y c).toNat + 2 * (carryBit x y c).toNat = x.toNat + y.toNat + c.toNat := by
  revert x y c
  decide

theorem ripple_step {zs xs ys : List Bool} {c x y : Bool} (lx : zs.length = xs.length)
    (ly : xs.length = ys.length)
    (value : toNat zs + 2 ^ xs.length * c.toNat = toNat xs + toNat ys) :
    toNat (zs ++ [sumBit x y c]) + 2 ^ (xs ++ [x]).length * (carryBit x y c).toNat =
      toNat (xs ++ [x]) + toNat (ys ++ [y]) := by
  have adder := congrArg (2 ^ xs.length * ·) (fullAdder_value x y c)
  simp only [toNat_append, toNat_cons, toNat_nil, List.length_append, List.length_cons,
    List.length_nil, lx, ← ly] at adder ⊢
  linear_combination value + adder

end ProofOfCustody.Binary
