import Mathlib
import ProofOfCustody.OnlineOp.ConvertSpec
import ProofOfCustody.Spdz.Plain

/-!
# Decomposition and recomposition

The overloads of `decompose` and `B2A` for clear values, and how all of them fit together.
-/

namespace ProofOfCustody.OnlineOp
open Effect Spdz Shared Binary

variable {n p : Nat} [Fact p.Prime]

/-- `gfp_::operator&`: the operands become integers and the result a residue again. -/
def bitAnd (x y : ZMod p) : ZMod p := ((x.val &&& y.val : Nat) : ZMod p)

/-- `gfp_::operator>>` -/
def shiftRight (x : ZMod p) (k : Nat) : ZMod p :=
  if x ≠ 0 then
    if k ≠ 0 then ((x.val >>> k : Nat) : ZMod p) else x
  else 0

/-- The overload of `decompose` for field elements. -/
def decomposeClear (x : ZMod p) (k : Nat) : Option (List (ZMod p)) :=
  shiftBits (fun tmp => bitAnd tmp 1) (fun tmp => shiftRight tmp 1) x k

/-- The overload of `B2A` for clear bits. -/
def B2AClear (bits : List (ZMod p)) (k : Nat) : Option (ZMod p) :=
  sumPowers (fun bi i => bi * power (1 + 1) i) (fun c tmp => c + tmp) bits k

theorem shiftRight_one_val (x : ZMod p) : (shiftRight x 1).val = x.val / 2 := by
  by_cases zero : x = 0
  · simp [shiftRight, zero]
  · rw [shiftRight, if_pos zero, if_pos one_ne_zero, Nat.shiftRight_one]
    apply ZMod.val_cast_of_lt
    exact (Nat.div_le_self _ _).trans_lt (ZMod.val_lt x)

theorem bitAnd_one (x : ZMod p) : bitAnd x 1 = bit (decide (x.val % 2 = 1)) := by
  rw [bitAnd, ZMod.val_one'' (Fact.out : p.Prime).ne_one, Nat.and_one_is_mod]
  rcases Nat.mod_two_eq_zero_or_one x.val with h | h
  · simp [h]
  · simp [h]

theorem shifted_residues (k : Nat) (x : ZMod p) :
    ((List.range k).map fun i => bitAnd ((fun tmp => shiftRight tmp 1)^[i] x) 1) =
      (ofNat k x.val).map bit := by
  induction k generalizing x with
  | zero => rfl
  | succ k ih =>
      rw [List.range_succ_eq_map, List.map_cons, List.map_map, ofNat, List.map_cons,
        ← shiftRight_one_val, ← ih]
      congr 1
      exact bitAnd_one x

theorem decomposeClear_eq {k : Nat} (positive : 0 < k) (short : k ≤ 2 ^ 31) (x : ZMod p) :
    decomposeClear x k = some ((ofNat k x.val).map bit) := by
  rw [decomposeClear, shiftBits_eq _ _ _ positive short, shifted_residues]

theorem B2AClear_eq {k : Nat} (xs : List Bool) (length : xs.length = k) (positive : 0 < k)
    (short : k ≤ 2 ^ 31) : B2AClear (xs.map bit) k = some (toNat xs : ZMod p) := by
  have fold (m : Nat) (bound : m < k) :
      (List.range' 1 m).foldl (fun c i => c + (xs.map bit).getD i 0 * power (1 + 1) i)
        ((xs.map bit).getD 0 0) = (toNat (xs.take (m + 1)) : ZMod p) := by
    induction m with
    | zero =>
        rw [toNat_take_succ (by omega), List.range'_zero, List.foldl_nil,
          List.getD_eq_getElem _ _ (by rw [List.length_map]; omega), List.getElem_map]
        cases xs[0] <;> simp
    | succ m ih =>
        rw [List.range'_1_concat, List.foldl_append, List.foldl_cons, List.foldl_nil,
          Nat.add_comm 1 m, ih (by omega), toNat_take_succ (i := m + 1) (by omega),
          List.getD_eq_getElem _ _ (by rw [List.length_map]; omega), List.getElem_map,
          power_eq (Nat.succ_pos m), one_add_one_eq_two]
        cases xs[m + 1] <;> simp
  have total := fold (k - 1) (by omega)
  rw [Nat.sub_add_cancel positive, ← length, List.take_length, length] at total
  rw [B2AClear, sumPowers_eq _ _ positive short (by rw [List.length_map, length]) 0, total]

theorem exists_word {bits : List (ZMod p)} (binary : ∀ b ∈ bits, b = 0 ∨ b = 1) :
    ∃ xs : List Bool, bits = xs.map bit := by
  induction bits with
  | nil => exact ⟨[], rfl⟩
  | cons b bits ih =>
      obtain ⟨xs, rfl⟩ := ih fun c mem => binary c (List.mem_cons_of_mem _ mem)
      rcases binary b List.mem_cons_self with rfl | rfl
      · exact ⟨false :: xs, by simp⟩
      · exact ⟨true :: xs, by simp⟩

theorem bit_val (b : Bool) : (bit b : ZMod p).val = b.toNat := by
  cases b with
  | false => simp
  | true => simp [ZMod.val_one'' (Fact.out : p.Prime).ne_one]

def Decomposes (n p : Nat) [Fact p.Prime] (k x : Nat) : Prop :=
  ∃ bits : List (ZMod p), decomposeClear (x : ZMod p) k = some bits ∧
    decompose (x : Int) k = some bits ∧ bits.length = k ∧ (∀ b ∈ bits, b = 0 ∨ b = 1) ∧
    B2AClear bits k = some ((x % 2 ^ k : Nat) : ZMod p) ∧
    ∀ a : List (Shared n (ZMod p)), a.map val = bits →
      ∃ c, B2A a k = some c ∧ val c = ((x % 2 ^ k : Nat) : ZMod p)

def Recomposes (n : Nat) {p : Nat} [Fact p.Prime] (bits : List (ZMod p)) (k : Nat) : Prop :=
  (∃ c, B2AClear bits k = some c ∧ decomposeClear c k = some bits ∧
    decompose (c.val : Int) k = some bits) ∧
  ∀ a : List (Shared n (ZMod p)), a.map val = bits →
    ∃ c, B2A a k = some c ∧ decomposeClear (val c) k = some bits ∧
      decompose ((val c).val : Int) k = some bits

theorem decomposes_of_le {k x : Nat} (positive : 1 ≤ k) (short : k ≤ 2 ^ 31) (bound : x < p) :
    Decomposes n p k x := by
  refine ⟨(ofNat k x).map bit, ?_, decompose_eq positive short x, by simp, fun b mem => ?_, ?_,
    fun a ha => ⟨recompose a k, ?_, ?_⟩⟩
  · rw [decomposeClear_eq positive short, ZMod.val_cast_of_lt bound]
  · obtain ⟨c, _, rfl⟩ := List.mem_map.1 mem
    cases c with
    | false => exact .inl rfl
    | true => exact .inr rfl
  · rw [B2AClear_eq _ (length_ofNat k x) positive short, toNat_ofNat]
  · exact B2A_eq (by simpa using congrArg List.length ha) positive short
  · rw [recompose_val ha (length_ofNat k x) positive, toNat_ofNat]

theorem recomposes_of_le {bits : List (ZMod p)} {k : Nat} (positive : 1 ≤ k) (short : k ≤ 2 ^ 31)
    (length : bits.length = k) (binary : ∀ b ∈ bits, b = 0 ∨ b = 1)
    (below : ∑ i ∈ Finset.range k, (bits.getD i 0).val * 2 ^ i < p) : Recomposes n bits k := by
  obtain ⟨xs, rfl⟩ := exists_word binary
  rw [List.length_map] at length
  have spelled : toNat xs < p := by
    rw [toNat_eq_sum, length]
    refine lt_of_eq_of_lt (Finset.sum_congr rfl fun i hi => ?_) below
    rw [Finset.mem_range] at hi
    rw [List.getD_eq_getElem _ _ (by omega), List.getD_eq_getElem _ _ (by simp; omega),
      List.getElem_map, bit_val]
  have clear : decomposeClear (toNat xs : ZMod p) k = some (xs.map bit) := by
    rw [decomposeClear_eq positive short, ZMod.val_cast_of_lt spelled, ← length, ofNat_toNat]
  have integer : (decompose ((toNat xs : ZMod p).val : Int) k : Option (List (ZMod p))) =
      some (xs.map bit) := by
    rw [decompose_eq positive short, ZMod.val_cast_of_lt spelled, ← length, ofNat_toNat]
  refine ⟨⟨_, B2AClear_eq xs length positive short, clear, integer⟩, fun a ha => ?_⟩
  have value := recompose_val ha length positive
  refine ⟨_, B2A_eq (by simpa [length] using congrArg List.length ha) positive short, ?_⟩
  rw [value]
  exact ⟨clear, integer⟩

/-- The loops count to an unsigned length with an `int`, which wraps for lengths above `2 ^ 31`. -/
theorem recompose_exact {k : Nat} (positive : 1 ≤ k) :
    (∀ x < p, (Decomposes n p k x ↔ k ≤ 2 ^ 31)) ∧
    ∀ bits : List (ZMod p), bits.length = k → (∀ b ∈ bits, b = 0 ∨ b = 1) →
      ∑ i ∈ Finset.range k, (bits.getD i 0).val * 2 ^ i < p →
      (Recomposes n bits k ↔ k ≤ 2 ^ 31) := by
  refine ⟨fun x bound => ⟨?_, fun short => decomposes_of_le positive short bound⟩,
    fun bits length binary below =>
      ⟨?_, fun short => recomposes_of_le positive short length binary below⟩⟩
  · rintro ⟨bits, clear, _⟩
    by_contra large
    cases clear.symm.trans (shiftBits_none _ _ _ (Nat.lt_of_not_le large))
  · rintro ⟨⟨c, recomposed, _⟩, _⟩
    by_contra large
    cases recomposed.symm.trans (sumPowers_none _ _ _ (Nat.lt_of_not_le large))

theorem recompose_exact_three : Decomposes 1 3 4 2 ∧ Recomposes 1 ([0, 1, 0, 0] : List (ZMod 3)) 4 := by
  have exact := recompose_exact (n := 1) (p := 3) (k := 4) (by decide)
  exact ⟨(exact.1 2 (by decide)).2 (by norm_num),
    (exact.2 [0, 1, 0, 0] rfl (by decide) (by decide)).2 (by norm_num)⟩

theorem decompose_wraps :
    ¬Decomposes 1 3 (2 ^ 31 + 1) 0 ∧
      ¬Recomposes 1 (List.replicate (2 ^ 31 + 1) (0 : ZMod 3)) (2 ^ 31 + 1) := by
  constructor
  · rintro ⟨bits, clear, _⟩
    cases clear.symm.trans (shiftBits_none _ _ _ (by norm_num))
  · rintro ⟨⟨c, recomposed, _⟩, _⟩
    cases recomposed.symm.trans (sumPowers_none _ _ _ (by norm_num))

end ProofOfCustody.OnlineOp
