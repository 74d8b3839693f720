import Mathlib
import ProofOfCustody.OnlineOp.ArithSpec

/-!
# The universal hash and the Legendre PRF
-/

namespace ProofOfCustody.OnlineOp
open Effect Spdz Shared

section Hash
variable {n : Nat} {F : Type} [Field F] {alphai : Fin n → F}

def unsigned (x : Int) : Nat := (x % 2 ^ 32).toNat

/-- out = in[0] + in[1]*key + in[2]*key^2 +...+ in[size-1]*key^{size-1} -/
def uhf (key : Shared n F) (input : List F) (size : Nat) : Online alphai (Shared n F) := do
  if input.length ≠ size then Online.throw .invalid_length
  else
    let last ← Online.index input (unsigned (size - 1))
    let out := mulPlain key last
    let next ← Online.index input (unsigned (size - 2))
    let out := addPlainInplace alphai out next
    -- the counter is an `int`: the unsigned difference wraps when it is converted
    let first : Int := (unsigned (size - 3) : Int).bmod (2 ^ 32)
    (List.range (first + 1).toNat).reverse.foldlM (fun out i => do
      let out ← mulInplace out key
      let coefficient ← Online.index input i
      return addPlainInplace alphai out coefficient) out

end Hash

section Legendre
variable {n p : Nat} [Fact p.Prime] {alphai : Fin n → ZMod p}

def legendre (input : Shared n (ZMod p)) : Online alphai Int := do
  let s ← Online.getTwo .legendre
  let s₁ ← mulInplace s.aa input
  let c ← Online.reveal .legendre [s₁]
  let c₀ ← Online.index c 0
  let bn : Int := c₀.val
  return legendreSym p bn

/-- `ceil(double(res + 1) / 2)` -/
def prfBit (res : Int) : Int := ⌈((res + 1 : Int) : Rat) / 2⌉

def legendrePrf (key input : Shared n (ZMod p)) : Online alphai Int := do
  let tmp := add key input
  let res ← legendre tmp
  return prfBit res

end Legendre

section Values
variable {n : Nat} [NeZero n] {F : Type} [Field F] {alphai : Fin n → F}
  {A : Draw (spdz alphai) → Prop} {E : Err → Prop}

theorem horner_spec (key : Shared n F) (input : List F) (m len : Nat) (out : Shared n F)
    (bound : m + len ≤ input.length)
    (value : val out = ∑ i ∈ Finset.range len, input.getD (m + i) 0 * val key ^ i) :
    Program.Meets A
      (fun out => val out = ∑ i ∈ Finset.range (m + len), input.getD i 0 * val key ^ i) E
      ((List.range m).reverse.foldlM (fun out i => do
        let out ← mulInplace out key
        let coefficient ← Online.index input i
        return addPlainInplace alphai out coefficient) out : Online alphai _) := by
  induction m generalizing len out with
  | zero => simpa using value
  | succ m ih =>
      rw [List.range_succ, List.reverse_append, List.reverse_singleton, List.singleton_append,
        List.foldlM_cons]
      refine Program.Meets.bind (P := fun out' => val out' = ∑ i ∈ Finset.range (len + 1),
        input.getD (m + i) 0 * val key ^ i) ?_ fun out' h => ?_
      · refine (mulInplace_spec out key).bind fun out' h => ?_
        rw [Online.index_of_lt (by omega)]
        change val (addPlainInplace alphai out' _) = _
        rw [addPlainInplace, map_add, val_constant, h.1, value, Finset.sum_range_succ',
          Finset.sum_mul, Nat.add_zero, pow_zero, mul_one, List.getD_eq_getElem _ _ (by omega)]
        congr 1
        refine Finset.sum_congr rfl fun i _ => ?_
        rw [show m + 1 + i = m + (i + 1) by omega, pow_succ, mul_assoc]
      · have := ih (len + 1) out' (by omega) h
        rwa [show m + (len + 1) = m + 1 + len by omega] at this

theorem unsigned_eq {x : Int} (lower : 0 ≤ x) (upper : x < 2 ^ 32) : unsigned x = x.toNat := by
  rw [unsigned, Int.emod_eq_of_lt lower upper]

theorem rounds_eq {size : Nat} (several : 2 ≤ size) (small : size ≤ 2 ^ 31 + 2) :
    (((unsigned (size - 3) : Int).bmod (2 ^ 32)) + 1).toNat = size - 2 := by
  rcases several.lt_or_eq with more | rfl
  · rw [unsigned_eq (by omega) (by omega), Int.bmod_eq_of_le (by omega) (by omega)]
    omega
  · decide

theorem uhf_spec (key : Shared n F) {input : List F} {size : Nat} (length : input.length = size)
    (several : 2 ≤ size) (small : size ≤ 2 ^ 31 + 2) :
    Program.Meets A
      (fun out => val out = ∑ i ∈ Finset.range size, input.getD i 0 * val key ^ i) E
      (uhf key input size : Online alphai _) := by
  have one : unsigned (size - 1) = size - 1 := by
    rw [unsigned_eq (by omega) (by omega)]
    omega
  have two : unsigned (size - 2) = size - 2 := by
    rw [unsigned_eq (by omega) (by omega)]
    omega
  simp only [uhf, rounds_eq several small, one, two]
  rw [if_neg (by simp [length]), Online.index_of_lt (by omega), Online.index_of_lt (by omega)]
  simp only [Program.ret_bind]
  have := (horner_spec key input (size - 2) 2
    (addPlainInplace alphai (mulPlain key (input.get ⟨size - 1, by omega⟩))
      (input.get ⟨size - 2, by omega⟩)) (by omega) ?_ :
      Program.Meets A _ E (_ : Online alphai (Shared n F)))
  · rwa [Nat.sub_add_cancel several] at this
  · rw [addPlainInplace, map_add, val_constant, mulPlain, val_smul, Finset.sum_range_succ,
      Finset.sum_range_one, List.getD_eq_getElem _ _ (by omega), List.getD_eq_getElem _ _ (by omega)]
    simp [show size - 2 + 1 = size - 1 by omega, add_comm]

end Values

section Values
variable {n p : Nat} [NeZero n] [Fact p.Prime] {alphai : Fin n → ZMod p}
  {A : Draw (spdz alphai) → Prop} {E : Err → Prop}

omit [NeZero n] [Fact p.Prime] in
theorem prfBit_values : prfBit 0 = 1 ∧ prfBit 1 = 1 ∧ prfBit (-1) = 0 := by
  refine ⟨?_, ?_, ?_⟩ <;> rw [prfBit, Int.ceil_eq_iff] <;> norm_num

theorem prfBit_quadraticChar (x : ZMod p) :
    prfBit (quadraticChar (ZMod p) x) = if IsSquare x then 1 else 0 := by
  rw [quadraticChar_apply, quadraticCharFun]
  split
  · rename_i zero
    rw [if_pos (zero ▸ IsSquare.zero)]
    exact prfBit_values.1
  · split
    · exact prfBit_values.2.1
    · exact prfBit_values.2.2

theorem legendre_spec
    (masks : ∀ m : Square alphai, A ⟨Site.square .legendre, m⟩ → val m.a ≠ 0)
    (input : Shared n (ZMod p)) :
    Program.Meets A (fun out => out = quadraticChar (ZMod p) (val input)) E
      (legendre input : Online alphai _) := by
  intro s admitted
  refine (mulInplace_spec s.aa input).bind fun s₁ hs₁ => ?_
  rw [Online.meets_reveal, List.map_singleton, Online.index_zero, Program.ret_bind, hs₁.1, s.square]
  change legendreSym p _ = _
  rw [legendreSym, Int.cast_natCast, ZMod.natCast_zmod_val, ← pow_two, map_mul,
    quadraticChar_sq_one' (masks s admitted), one_mul]

theorem legendrePrf_spec
    (masks : ∀ m : Square alphai, A ⟨Site.square .legendre, m⟩ → val m.a ≠ 0)
    (key input : Shared n (ZMod p)) :
    Program.Meets A (fun res => res = if IsSquare (val key + val input) then 1 else 0) E
      (legendrePrf key input : Online alphai _) := by
  refine (legendre_spec masks (add key input)).bind fun res hres => ?_
  rw [Program.pure_eq, Program.meets_ret, hres, prfBit_quadraticChar, add, map_add]

end Values

end ProofOfCustody.OnlineOp
