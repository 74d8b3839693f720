import Mathlib
import ProofOfCustody.OnlineOp.Arith

/-!
# Bit operations of `OnlineOp`

Shared bits are shared values of `0` or `1`; bit vectors are little-endian. The sizes are checked
where the source checks them.
-/

namespace ProofOfCustody.OnlineOp
open Effect Spdz Shared Binary

variable {n : Nat} {F : Type} [Field F] {alphai : Fin n → F}

@[irreducible] def PSIZE : Nat := 381
@[irreducible] def QSIZE : Nat := 254

theorem PSIZE_eq : PSIZE = 381 := by rw [PSIZE]
theorem QSIZE_eq : QSIZE = 254 := by rw [QSIZE]
theorem PSIZE_pos : 0 < PSIZE := by rw [PSIZE_eq]; decide
theorem QSIZE_pos : 0 < QSIZE := by rw [QSIZE_eq]; decide
theorem PSIZE_le : PSIZE ≤ 2 ^ 31 := by rw [PSIZE_eq]; decide
theorem QSIZE_le : QSIZE ≤ 2 ^ 31 := by rw [QSIZE_eq]; decide

def XOR (a b : Shared n F) : Online alphai (Shared n F) := do
  let c := add a b
  let tmp ← mul a b
  let c := subInplace c tmp
  return subInplace c tmp

def XORVec (a b : List (Shared n F)) (k : Nat) : Online alphai (List (Shared n F)) := do
  if a.length ≠ k ∨ b.length ≠ k then Online.throw .invalid_length
  else
    let c ← addVec a b
    let tmp ← mulVec [] a b
    let c := subInplaceVec c tmp
    return subInplaceVec c tmp

def XORInplace (c a : Shared n F) : Online alphai (Shared n F) := XOR c a

def XORInplaceVec (c a : List (Shared n F)) (k : Nat) : Online alphai (List (Shared n F)) :=
  let c := resize c k
  XORVec c a k

def XORPlain (alphai : Fin n → F) (a : Shared n F) (b : F) : Shared n F :=
  let c := addPlain alphai a b
  let tmp := mulPlain a b
  let c := subInplace c tmp
  subInplace c tmp

def XORPlainVec (a : List (Shared n F)) (b : List F) (k : Nat) :
    Online alphai (List (Shared n F)) := do
  if a.length ≠ k ∨ b.length ≠ k then Online.throw .invalid_length
  else
    let c ← addPlainVec a b
    let tmp ← mulPlainVec a b
    let c := subInplaceVec c tmp
    return subInplaceVec c tmp

def OR (a b : Shared n F) : Online alphai (Shared n F) := do
  let c := add a b
  let tmp ← mul a b
  return subInplace c tmp

def ORVec (a b : List (Shared n F)) (k : Nat) : Online alphai (List (Shared n F)) := do
  if a.length ≠ k ∨ b.length ≠ k then Online.throw .invalid_length
  else
    let c ← addVec a b
    let tmp ← mulVec [] a b
    return subInplaceVec c tmp

def ORInplace (c a : Shared n F) : Online alphai (Shared n F) := OR c a

def ORInplaceVec (c a : List (Shared n F)) (k : Nat) : Online alphai (List (Shared n F)) :=
  ORVec c a k

def AND (a b : Shared n F) : Online alphai (Shared n F) := mul a b
def ANDInplace (c a : Shared n F) : Online alphai (Shared n F) := AND c a
def ANDPlain (a : Shared n F) (b : F) : Shared n F := mulPlain a b

/-- Halves the vector until one bit is left. For `k = 0` the recursion of the source never ends. -/
def KXOR (a : List (Shared n F)) (k : Nat) : Online alphai (Shared n F) := do
  if a.length ≠ k then Online.throw .invalid_length
  else if k = 0 then Online.throw .undefined
  else if k = 1 then return a.getD 0 0
  else if k % 2 = 0 then
    let half ← Online.defined (splitPairs a (k / 2))
    let half_c ← XORInplaceVec half.1 half.2 (k / 2)
    KXOR half_c (k / 2)
  else
    let half ← Online.defined (splitPairs a ((k - 1) / 2))
    let half_c ← XORInplaceVec half.1 half.2 (k / 2)
    KXOR (half_c ++ [a.getD (k - 1) 0]) ((k + 1) / 2)
termination_by k

def foldPairs (op : List (Shared n F) → List (Shared n F) → Nat → Online alphai (List (Shared n F)))
    (a : List (Shared n F)) (k : Nat) : Online alphai (Shared n F) := do
  if a.length ≠ k then Online.throw .invalid_length
  else if k = 0 then Online.throw .undefined
  else if k = 1 then return a.getD 0 0
  else if k % 2 = 0 then
    let half ← Online.defined (splitPairs a (k / 2))
    let half_c ← op half.1 half.2 (k / 2)
    foldPairs op half_c (k / 2)
  else
    let half ← Online.defined (splitPairs a ((k - 1) / 2))
    let half_c ← op half.1 half.2 (k / 2)
    foldPairs op (half_c ++ [a.getD (k - 1) 0]) ((k + 1) / 2)
termination_by k

def KOR (a : List (Shared n F)) (k : Nat) : Online alphai (Shared n F) :=
  foldPairs ORInplaceVec a k

def prefixOR (a : List (Shared n F)) (k : Nat) : Online alphai (List (Shared n F)) := do
  if a.length ≠ k then Online.throw .invalid_length
  else if k = 0 then Online.throw .undefined
  else if k = 1 then return [a.getD 0 0]
  else
    let half := k / 2
    let half_a0 := a.take half
    let half_a1 := a.drop half
    let half_c0 ← prefixOR half_a0 half
    let half_c1 ← prefixOR half_a1 (k - half)
    let tmp := List.replicate (k - half) (half_c0.getD (half - 1) 0)
    let tmp ← ORInplaceVec tmp half_c1 (k - half)
    return half_c0 ++ tmp
termination_by k

def lt (a b : List (Shared n F)) (k : Nat) : Online alphai (Shared n F) := do
  let c ← XORVec a b k
  let d ← prefixOR c.reverse k
  let e ← Online.defined (differences sub d.reverse k)
  let tmp ← mulVec [] e b
  Online.defined (sumEntries addInplace tmp k)

def ltPlain (a : List (Shared n F)) (b : List F) (k : Nat) : Online alphai (Shared n F) := do
  let c ← XORPlainVec a b k
  let d ← prefixOR c.reverse k
  let e ← Online.defined (differences sub d.reverse k)
  let tmp ← mulPlainVec e b
  Online.defined (sumEntries addInplace tmp k)

def carrySum (x y ca_in : Shared n F) : Online alphai (Shared n F × Shared n F) := do
  let s ← XOR x y
  let s ← XORInplace s ca_in
  let tmp ← XOR x ca_in
  let ca_out ← XOR y ca_in
  let ca_out ← ANDInplace ca_out tmp
  let ca_out ← XORInplace ca_out ca_in
  return (ca_out, s)

def carrySumPlain (x : Shared n F) (y : F) (ca_in : Shared n F) :
    Online alphai (Shared n F × Shared n F) := do
  let s := XORPlain alphai x y
  let s ← XORInplace s ca_in
  let ca_out := ANDPlain x y
  let tmp := XORPlain alphai x y
  let tmp ← ANDInplace tmp ca_in
  let ca_out ← ORInplace ca_out tmp
  return (ca_out, s)

/-- The outgoing carry is default-constructed and only assigned inside the loop. Entries of `c` that
the loop does not come to keep what they held. -/
def addBit (c a b : List (Shared n F)) : Online alphai (List (Shared n F)) := do
  if a.length ≠ b.length then Online.throw .invalid_length
  else
    let c := resize c (a.length + 1)
    let a₀ ← Online.index a 0
    let b₀ ← Online.index b 0
    let ca_in ← AND a₀ b₀
    let c₀ ← XOR a₀ b₀
    let (sum, _, ca_out) ← Program.forRange (fun i (sum, ca_in, _) => do
      let ai ← Online.index a i
      let bi ← Online.index b i
      let (ca_out, ci) ← carrySum ai bi ca_in
      return (sum ++ [ci], ca_out, ca_out)) 1 (intRounds a.length - 1) ([c₀], ca_in, 0)
    return sum ++ (c.drop sum.length).dropLast ++ [ca_out]

def addBitPlain (c a : List (Shared n F)) (b : List F) : Online alphai (List (Shared n F)) := do
  if a.length ≠ b.length then Online.throw .invalid_length
  else
    let c := resize c (a.length + 1)
    let a₀ ← Online.index a 0
    let b₀ ← Online.index b 0
    let ca_in := ANDPlain a₀ b₀
    let c₀ := XORPlain alphai a₀ b₀
    let (sum, _, ca_out) ← Program.forRange (fun i (sum, ca_in, _) => do
      let ai ← Online.index a i
      let bi ← Online.index b i
      let (ca_out, ci) ← carrySumPlain ai bi ca_in
      return (sum ++ [ci], ca_out, ca_out)) 1 (intRounds a.length - 1) ([c₀], ca_in, 0)
    return sum ++ (c.drop sum.length).dropLast ++ [ca_out]

/-- The overload for integers; `tmp & ONE` is `tmp % 2`. -/
def decompose (x : Int) (k : Nat) : Option (List F) :=
  shiftBits (fun tmp : Int => ((tmp % 2 : Int) : F)) (fun tmp => tmp >>> (1 : Nat)) x k

def B2A (bits : List (Shared n F)) (k : Nat) : Option (Shared n F) :=
  sumPowers (fun bi i => mulPlain bi (power 2 i)) addInplace bits k

section Modulus
variable {p : Nat} [Fact p.Prime] {alphai : Fin n → ZMod p}

/-- `while (1)` with a bound on the number of rounds: random bits until they encode less than `p`. -/
def preRand : Nat → Online alphai (Shared n (ZMod p) × List (Shared n (ZMod p)))
  | 0 => Online.throw .outOfFuel
  | fuel + 1 => do
      let bitr ← (List.range PSIZE).mapM fun _ => do
        let tmp ← Online.getOne
        return tmp.bit
      let pbits ← Online.defined (decompose p PSIZE)
      let flag ← ltPlain bitr pbits PSIZE
      let pflag ← Online.reveal .flag [flag]
      let pflag₀ ← Online.index pflag 0
      if pflag₀ = 1 then
        let r ← Online.defined (B2A bitr PSIZE)
        return (r, bitr)
      else preRand fuel

def unmask (a r : Shared n (ZMod p)) (bitr : List (Shared n (ZMod p))) :
    Online alphai (List (Shared n (ZMod p))) := do
  let c := sub a r
  let cp ← Online.reveal .difference [c]
  let cp₀ ← Online.index cp 0
  let bcp : Int := cp₀.val
  if bcp = 0 then return bitr
  else
    let bound ← Online.defined (decompose (p - bcp) PSIZE)
    let factor ← ltPlain bitr bound PSIZE
    -- share of 1-factor
    let tmp := mulPlain factor 2
    let factor := subInplace factor tmp
    let factor := addPlainInplace alphai factor 1
    let f ← Online.defined (decompose bcp PSIZE)
    let tf ← Online.defined (decompose (((2 : Int) <<< PSIZE) + bcp - p) PSIZE)
    let tg := (List.range PSIZE).map fun i =>
      addPlainInplace alphai (mulPlain factor (tf.getD i 0 - f.getD i 0)) (f.getD i 0)
    let bits ← addBit [] tg bitr
    return bits.dropLast

def A2B (fuel : Nat) (a : Shared n (ZMod p)) : Online alphai (List (Shared n (ZMod p))) := do
  let (r, bitr) ← preRand fuel
  unmask a r bitr

end Modulus

end ProofOfCustody.OnlineOp
