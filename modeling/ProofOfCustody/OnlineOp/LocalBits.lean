import Mathlib
import ProofOfCustody.OnlineOp.Bits
import ProofOfCustody.OnlineOp.Local

/-!
# Bit operations of one player

The bit operations that the two stages use, on the shares of one player.
-/

namespace ProofOfCustody.OnlineOp.Local
open Effect Spdz Binary

variable {n : Nat} {F : Type} [Field F] [DecidableEq F]

section Bits
variable (K : Seat n F)

def addVec (a b : List (Share F)) : Local n F (List (Share F)) := zipVec add a b
def addPlainVec (a : List (Share F)) (b : List F) : Local n F (List (Share F)) :=
  zipVec (addPlain K) a b
def mulPlainVec (a : List (Share F)) (b : List F) : Local n F (List (Share F)) := zipVec mulPlain a b
def subInplaceVec (c a : List (Share F)) : List (Share F) := zipVecInplace subInplace c a

def XOR (a b : Share F) : Local n F (Share F) := do
  let c := add a b
  let tmp ← mul K a b
  let c := subInplace c tmp
  return subInplace c tmp

def XORVec (a b : List (Share F)) (k : Nat) : Local n F (List (Share F)) := do
  if a.length ≠ k ∨ b.length ≠ k then Local.throw .invalid_length
  else
    let c ← addVec a b
    let tmp ← mulVec K [] a b
    let c := subInplaceVec c tmp
    return subInplaceVec c tmp

def XORInplace (c a : Share F) : Local n F (Share F) := XOR K c a

def XORInplaceVec (c a : List (Share F)) (k : Nat) : Local n F (List (Share F)) :=
  let c := resize c k
  XORVec K c a k

def XORPlain (a : Share F) (b : F) : Share F :=
  let c := addPlain K a b
  let tmp := mulPlain a b
  let c := subInplace c tmp
  subInplace c tmp

def XORPlainVec (a : List (Share F)) (b : List F) (k : Nat) : Local n F (List (Share F)) := do
  if a.length ≠ k ∨ b.length ≠ k then Local.throw .invalid_length
  else
    let c ← addPlainVec K a b
    let tmp ← mulPlainVec a b
    let c := subInplaceVec c tmp
    return subInplaceVec c tmp

def ORVec (a b : List (Share F)) (k : Nat) : Local n F (List (Share F)) := do
  if a.length ≠ k ∨ b.length ≠ k then Local.throw .invalid_length
  else
    let c ← addVec a b
    let tmp ← mulVec K [] a b
    return subInplaceVec c tmp

def ORInplaceVec (c a : List (Share F)) (k : Nat) : Local n F (List (Share F)) := ORVec K c a k

def AND (a b : Share F) : Local n F (Share F) := mul K a b
def ANDInplace (c a : Share F) : Local n F (Share F) := AND K c a

def KXOR (a : List (Share F)) (k : Nat) : Local n F (Share F) := do
  if a.length ≠ k then Local.throw .invalid_length
  else if k = 0 then Local.throw .undefined
  else if k = 1 then return a.getD 0 0
  else if k % 2 = 0 then
    let half ← Local.defined (splitPairs a (k / 2))
    let half_c ← XORInplaceVec K half.1 half.2 (k / 2)
    KXOR half_c (k / 2)
  else
    let half ← Local.defined (splitPairs a ((k - 1) / 2))
    let half_c ← XORInplaceVec K half.1 half.2 (k / 2)
    KXOR (half_c ++ [a.getD (k - 1) 0]) ((k + 1) / 2)
termination_by k

def prefixOR (a : List (Share F)) (k : Nat) : Local n F (List (Share F)) := do
  if a.length ≠ k then Local.throw .invalid_length
  else if k = 0 then Local.throw .undefined
  else if k = 1 then return [a.getD 0 0]
  else
    let half := k / 2
    let half_a0 := a.take half
    let half_a1 := a.drop half
    let half_c0 ← prefixOR half_a0 half
    let half_c1 ← prefixOR half_a1 (k - half)
    let tmp := List.replicate (k - half) (half_c0.getD (half - 1) 0)
    let tmp ← ORInplaceVec K tmp half_c1 (k - half)
    return half_c0 ++ tmp
termination_by k

def ltPlain (a : List (Share F)) (b : List F) (k : Nat) : Local n F (Share F) := do
  let c ← XORPlainVec K a b k
  let d ← prefixOR K c.reverse k
  let e ← Local.defined (differences sub d.reverse k)
  let tmp ← mulPlainVec e b
  Local.defined (sumEntries addInplace tmp k)

def carrySum (x y ca_in : Share F) : Local n F (Share F × Share F) := do
  let s ← XOR K x y
  let s ← XORInplace K s ca_in
  let tmp ← XOR K x ca_in
  let ca_out ← XOR K y ca_in
  let ca_out ← ANDInplace K ca_out tmp
  let ca_out ← XORInplace K ca_out ca_in
  return (ca_out, s)

def addBit (c a b : List (Share F)) : Local n F (List (Share F)) := do
  if a.length ≠ b.length then Local.throw .invalid_length
  else
    let c := resize c (a.length + 1)
    let a₀ ← Local.index a 0
    let b₀ ← Local.index b 0
    let ca_in ← AND K a₀ b₀
    let c₀ ← XOR K a₀ b₀
    let (sum, _, ca_out) ← Local.forRange (fun i (sum, ca_in, _) => do
      let ai ← Local.index a i
      let bi ← Local.index b i
      let (ca_out, ci) ← carrySum K ai bi ca_in
      return (sum ++ [ci], ca_out, ca_out)) 1 (intRounds a.length - 1) ([c₀], ca_in, 0)
    return sum ++ (c.drop sum.length).dropLast ++ [ca_out]

end Bits

def B2A (bits : List (Share F)) (k : Nat) : Option (Share F) :=
  sumPowers (fun bi i => mulPlain bi (power (1 + 1) i)) addInplace bits k

section Modulus
variable {p : Nat} [Fact p.Prime] (K : Seat n (ZMod p))

def preRand : Nat → Local n (ZMod p) (Share (ZMod p) × List (Share (ZMod p)))
  | 0 => Local.throw .outOfFuel
  | fuel + 1 => do
      let bitr ← (List.range PSIZE).mapM fun _ => Local.getOne
      let pbits ← Local.defined (decompose p PSIZE)
      let flag ← ltPlain K bitr pbits PSIZE
      let pflag ← Local.reveal K [flag]
      let pflag₀ ← Local.index pflag 0
      if pflag₀ = 1 then
        let r ← Local.defined (B2A bitr PSIZE)
        return (r, bitr)
      else preRand fuel

def unmask (a r : Share (ZMod p)) (bitr : List (Share (ZMod p))) :
    Local n (ZMod p) (List (Share (ZMod p))) := do
  let c := sub a r
  let cp ← Local.reveal K [c]
  let cp₀ ← Local.index cp 0
  let bcp : Int := cp₀.val
  if bcp = 0 then return bitr
  else
    let bound ← Local.defined (decompose (p - bcp) PSIZE)
    let factor ← ltPlain K bitr bound PSIZE
    -- share of 1-factor
    let tmp := mulPlain factor (1 + 1)
    let factor := subInplace factor tmp
    let factor := addPlainInplace K factor 1
    let f ← Local.defined (decompose bcp PSIZE)
    let tf ← Local.defined (decompose (((2 : Int) <<< PSIZE) + bcp - p) PSIZE)
    let tg := (List.range PSIZE).map fun i =>
      addPlainInplace K (mulPlain factor (tf.getD i 0 - f.getD i 0)) (f.getD i 0)
    let bits ← addBit K [] tg bitr
    return bits.dropLast

def A2B (fuel : Nat) (a : Share (ZMod p)) : Local n (ZMod p) (List (Share (ZMod p))) := do
  let (r, bitr) ← preRand K fuel
  unmask K a r bitr

end Modulus

end ProofOfCustody.OnlineOp.Local
