import Mathlib
import ProofOfCustody.OnlineOp.LocalBitsSpec
import ProofOfCustody.OnlineOp.LocalComplex
import ProofOfCustody.Poc.Pipeline

/-!
# The two stages of one player

What `run` of the program calls between the set-up and the last check.
-/

namespace ProofOfCustody.Poc.Local
open Effect Spdz Network Curve OnlineOp.Local
open OnlineOp (PSIZE QSIZE)

variable {n : Nat} {F : Type} [Field F] [DecidableEq F] {α : Type}

section Transport
variable (K : Seat n F)

/-- Every player inputs its bit in turn; what it passes for the others is not used. -/
def sharedRandBits (local_bits : List Int) : Local n F (List (Share F)) :=
  (List.range (2 * PSIZE)).mapM fun j => do
    let sbit ← (List.finRange n).mapM fun i => do
      let bit ← Local.index local_bits j
      let tmp : F := (bit : Int)
      Processor.getInputs K i tmp
    KXOR K sbit n

def sharedRandBitsPhaseOne (rnd : Octets) : Local n F (List (Share F) × List Int) := do
  let local_bits := localBits rnd
  let shared_bits ← sharedRandBits K local_bits
  return (shared_bits, local_bits)

def xorAndCombine (shared_bits : List (Share F)) (reveal_bits : List Int) :
    Local n F (List (Share F)) :=
  if shared_bits.length ≠ 3 * QSIZE ∨ reveal_bits.length ≠ 3 * QSIZE then Local.throw .invalid_length
  else
    let tmp := List.zipWith (fun s r => XORPlain K s ((r : Int) : F)) shared_bits reveal_bits
    (List.range 3).mapM fun i =>
      let out := (tmp.drop (i * QSIZE)).take QSIZE
      Local.defined (B2A out QSIZE)

def transportPhaseTwo (local_bits reveal_bits : List Int) : Local n F (List (Share F)) := do
  let shared_bits ← sharedRandBits K local_bits
  xorAndCombine K shared_bits reveal_bits

end Transport

section Modulus
variable {p : Nat} [Fact p.Prime] (K : Seat n (ZMod p))

def decomposeAndReveal (fuel : Nat) (keys shared_bits : List (Share (ZMod p))) :
    Local n (ZMod p) (List Int) := do
  if keys.length ≠ 2 ∨ shared_bits.length ≠ 2 * PSIZE then Local.throw .invalid_length
  else
    let keys₀ ← Local.index keys 0
    let deco_bits ← A2B K fuel keys₀
    let keys₁ ← Local.index keys 1
    let tmp ← A2B K fuel keys₁
    let deco_bits := deco_bits ++ tmp
    let xored ← (List.range shared_bits.length).mapM fun i => do
      let d ← Local.index deco_bits i
      let s ← Local.index shared_bits i
      XORInplace K d s
    let deco_bits := xored ++ deco_bits.drop shared_bits.length
    let out ← Local.reveal K deco_bits
    (List.range (2 * PSIZE)).mapM fun i => do
      let o ← Local.index out i
      return (o.val : Int)

def transportPhaseOne (fuel : Nat) (rnd : Octets) (x0 x1 : Share (ZMod p)) :
    Local n (ZMod p) (List Int × List Int) := do
  let (shared_bits, local_bits) ← sharedRandBitsPhaseOne K rnd
  let reveal_bits ← decomposeAndReveal K fuel [x0, x1] shared_bits
  return (reveal_bits, local_bits)

end Modulus

def assign (xs : List α) (i : Nat) (x : α) : Local n F (List α) :=
  if i < xs.length then return xs.set i x else Local.throw .undefined

def back (xs : List α) : Local n F α :=
  match xs.getLast? with
  | some x => return x
  | none => Local.throw .undefined

section Custody
variable (K : Seat n F)

def computeCustodyBitOffline2primes (N : Nat) (keys : List (Share F)) :
    Local n F (List (Share F)) := do
  if keys.length ≠ 3 then Local.throw .bad_value
  else
    let pre_key := List.replicate N 0
    let keys₀ ← Local.index keys 0
    let keys₁ ← Local.index keys 1
    let keys₂ ← Local.index keys 2
    let s0_cube ← sqr K keys₀
    let s0_cube ← mulInplace K s0_cube keys₀
    let s1_cube ← sqr K keys₁
    let s1_cube ← mulInplace K s1_cube keys₁
    let s2_cube ← sqr K keys₂
    let pre_key ← assign pre_key 1 s2_cube
    let s2_cube ← mulInplace K s2_cube keys₂
    let pre_key ← assign pre_key 0 keys₁
    let pre_key ← assign pre_key 2 s0_cube
    Local.forRange (fun i pre_key => do
      let prev ← Local.index pre_key (i - 3)
      let c ← mul K prev (if i % 3 = 0 then s1_cube else if i % 3 = 1 then s2_cube else s0_cube)
      assign pre_key i c) 3 (N - 3) pre_key

def hashTable (pre_key : List (Share F)) (msg : List F) : Local n F (Share F) := do
  let pre_key₀ ← Local.index pre_key 0
  let msg₁ ← Local.index msg 1
  let uhf_out := mulPlain pre_key₀ msg₁
  let msg₀ ← Local.index msg 0
  let uhf_out := addPlainInplace K uhf_out msg₀
  let uhf_out ← Local.forRange (fun i uhf_out => do
    let key ← Local.index pre_key (i - 1)
    let msgi ← Local.index msg i
    let tmp := mulPlain key msgi
    return addInplace uhf_out tmp) 2 (msg.length - 2) uhf_out
  let last ← back pre_key
  return addInplace uhf_out last

end Custody

section Bit
variable {p : Nat} [Fact p.Prime] (K : Seat n (ZMod p))

def computeCustodyBitOnline2primes (N : Nat) (pre_key : List (Share (ZMod p)))
    (key : Share (ZMod p)) (msg : List (ZMod p)) : Local n (ZMod p) Int := do
  if msg.length ≠ N then Local.throw .bad_value
  else
    let uhf_out ← hashTable K pre_key msg
    Local.forRange (fun i res => do
      let count : ZMod p := i
      let input := addPlain K uhf_out count
      let bit ← legendrePrf K key input
      return Int.lor res bit) 0 10 0

end Bit

section Stages
variable {p r : Nat} [Fact p.Prime] [Fact r.Prime] (K : Seat n (ZMod p))

def ofExcept : Except Err α → Local n (ZMod p) α
  | .ok a => pure a
  | .error e => Local.throw e

section Sign
variable {G1 G2 GT : Type} [AddCommGroup G2] [Module (ZMod r) G2] (mcl : Bls.Mcl G1 G2 GT)

def dstbSign (sk : ZMod r) (msg : String) :
    Local n (ZMod p) (Affine (OnlineOp.Complex (Share (ZMod p)))) := do
  let s ← ofExcept (Bls.scaledSignature mcl n K.my_num sk msg)
  let ac ← (List.finRange n).mapM fun i => do
    let si := if K.my_num = i then s else (⟨0, 0⟩, ⟨0, 0⟩)
    let x ← Complex.getInputs K i si.1
    let y ← Complex.getInputs K i si.2
    return ⟨x, y⟩
  let out ← Local.index ac 0
  Local.forRange (fun i out => do
    let aci ← Local.index ac i
    addAffInplace K out aci) 1 (n - 1) out

def runPhaseOne (fuel : Nat) (sk : ZMod r) (msg : String) (rnd : Octets) :
    Local n (ZMod p) (List Int × List Int) := do
  let ac ← dstbSign K mcl sk msg
  let ek_tmp₀ := ac.x.real
  let ek_tmp₁ := ac.x.imag
  transportPhaseOne K fuel rnd ek_tmp₀ ek_tmp₁

end Sign

def runStageTwo (local_bits reveal_bits : List Int) (msgs : List (List (ZMod p))) :
    Local n (ZMod p) (List Int) := do
  let ek ← transportPhaseTwo K local_bits reveal_bits
  let pre_key ← computeCustodyBitOffline2primes K CHUNK_NUM ek
  msgs.mapM fun msg => do
    let ek₀ ← Local.index ek 0
    computeCustodyBitOnline2primes K CHUNK_NUM pre_key ek₀ msg

end Stages

end ProofOfCustody.Poc.Local
