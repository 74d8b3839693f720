import Mathlib
import ProofOfCustody.OnlineOp.Inputs

/-!
# Carrying a key from one field to the other

Phase one works over `F_p`: it shares random bits, decomposes the key and reveals the XOR of the
two. Phase two works over `F_q`: it shares the same bits again and takes the XOR away.
-/

namespace ProofOfCustody.Poc
open Effect Spdz Shared OnlineOp

variable {n : Nat}

abbrev Octets := Fin 96 → UInt8

theorem octet_lt (i : Fin (2 * PSIZE)) : i.val / 8 < 96 := by
  have := i.isLt
  have := PSIZE_eq
  omega

/-- `(rnd[i / 8] >> (i % 8)) & 1` -/
def localBits (rnd : Octets) : List Int :=
  List.ofFn fun i : Fin (2 * PSIZE) => (((rnd ⟨i / 8, octet_lt i⟩).toNat >>> (i.val % 8)) % 2 : Nat)

section Shared
variable {F : Type} [Field F] {alphai : Fin n → F}

/-- The loop of both `shared_rand_bits_phase_one` and `shared_rand_bits_phase_two`. -/
def sharedRandBits (local_bits : Fin n → List Int) : Online alphai (List (Shared n F)) :=
  (List.range (2 * PSIZE)).mapM fun j => do
    let sbit ← (List.finRange n).mapM fun i => do
      if ∀ player, j < (local_bits player).length then
        let tmp := fun player => (((local_bits player).getD j 0 : Int) : F)
        getInputs i tmp
      else Online.throw .undefined
    KXOR sbit n

def sharedRandBitsPhaseOne (rnd : Fin n → Octets) :
    Online alphai (List (Shared n F) × (Fin n → List Int)) := do
  let local_bits := fun player => localBits (rnd player)
  let shared_bits ← sharedRandBits local_bits
  return (shared_bits, local_bits)

def sharedRandBitsPhaseTwo (local_bits : Fin n → List Int) : Online alphai (List (Shared n F)) :=
  sharedRandBits local_bits

def xorAndCombine (shared_bits : List (Shared n F)) (reveal_bits : List Int) :
    Online alphai (List (Shared n F)) :=
  if shared_bits.length ≠ 3 * QSIZE ∨ reveal_bits.length ≠ 3 * QSIZE then
    Online.throw .invalid_length
  else
    let tmp := List.zipWith (fun s r => XORPlain alphai s ((r : Int) : F)) shared_bits reveal_bits
    (List.range 3).mapM fun i =>
      let out := (tmp.drop (i * QSIZE)).take QSIZE
      Online.defined (B2A out QSIZE)

end Shared

section Modulus
variable {p : Nat} [Fact p.Prime] {alphai : Fin n → ZMod p}

def decomposeAndReveal (fuel : Nat) (keys shared_bits : List (Shared n (ZMod p))) :
    Online alphai (List Int) := do
  if keys.length ≠ 2 ∨ shared_bits.length ≠ 2 * PSIZE then Online.throw .invalid_length
  else
    let keys₀ ← Online.index keys 0
    let deco_bits ← A2B fuel keys₀
    let keys₁ ← Online.index keys 1
    let tmp ← A2B fuel keys₁
    let deco_bits := deco_bits ++ tmp
    let xored ← (List.range shared_bits.length).mapM fun i => do
      let d ← Online.index deco_bits i
      let s ← Online.index shared_bits i
      XORInplace d s
    let deco_bits := xored ++ deco_bits.drop shared_bits.length
    let out ← Online.reveal .bits deco_bits
    (List.range (2 * PSIZE)).mapM fun i => do
      let o ← Online.index out i
      return (o.val : Int)

def transportPhaseOne (fuel : Nat) (rnd : Fin n → Octets) (x0 x1 : Shared n (ZMod p)) :
    Online alphai (List Int × (Fin n → List Int)) := do
  let (shared_bits, local_bits) ← sharedRandBitsPhaseOne rnd
  let reveal_bits ← decomposeAndReveal fuel [x0, x1] shared_bits
  return (reveal_bits, local_bits)

end Modulus

def transportPhaseTwo {F : Type} [Field F] {alphai : Fin n → F} (local_bits : Fin n → List Int)
    (reveal_bits : List Int) : Online alphai (List (Shared n F)) := do
  let shared_bits ← sharedRandBitsPhaseTwo local_bits
  xorAndCombine shared_bits reveal_bits

end ProofOfCustody.Poc
