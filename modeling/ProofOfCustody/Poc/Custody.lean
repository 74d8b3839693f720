import Mathlib
import ProofOfCustody.OnlineOp.Hash

/-!
# The custody bit

The functions take the chunk count as a parameter `N`; the source fixes it to `CHUNK_NUM`.
-/

namespace ProofOfCustody.Poc
open Effect Spdz Shared OnlineOp

@[irreducible] def CHUNK_NUM : Nat := 256 * 1024 / 32

theorem CHUNK_NUM_eq : CHUNK_NUM = 8192 := by rw [CHUNK_NUM]

section Table
variable {n : Nat} {F : Type} [Field F] {alphai : Fin n → F} {α : Type}

def assign (xs : List α) (i : Nat) (x : α) : Online alphai (List α) :=
  if i < xs.length then return xs.set i x else Online.throw .undefined

def back (xs : List α) : Online alphai α :=
  match xs.getLast? with
  | some x => return x
  | none => Online.throw .undefined

/-- pre_key = (s_1, s_0^2, s_1^3, s_0^4,...,) -/
def computeCustodyBitOffline (N : Nat) (keys : List (Shared n F)) :
    Online alphai (List (Shared n F)) := do
  if keys.length ≠ 2 then Online.throw .invalid_length
  else
    let pre_key := List.replicate N 0
    let keys₀ ← Online.index keys 0
    let keys₁ ← Online.index keys 1
    let s0_square ← sqr keys₀
    let s1_square ← sqr keys₁
    let pre_key ← assign pre_key 0 keys₁
    let pre_key ← assign pre_key 1 s0_square
    Program.forRange (fun i pre_key => do
      let prev ← Online.index pre_key (i - 2)
      let c ← mul prev (if i % 2 = 0 then s1_square else s0_square)
      assign pre_key i c) 2 (N - 2) pre_key

/-- s1, s2^2, s0^3, s1^4, s2^5, s0^6, constant not considered -/
def computeCustodyBitOffline2primes (N : Nat) (keys : List (Shared n F)) :
    Online alphai (List (Shared n F)) := do
  if keys.length ≠ 3 then Online.throw .bad_value
  else
    let pre_key := List.replicate N 0
    let keys₀ ← Online.index keys 0
    let keys₁ ← Online.index keys 1
    let keys₂ ← Online.index keys 2
    let s0_cube ← sqr keys₀
    let s0_cube ← mulInplace s0_cube keys₀
    let s1_cube ← sqr keys₁
    let s1_cube ← mulInplace s1_cube keys₁
    let s2_cube ← sqr keys₂
    let pre_key ← assign pre_key 1 s2_cube
    let s2_cube ← mulInplace s2_cube keys₂
    let pre_key ← assign pre_key 0 keys₁
    let pre_key ← assign pre_key 2 s0_cube
    Program.forRange (fun i pre_key => do
      let prev ← Online.index pre_key (i - 3)
      let c ← mul prev (if i % 3 = 0 then s1_cube else if i % 3 = 1 then s2_cube else s0_cube)
      assign pre_key i c) 3 (N - 3) pre_key

/-- The sum of the message against the table, which both online functions spell out. -/
def hashTable (pre_key : List (Shared n F)) (msg : List F) : Online alphai (Shared n F) := do
  let pre_key₀ ← Online.index pre_key 0
  let msg₁ ← Online.index msg 1
  let uhf_out := mulPlain pre_key₀ msg₁
  let msg₀ ← Online.index msg 0
  let uhf_out := addPlainInplace alphai uhf_out msg₀ -- m[0] + m[1]*s1
  let uhf_out ← Program.forRange (fun i uhf_out => do
    let key ← Online.index pre_key (i - 1)
    let msgi ← Online.index msg i
    let tmp := mulPlain key msgi
    return addInplace uhf_out tmp) 2 (msg.length - 2) uhf_out
  let last ← back pre_key
  return addInplace uhf_out last

end Table

section Bit
variable {n p : Nat} [Fact p.Prime] {alphai : Fin n → ZMod p}

def computeCustodyBitOnline (N : Nat) (pre_key : List (Shared n (ZMod p))) (msg : List (ZMod p)) :
    Online alphai Int := do
  if msg.length ≠ N then Online.throw .invalid_length
  else
    let uhf_out ← hashTable pre_key msg
    let pre_key₀ ← Online.index pre_key 0
    legendrePrf pre_key₀ uhf_out

def computeCustodyBit (N : Nat) (keys : List (Shared n (ZMod p))) (msg : List (ZMod p)) :
    Online alphai Int := do
  if keys.length ≠ 2 then Online.throw .invalid_length
  else
    let keys₀ ← Online.index keys 0
    let uhf_out ← uhf keys₀ msg N
    let keys₁ ← Online.index keys 1
    legendrePrf keys₁ uhf_out

def computeCustodyBitOnline2primes (N : Nat) (pre_key : List (Shared n (ZMod p)))
    (key : Shared n (ZMod p)) (msg : List (ZMod p)) : Online alphai Int := do
  if msg.length ≠ N then Online.throw .bad_value
  else
    let uhf_out ← hashTable pre_key msg
    Program.forRange (fun i res => do
      let count : ZMod p := i
      let input := addPlain alphai uhf_out count
      let bit ← legendrePrf key input
      return Int.lor res bit) 0 10 0

end Bit

end ProofOfCustody.Poc
