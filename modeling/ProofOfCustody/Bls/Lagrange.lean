import Mathlib
import ProofOfCustody.Binary.Counter
import ProofOfCustody.Spdz.Online

/-!
# `get_lagrange_coeff`

The type `mclBnFr` of the library is the field `ZMod r`.
-/

namespace ProofOfCustody.Bls
open Spdz Binary

variable {r : Nat} [Fact r.Prime]

def lagrangeStep (pos : Nat) (prods : ZMod r × ZMod r) (k : Nat) : ZMod r × ZMod r :=
  let (nume_prod, deno_prod) := prods
  if k ≠ pos then
    let xi : ZMod r := (toInt32 pos : Int)
    let xk : ZMod r := (toInt32 (-toInt32 k) : Int)
    let nume_prod := nume_prod * xk
    let xk := xi + xk
    let deno_prod := deno_prod * xk
    (nume_prod, deno_prod)
  else (nume_prod, deno_prod)

def getLagrangeCoeff (n pos : Nat) : Except Err (ZMod r) :=
  if pos ≤ 0 ∨ pos > n then throw .invalid_length
  -- every `k` is at most the greatest `unsigned`: the loop does not end
  else if 2 ^ 32 ≤ n + 1 then throw .undefined
  else
    let (nume_prod, deno_prod) := (List.range' 1 n).foldl (lagrangeStep pos) (1, 1)
    let lc := deno_prod⁻¹
    let lc := lc * nume_prod
    return lc

end ProofOfCustody.Bls
