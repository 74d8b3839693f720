import Mathlib
import ProofOfCustody.Bls.Commit
import ProofOfCustody.Bls.Vss
import ProofOfCustody.Network.Execution

/-!
# Distributed key generation

`BLS_::dstb_keygen` of one player as a process. The result holds what the object is left with, also
when the call throws.
-/

namespace ProofOfCustody.Bls
open Network Process

structure Library (r : Nat) (G1 : Type) extends Evaluator r G1 where
  hash : OctetStream → OctetStream
  serializeFr : ZMod r → OctetStream
  /-- The output's old value comes first: a string that is no residue may leave it. -/
  deserializeFr : ZMod r → OctetStream → ZMod r
  serializeG1 : G1 → OctetStream
  deserializeG1 : G1 → OctetStream → G1

structure BLS (r : Nat) (G1 G2 : Type) where
  sk : ZMod r
  vk : G1
  sigma : G2
  nparty : Nat
  threshold : Nat

structure Coins (n r : Nat) (G1 : Type) where
  /-- The secret and then the other coefficients. -/
  draw : Nat → ZMod r
  seed : Fin SEED_SIZE → UInt8
  /-- The variable `a0` of every iteration of the last loop. -/
  a0 : Fin n → G1

structure Contribution (r : Nat) (G1 : Type) where
  os_comm : OctetStream
  os_open : OctetStream
  tmp_share : ZMod r
  aux_tmp : List G1

variable {n r : Nat} [Fact r.Prime] {G1 G2 : Type} [AddCommGroup G1] [Module (ZMod r) G1]
  [DecidableEq G1]

structure Library.Documented (lib : Library r G1) : Prop
    extends lib.toEvaluator.Documented where
  generates : ∀ P, ∃ a : ZMod r, P = a • lib.basePointG1
  deserializeFr_serialize : ∀ old a, lib.deserializeFr old (lib.serializeFr a) = a
  deserializeG1_serialize : ∀ old P, lib.deserializeG1 old (lib.serializeG1 P) = P

section Player
variable {M : Type}

def sendAll (my_num : Fin n) (o : M) : Process (Fin n) M PUnit :=
  forM (List.finRange n) fun i => if i ≠ my_num then sendTo i o else pure ⟨⟩

def receiveAll (my_num : Fin n) : Process (Fin n) OctetStream (Fin n → OctetStream) :=
  readOthers my_num receive (List.finRange n) fun _ => []

end Player

/-- The conjunction of `res1`, `res2` and `res3`. -/
def checkContribution (lib : Library r G1) (my_num : Fin n) (a0 : G1) (c : Contribution r G1) :
    Except Failure Bool := do
  let (res1, ss) ← openCommitment lib.hash c.os_comm c.os_open 1
  let res2 ← verifyShare lib.toEvaluator c.tmp_share c.aux_tmp (my_num + 1)
  let a0 := lib.deserializeG1 a0 ss
  let res3 : Bool := a0 = c.aux_tmp.headD 0
  return res1 && res2 && res3

def checkLoop (lib : Library r G1) (my_num : Fin n) (a0 : Fin n → G1)
    (c : Fin n → Contribution r G1) :
    List (Fin n) → BLS r G1 G2 → Except Failure Unit × BLS r G1 G2
  | [], bls => (.ok (), bls)
  | i :: players, bls =>
    if i ≠ my_num then
      match checkContribution lib my_num (a0 i) (c i) with
      | .error e => (.error e, bls)
      | .ok false => (.error .invalid_commitment, bls)
      | .ok true => checkLoop lib my_num a0 c players
          { bls with sk := bls.sk + (c i).tmp_share, vk := bls.vk + (c i).aux_tmp.headD 0 }
    else checkLoop lib my_num a0 c players bls

def dstbKeygen (lib : Library r G1) (my_num : Fin n) (coins : Coins n r G1) (bls : BLS r G1 G2) :
    Process (Fin n) OctetStream (Except Failure Unit × BLS r G1 G2) :=
  if bls.threshold > bls.nparty then return (.error .invalid_setting, bls)
  else match genShare lib.toEvaluator bls.nparty bls.threshold coins.draw with
  | .error e => return (.error e, bls)
  | .ok (shs, aux) => do
    if shs.length < n then return (.error .undefined, bls)
    else
      let bls := { bls with sk := shs.getD my_num 0, vk := aux.headD 0 }
      let os_data := lib.serializeG1 (aux.headD 0)
      let (os_comm, os_open) := commit lib.hash os_data 1 coins.seed
      sendAll my_num os_comm
      let os_comms ← receiveAll my_num
      sendAll my_num os_open
      let os_opens ← receiveAll my_num
      -- send shares
      forM (List.finRange n) fun i =>
        if i ≠ my_num then sendTo i (lib.serializeFr (shs.getD i 0)) else pure ⟨⟩
      let tmp_shares ← readOthers my_num
        (fun i => do
          let os_ss ← receive i
          return lib.deserializeFr 0 os_ss)
        (List.finRange n) fun i => if i = my_num then shs.getD my_num 0 else 0
      -- send aux
      forM (List.finRange n) fun i =>
        if i ≠ my_num then forM aux fun a => sendTo i (lib.serializeG1 a) else pure ⟨⟩
      let aux_tmp ← readOthers my_num
        (fun i => aux.mapM fun _ => do
          let os_ss ← receive i
          return lib.deserializeG1 0 os_ss)
        (List.finRange n) fun i => if i = my_num then aux else List.replicate aux.length 0
      return checkLoop lib my_num coins.a0
        (fun i => ⟨os_comms i, os_opens i, tmp_shares i, aux_tmp i⟩) (List.finRange n) bls

end ProofOfCustody.Bls
