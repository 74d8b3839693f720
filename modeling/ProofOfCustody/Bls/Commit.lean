import Mathlib

/-!
# Hash commitments

`Commit` and `Open`: the committed octets are the player number, the message and a random seed.
-/

namespace ProofOfCustody.Bls

abbrev OctetStream := List UInt8

/-- The block size of AES. -/
def SEED_SIZE : Nat := 16

inductive Failure
  | invalid_commitment
  /-- The string that the constructor of `VSS` throws. -/
  | invalid_setting
  | bad_alloc
  /-- An access outside a vector, which C++ leaves undefined. -/
  | undefined
deriving DecidableEq

/-- `octetStream::store(int)`, little-endian. -/
def storeInt (l : Int) : OctetStream :=
  (List.range 4).map fun i => UInt8.ofNat ((l / 256 ^ i) % 256).toNat

/-- `BYTES_TO_INT`; the sum wraps in an `int`. -/
def bytesToInt (b0 b1 b2 b3 : UInt8) : Int :=
  (b0.toNat + 256 * b1.toNat + 65536 * b2.toNat + 16777216 * b3.toNat : Int).bmod (2 ^ 32)

def commit (hash : OctetStream → OctetStream) (message : OctetStream) (send_player : Int)
    (seed : Fin SEED_SIZE → UInt8) : OctetStream × OctetStream :=
  let opening := storeInt send_player ++ message ++ List.ofFn seed
  let comm := hash opening
  (comm, opening)

/-- `Open`. The length passed to `append` is unsigned: below zero it exceeds any memory. -/
def openCommitment (hash : OctetStream → OctetStream) (comm opening : OctetStream)
    (send_player : Int) : Except Failure (Bool × OctetStream) :=
  let h := hash opening
  match opening with
  | b0 :: b1 :: b2 :: b3 :: rest =>
    let open_player := bytesToInt b0 b1 b2 b3
    if ¬(h = comm ∧ open_player = send_player) then return (false, [])
    else if rest.length < SEED_SIZE then throw .bad_alloc
    else return (true, rest.take (rest.length - SEED_SIZE))
  | _ => throw .undefined

theorem storeInt_eq (l : Int) : storeInt l =
    [UInt8.ofNat (l % 256).toNat, UInt8.ofNat ((l / 256) % 256).toNat,
      UInt8.ofNat ((l / 65536) % 256).toNat, UInt8.ofNat ((l / 16777216) % 256).toNat] := by
  simp [storeInt, List.range_succ]

theorem digits_sum (l : Int) : l % 256 + 256 * (l / 256 % 256) + 65536 * (l / 65536 % 256) +
    16777216 * (l / 16777216 % 256) = l % 4294967296 := by
  omega

theorem bytesToInt_storeInt {l : Int} (lower : -2 ^ 31 ≤ l) (upper : l < 2 ^ 31) :
    bytesToInt (UInt8.ofNat (l % 256).toNat) (UInt8.ofNat ((l / 256) % 256).toNat)
      (UInt8.ofNat ((l / 65536) % 256).toNat) (UInt8.ofNat ((l / 16777216) % 256).toNat) = l := by
  have digit (x : Int) : ((UInt8.ofNat (x % 256).toNat).toNat : Int) = x % 256 := by
    rw [UInt8.toNat_ofNat']
    omega
  have reduced := Int.emod_bmod l 4294967296
  have wrapped : l.bmod 4294967296 = l := Int.bmod_eq_of_le (by omega) (by omega)
  unfold bytesToInt
  simp only [digit, digits_sum]
  exact reduced.trans wrapped

theorem openCommitment_commit (hash : OctetStream → OctetStream) (message : OctetStream)
    {send_player : Int} (lower : -2 ^ 31 ≤ send_player) (upper : send_player < 2 ^ 31)
    (seed : Fin SEED_SIZE → UInt8) :
    openCommitment hash (commit hash message send_player seed).1
      (commit hash message send_player seed).2 send_player = .ok (true, message) := by
  simp [openCommitment, commit, storeInt_eq, bytesToInt_storeInt lower upper, pure, Except.pure]

end ProofOfCustody.Bls
