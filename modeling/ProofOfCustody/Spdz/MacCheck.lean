import Mathlib
import ProofOfCustody.Binary.Counter
import ProofOfCustody.Spdz.Share
import ProofOfCustody.Spdz.TreeSum
import ProofOfCustody.Tools.Subroutines

/-!
# Opening and checking

`Tree_MAC_Check` of one player: what it opens goes into the lists `vals` and `macs`, and `Check`
compares them with the shares of the key.
-/

namespace ProofOfCustody.Spdz
open Network Process Networking Tools Binary
open Bls (SEED_SIZE)

def POPEN_MAX : Nat := 1000000

theorem POPEN_MAX_pos : 0 < POPEN_MAX := by
  rw [POPEN_MAX]
  decide

structure Outside (F : Type) where
  enc : Encoding F
  hash : Octets → Octets
  /-- What repeated calls of `almost_randomize` make of the generator with a seed. -/
  almost_randomize : Octets → Nat → F

structure MacCheck (F : Type) where
  alphai : F
  values : List F
  /-- The position of `values.next()`. -/
  next : Nat
  values_opened : Int
  popen_cnt : Int
  macs : List F
  vals : List F
  /-- What the generators of the player will still yield. -/
  random : Nat → UInt8

namespace MacCheck
variable {n : Nat} {F : Type} [Field F] [DecidableEq F]

def new (alphai : F) (random : Nat → UInt8) : MacCheck F := ⟨alphai, [], 0, 0, 0, [], [], random⟩

def waitingForCheck (M : MacCheck F) : Int := toInt32 (max M.macs.length M.vals.length : Nat)

def takeRandom (M : MacCheck F) (len : Nat) : (Fin len → UInt8) × MacCheck F :=
  (fun i => M.random i, { M with random := fun i => M.random (len + i) })

def initOpen (M : MacCheck F) : MacCheck F := { M with values := [], next := 0 }

def prepareOpen (M : MacCheck F) (secret : Share F) : MacCheck F :=
  { M with values := M.values ++ [secret.share], macs := M.macs ++ [secret.mac] }

/-- `for (auto& os : bundle) if (&os != &bundle.mine) delta += os.get()` -/
def addOthers (enc : Encoding F) (my_num : Fin n) :
    List (Fin n) → F → (Fin n → OctetStream) → Except StreamError (F × (Fin n → OctetStream))
  | [], delta, bundle => return (delta, bundle)
  | i :: players, delta, bundle =>
    if i ≠ my_num then do
      let (x, os) ← (bundle i).consume enc.size
      addOthers enc my_num players (delta + enc.unpack x) (Function.update bundle i os)
    else addOthers enc my_num players delta bundle

def checkDeltas (enc : Encoding F) (my_num : Fin n) :
    List F → (Fin n → OctetStream) → Except Fault PUnit
  | [], _ => return PUnit.unit
  | delta :: deltas, bundle =>
    match addOthers enc my_num (List.finRange n) delta bundle with
    | .error e => throw (.stream e)
    | .ok (delta, bundle) =>
      if delta ≠ 0 then throw .mac_fail else checkDeltas enc my_num deltas bundle

/-- `vals[i] * alphai - macs[i]` for every `i < popen_cnt` -/
def deltas (M : MacCheck F) : List F :=
  List.zipWith (fun val mac => val * M.alphai - mac) (M.vals.take M.popen_cnt.toNat)
    (M.macs.take M.popen_cnt.toNat)

/-- The branch of `Check` for fewer than ten values. -/
def checkEach (O : Outside F) (my_num : Fin n) (M : MacCheck F) : Play n (MacCheck F) := do
  let deltas := M.deltas
  let mine := (packAll O.enc deltas .empty).data
  let (seed, M) := M.takeRandom SEED_SIZE
  let bundle ← commitAndOpen O.hash my_num seed (Function.update (fun _ => []) my_num mine)
  ExceptT.mk (.ret (checkDeltas O.enc my_num deltas fun i => ⟨bundle i, 0, Nat.zero_le _⟩))
  return M

/-- `for (i : players) t += tau[i]`, after each `tau[i]` has been unpacked -/
def sumTau (enc : Encoding F) : List (Fin n) → (Fin n → OctetStream) → F → Except Fault F
  | [], _, t => return t
  | i :: players, datas, t =>
    match (datas i).consume enc.size with
    | .error e => throw (.stream e)
    | .ok (x, _) => sumTau enc players datas (t + enc.unpack x)

/-- `gami - alphai * a`, where `a` and `gami` combine the values and the MAC shares -/
def tau (h : Nat → F) (M : MacCheck F) : F :=
  let (a, gami) := (List.range M.popen_cnt.toNat).foldl
    (fun (a, gami) i => (a + M.vals.getD i 0 * h i, gami + h i * M.macs.getD i 0)) (0, 0)
  gami - M.alphai * a

def checkCombined (O : Outside F) (my_num : Fin n) (M : MacCheck F) : Play n (MacCheck F) := do
  let (mine, M) := M.takeRandom SEED_SIZE
  let (own, M) := M.takeRandom SEED_SIZE
  let seed ← createRandomSeed O.hash my_num own (List.ofFn mine)
  let tau := M.tau (O.almost_randomize seed)
  let (own, M) := M.takeRandom SEED_SIZE
  let datas ← commitAndOpen O.hash my_num own
    (Function.update (fun _ => []) my_num (O.enc.pack tau))
  let t ← ExceptT.mk (.ret (sumTau O.enc (List.finRange n)
    (fun i => ⟨datas i, 0, Nat.zero_le _⟩) 0))
  if t ≠ 0 then throw .mac_fail else return M

def eraseChecked (M : MacCheck F) : MacCheck F :=
  { M with
    vals := M.vals.drop M.popen_cnt.toNat
    macs := M.macs.drop M.popen_cnt.toNat
    popen_cnt := 0 }

def check (O : Outside F) (my_num : Fin n) (M : MacCheck F) : Play n (MacCheck F) := do
  if M.waitingForCheck = 0 then return M
  -- the loops read, or the erasures reach, outside of the vectors
  else if M.popen_cnt < 0 ∨ M.vals.length < M.popen_cnt ∨ M.macs.length < M.popen_cnt then
    throw .undefined
  else do
    let M ← if M.popen_cnt < 10 then checkEach O my_num M else checkCombined O my_num M
    return M.eraseChecked

def checkIfNeeded (O : Outside F) (my_num : Fin n) (M : MacCheck F) : Play n (MacCheck F) :=
  if M.waitingForCheck ≥ POPEN_MAX then check O my_num M else return M

def exchange (O : Outside F) (T : TreeSum n) (my_num : Fin n) (M : MacCheck F) :
    Play n (MacCheck F) := do
  let values ← T.run O.enc my_num M.values
  -- `AddToValues` runs inside of `run`
  checkIfNeeded O my_num { M with
    values := values
    vals := M.vals ++ values
    values_opened := toInt32 (M.values_opened + values.length)
    popen_cnt := toInt32 (M.popen_cnt + values.length) }

def finalizeOpen (M : MacCheck F) : Except Fault (F × MacCheck F) :=
  match M.values[M.next]? with
  | some value => return (value, { M with next := M.next + 1 })
  | none => throw .undefined

def finalizeAll : Nat → MacCheck F → Except Fault (List F × MacCheck F)
  | 0, M => return ([], M)
  | k + 1, M => do
    let (value, M) ← M.finalizeOpen
    let (values, M) ← finalizeAll k M
    return (value :: values, M)

/-- `POpen`: `POpen_Begin` and `POpen_End`. The size is passed on as an `int`, and no vector can
reserve a negative number of places. -/
def pOpen (O : Outside F) (T : TreeSum n) (my_num : Fin n) (S : List (Share F)) (M : MacCheck F) :
    Play n (List F × MacCheck F) := do
  if toInt32 S.length < 0 then throw .length_error
  else
    let M ← exchange O T my_num (S.foldl prepareOpen M.initOpen)
    ExceptT.mk (.ret (finalizeAll S.length M))

def addToCheck (O : Outside F) (my_num : Fin n) (share : Share F) (value : F) (M : MacCheck F) :
    Play n (MacCheck F) :=
  checkIfNeeded O my_num { M with
    macs := M.macs ++ [share.mac]
    vals := M.vals ++ [value]
    popen_cnt := M.popen_cnt + 1 }

end MacCheck

end ProofOfCustody.Spdz
