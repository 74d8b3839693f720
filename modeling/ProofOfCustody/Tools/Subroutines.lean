import Mathlib
import ProofOfCustody.Networking.Player

/-!
# Committing and opening

`Commit_And_Open_` and `Create_Random_Seed` of one player.
-/

namespace ProofOfCustody.Tools
open Network Process Networking
open Bls (SEED_SIZE commit openCommitment)

variable {n : Nat} (hash : Octets → Octets)

/-- The message is committed to, then all commitments are broadcast, and then all openings. -/
def exchangeCommitments (my_num : Fin n) (seed : Fin SEED_SIZE → UInt8) (message : Octets) :
    Play n ((Fin n → Octets) × (Fin n → Octets)) := do
  let (comm, opening) := commit hash message my_num seed
  let Comm_data ← Play.broadcastReceive my_num (Function.update (fun _ => []) my_num comm)
  let Open_data ← Play.broadcastReceive my_num (Function.update (fun _ => []) my_num opening)
  return (Comm_data, Open_data)

/-- `if (!Open(message, comm, opening, player)) throw invalid_commitment();` -/
def openOrThrow (comm opening : Octets) (player : Fin n) : Except Fault Octets :=
  match openCommitment hash comm opening player with
  | .ok (true, message) => return message
  | .ok (false, _) => throw (.commitment .invalid_commitment)
  | .error e => throw (.commitment e)

/-- The loop over the players that ends `Commit_And_Open_`. -/
def openOthers (my_num : Fin n) (Comm_data Open_data : Fin n → Octets) :
    List (Fin n) → (Fin n → Octets) → Except Fault (Fin n → Octets)
  | [], datas => return datas
  | i :: players, datas =>
    if i ≠ my_num then do
      let message ← openOrThrow hash (Comm_data i) (Open_data i) i
      openOthers my_num Comm_data Open_data players (Function.update datas i message)
    else openOthers my_num Comm_data Open_data players datas

def commitAndOpen (my_num : Fin n) (seed : Fin SEED_SIZE → UInt8) (datas : Fin n → Octets) :
    Play n (Fin n → Octets) := do
  let (Comm_data, Open_data) ← exchangeCommitments hash my_num seed (datas my_num)
  ExceptT.mk (.ret (openOthers hash my_num Comm_data Open_data (List.finRange n) datas))

/-- `seed[j] = seed[j]^(e.get_data()[j])` for all `j` -/
def xorSeed (seed e : Octets) : Except Fault Octets :=
  if seed.length ≤ e.length then return List.zipWith (· ^^^ ·) seed e else throw .undefined

/-- The loop over the players that ends `Create_Random_Seed`. -/
def addSeeds (my_num : Fin n) (mine : Octets) (Comm_e Open_e : Fin n → Octets) :
    List (Fin n) → Octets → Except Fault Octets
  | [], seed => return seed
  | i :: players, seed => do
    let e ← if i ≠ my_num then openOrThrow hash (Comm_e i) (Open_e i) i else pure mine
    let seed ← xorSeed seed e
    addSeeds my_num mine Comm_e Open_e players seed

/-- The octets `mine` come from the player's own generator. -/
def createRandomSeed (my_num : Fin n) (seed : Fin SEED_SIZE → UInt8) (mine : Octets) :
    Play n Octets := do
  let (Comm_e, Open_e) ← exchangeCommitments hash my_num seed mine
  ExceptT.mk (.ret (addSeeds hash my_num mine Comm_e Open_e (List.finRange n)
    (List.replicate mine.length 0)))

section Honest
variable (seeds : Fin n → Fin SEED_SIZE → UInt8) (messages : Fin n → Octets)

def comms (i : Fin n) : Octets := (commit hash (messages i) i (seeds i)).1
def opens (i : Fin n) : Octets := (commit hash (messages i) i (seeds i)).2

theorem rounds_exchangeCommitments :
    Rounds 2 (fun i => (exchangeCommitments hash i (seeds i) (messages i)).run) fun _ =>
      .ok (comms hash seeds messages, opens hash seeds messages) := by
  have first := Play.rounds_broadcastReceive fun i : Fin n =>
    Function.update (fun _ => []) i (comms hash seeds messages i)
  have second := Play.rounds_broadcastReceive fun i : Fin n =>
    Function.update (fun _ => []) i (opens hash seeds messages i)
  simp only [Function.update_self] at first second
  exact first.bind_ok (f := fun i Comm_data => do
    let Open_data ← Play.broadcastReceive i
      (Function.update (fun _ => []) i (opens hash seeds messages i))
    return (Comm_data, Open_data)) (second.bind_ok (.ret_ok _))

variable (bound : n ≤ 2 ^ 31)
include bound

theorem openOrThrow_commit (i : Fin n) :
    openOrThrow hash (comms hash seeds messages i) (opens hash seeds messages i) i =
      .ok (messages i) := by
  have lower : -2 ^ 31 ≤ (i.val : Int) := by omega
  have upper : (i.val : Int) < 2 ^ 31 := by
    have := i.isLt
    omega
  rw [openOrThrow, comms, opens, Bls.openCommitment_commit hash (messages i) lower upper (seeds i)]
  rfl

theorem openOthers_commit (my_num : Fin n) (players : List (Fin n)) (datas : Fin n → Octets) :
    openOthers hash my_num (comms hash seeds messages) (opens hash seeds messages) players datas =
      .ok fun i => if i ∈ players ∧ i ≠ my_num then messages i else datas i := by
  induction players generalizing datas with
  | nil => simp [openOthers, pure, Except.pure]
  | cons i players ih =>
      by_cases own : i = my_num
      · subst own
        rw [openOthers, if_neg (by simp), ih]
        congr 1
        funext j
        by_cases same : j = i
        · simp [same]
        · simp [same]
      · rw [openOthers, if_pos own, openOrThrow_commit hash seeds messages bound i]
        change openOthers hash my_num _ _ players (Function.update datas i (messages i)) = _
        rw [ih]
        congr 1
        funext j
        by_cases same : j = i
        · subst same
          simp [own]
        · simp [same]

theorem rounds_commitAndOpen (datas : Fin n → Fin n → Octets) :
    Rounds 2 (fun i => (commitAndOpen hash i (seeds i) (datas i)).run) fun _ =>
      .ok fun j => datas j j := by
  refine ((rounds_exchangeCommitments hash seeds fun i => datas i i).bind_ok
    (f := fun i (data : (Fin n → Octets) × (Fin n → Octets)) =>
      ExceptT.mk (.ret (openOthers hash i data.1 data.2 (List.finRange n) (datas i))))
    ((Rounds.ret_ok _).congr fun i => ?_))
  have whole : (fun j => if j ≠ i then datas j j else datas i j) = fun j => datas j j := by
    funext j
    split
    · rfl
    · rename_i own
      rw [not_not.1 own]
  simp only [openOthers_commit hash seeds _ bound, List.mem_finRange, true_and, whole]
  rfl

theorem addSeeds_commit {len : Nat} (length : ∀ i, (messages i).length = len) (my_num : Fin n)
    (players : List (Fin n)) {seed : Octets} (full : seed.length = len) :
    addSeeds hash my_num (messages my_num) (comms hash seeds messages) (opens hash seeds messages)
      players seed =
        .ok (players.foldl (fun seed i => List.zipWith (· ^^^ ·) seed (messages i)) seed) := by
  induction players generalizing seed with
  | nil => rfl
  | cons i players ih =>
      have added : xorSeed seed (messages i) = .ok (List.zipWith (· ^^^ ·) seed (messages i)) := by
        rw [xorSeed, if_pos (by rw [full, length i])]
        rfl
      have full' : (List.zipWith (· ^^^ ·) seed (messages i)).length = len := by
        rw [List.length_zipWith, full, length i, min_self]
      rw [addSeeds, List.foldl_cons, ← ih full']
      by_cases own : i = my_num
      · subst own
        rw [if_neg (by simp)]
        change (xorSeed seed (messages i) >>= _) = _
        rw [added]
        rfl
      · rw [if_pos own, openOrThrow_commit hash seeds messages bound i]
        change (xorSeed seed (messages i) >>= _) = _
        rw [added]
        rfl

omit bound in
def sumSeeds (len : Nat) : Octets :=
  (List.finRange n).foldl (fun seed i => List.zipWith (· ^^^ ·) seed (messages i))
    (List.replicate len 0)

theorem rounds_createRandomSeed {len : Nat} (length : ∀ i, (messages i).length = len) :
    Rounds 2 (fun i => (createRandomSeed hash i (seeds i) (messages i)).run) fun _ =>
      .ok (sumSeeds messages len) := by
  refine ((rounds_exchangeCommitments hash seeds messages).bind_ok
    (f := fun i (data : (Fin n → Octets) × (Fin n → Octets)) =>
      ExceptT.mk (.ret (addSeeds hash i (messages i) data.1 data.2 (List.finRange n)
        (List.replicate (messages i).length 0))))
    ((Rounds.ret_ok _).congr fun i => ?_))
  simp only [length i]
  rw [addSeeds_commit hash seeds messages bound length i _ List.length_replicate]
  rfl

end Honest

end ProofOfCustody.Tools
