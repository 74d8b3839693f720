import Mathlib
import ProofOfCustody.Bls.Commit
import ProofOfCustody.Network.Rounds
import ProofOfCustody.Tools.OctetStream

/-!
# What a player sends and receives

A player runs a process over octet strings that may end in a fault.
-/

namespace ProofOfCustody.Networking
open Network Process Tools

abbrev Octets := List UInt8

inductive Fault
  | stream (e : StreamError)
  /-- The `Processor_Error` for a message that is too short. -/
  | not_enough_information (expected got : Nat)
  | commitment (e : Bls.Failure)
  | mac_fail
  | length_error
  /-- An access outside a vector, which C++ leaves undefined. -/
  | undefined
deriving DecidableEq

abbrev Play (n : Nat) := ExceptT Fault (Process (Fin n) Octets)

variable {n : Nat}

def Play.send (j : Fin n) (o : Octets) : Play n PUnit := ExceptT.lift (sendTo j o)
def Play.receive (j : Fin n) : Play n OctetStream :=
  ExceptT.lift (Process.receive j >>= fun o => .ret ⟨o, 0, Nat.zero_le _⟩)

def Play.ofStream {α : Type} : Except StreamError α → Play n α
  | .ok a => pure a
  | .error e => throw (.stream e)

def getPlayer (my_num : Fin n) (offset : Nat) : Fin n :=
  ⟨(my_num + offset) % n, Nat.mod_lt _ (Fin.pos my_num)⟩

/-- The offsets of the loop in `Broadcast_Receive`. -/
def offsets (n : Nat) : List Nat := List.range' 1 (n - 1)

def receivers (my_num : Fin n) : List (Fin n) := (offsets n).map (getPlayer my_num)
def senders (my_num : Fin n) : List (Fin n) := (offsets n).map fun i => getPlayer my_num (n - i)

/-- The exchangers make progress in turns; what matters is what is put on every channel. -/
def broadcastReceive (my_num : Fin n) (o : Fin n → Octets) :
    Process (Fin n) Octets (Fin n → Octets) := do
  forM (receivers my_num) fun j => sendTo j (o my_num)
  readOthers my_num receive (senders my_num) o

def Play.broadcastReceive (my_num : Fin n) (o : Fin n → Octets) : Play n (Fin n → Octets) :=
  ExceptT.lift (Networking.broadcastReceive my_num o)

section Others
variable {my_num j : Fin n}

theorem mem_offsets {i : Nat} : i ∈ offsets n ↔ 0 < i ∧ i < n := by
  rw [offsets, List.mem_range'_1]
  omega

theorem getPlayer_val (offset : Nat) (small : offset ≤ n) : (getPlayer my_num offset).val =
    if my_num + offset < n then my_num + offset else my_num + offset - n := by
  have := my_num.isLt
  change (my_num + offset) % n = _
  split
  · exact Nat.mod_eq_of_lt (by assumption)
  · rw [Nat.mod_eq_sub_mod (by omega), Nat.mod_eq_of_lt (by omega)]

theorem getPlayer_ne {i : Nat} (member : i ∈ offsets n) : getPlayer my_num i ≠ my_num := by
  obtain ⟨positive, small⟩ := mem_offsets.1 member
  intro same
  have := congrArg Fin.val same
  rw [getPlayer_val i small.le] at this
  split at this <;> omega

theorem exists_getPlayer (other : j ≠ my_num) : ∃ i ∈ offsets n, getPlayer my_num i = j := by
  have := Fin.val_ne_of_ne other
  have := my_num.isLt
  have := j.isLt
  refine ⟨if my_num < j then j - my_num else j + n - my_num, ?_, Fin.ext ?_⟩
  · rw [mem_offsets]
    split <;> omega
  · rw [getPlayer_val _ (by split <;> omega)]
    split <;> split <;> omega

theorem getPlayer_injOn {i i' : Nat} (small : i ≤ n) (small' : i' ≤ n) (apart : i < i' + n)
    (apart' : i' < i + n) (same : getPlayer my_num i = getPlayer my_num i') : i = i' := by
  have := congrArg Fin.val same
  rw [getPlayer_val i small, getPlayer_val i' small'] at this
  split at this <;> split at this <;> omega

theorem offsets_nodup : (offsets n).Nodup := List.nodup_range' _

theorem mem_receivers : j ∈ receivers my_num ↔ j ≠ my_num := by
  rw [receivers, List.mem_map]
  constructor
  · rintro ⟨i, member, rfl⟩
    exact getPlayer_ne member
  · exact exists_getPlayer

theorem mem_senders : j ∈ senders my_num ↔ j ≠ my_num := by
  have turn {i : Nat} (member : i ∈ offsets n) : n - i ∈ offsets n := by
    rw [mem_offsets] at member ⊢
    omega
  rw [senders, List.mem_map]
  constructor
  · rintro ⟨i, member, rfl⟩
    exact getPlayer_ne (turn member)
  · intro other
    obtain ⟨i, member, rfl⟩ := exists_getPlayer other
    have := mem_offsets.1 member
    exact ⟨n - i, turn member, by rw [Nat.sub_sub_self (by omega)]⟩

theorem receivers_nodup : (receivers my_num).Nodup := by
  refine offsets_nodup.map_on fun i member i' member' same => ?_
  rw [mem_offsets] at member member'
  exact getPlayer_injOn (by omega) (by omega) (by omega) (by omega) same

theorem senders_nodup : (senders my_num).Nodup := by
  refine offsets_nodup.map_on fun i member i' member' same => ?_
  rw [mem_offsets] at member member'
  have := getPlayer_injOn (by omega) (by omega) (by omega) (by omega) same
  omega

end Others

theorem runs_broadcastReceive {my_num : Fin n} {o v : Fin n → Octets}
    {L : List (Action (Fin n) Octets)} : Runs (broadcastReceive my_num o) L (.ret v) ↔
      ∃ x : Fin n → Octets, L = sendActions (receivers my_num) (fun _ => [o my_num]) ++
        recvActions (senders my_num) (fun j => [x j]) ∧
        v = fun j => if j = my_num then o j else x j := by
  have sending (u : PUnit) (L : List (Action (Fin n) Octets)) :
      Runs (forM (receivers my_num) fun j => sendTo j (o my_num)) L (.ret u) ↔
        L = sendActions (receivers my_num) fun _ => [o my_num] :=
    runs_forM (fun j L => runs_sendTo) _ _
  have taking (v : Fin n → Octets) (L : List (Action (Fin n) Octets)) :
      Runs (readOthers my_num receive (senders my_num) o) L (.ret v) ↔ ∃ x : Fin n → Octets,
        L = recvActions (senders my_num) (fun j => [x j]) ∧
          v = fun j => if j = my_num then o j else x j := by
    have others : (senders my_num).filter (· ≠ my_num) = senders my_num :=
      List.filter_eq_self.2 fun j member => by simpa using mem_senders.1 member
    rw [runs_readOthers (X := Octets) (e := fun x => [x]) (f := id)
      (fun j L b => by simp [runs_receive]) senders_nodup, others]
    refine exists_congr fun x => and_congr_right fun _ => ?_
    have same : (fun j => if j ∈ senders my_num ∧ j ≠ my_num then id (x j) else o j) =
        fun j => if j = my_num then o j else x j := by
      funext j
      by_cases own : j = my_num
      · simp [own]
      · simp [mem_senders, own]
    rw [same]
  rw [broadcastReceive, runs_bind]
  constructor
  · rintro ⟨L₁, u, L₂, rfl, first, second⟩
    obtain rfl := (sending u L₁).1 first
    obtain ⟨x, rfl, rfl⟩ := (taking v L₂).1 second
    exact ⟨x, rfl, rfl⟩
  · rintro ⟨x, rfl, rfl⟩
    exact ⟨_, PUnit.unit, _, rfl, (sending _ _).2 rfl, (taking _ _).2 ⟨x, rfl, rfl⟩⟩

theorem rounds_broadcastReceive (o : Fin n → Fin n → Octets) :
    Rounds 1 (fun i => broadcastReceive i (o i)) fun _ j => o j j := by
  refine Rounds.single (S := fun i => sendActions (receivers i) fun _ => [o i i])
    (R := fun i => recvActions (senders i) fun j => [o j j]) (fun i => ?_) (fun i e member => ?_)
    (fun i e member => ?_) fun i j => ?_
  · refine runs_broadcastReceive.2 ⟨fun j => o j j, rfl, funext fun j => ?_⟩
    split
    · rename_i own
      rw [own]
    · rfl
  · obtain ⟨j, _, inside⟩ := List.mem_flatMap.1 member
    obtain ⟨m, _, rfl⟩ := List.mem_map.1 inside
    exact ⟨j, m, rfl⟩
  · obtain ⟨j, _, inside⟩ := List.mem_flatMap.1 member
    obtain ⟨m, _, rfl⟩ := List.mem_map.1 inside
    exact ⟨j, m, rfl⟩
  · rw [sends_sendActions _ receivers_nodup, recvs_recvActions _ senders_nodup]
    simp only [mem_receivers, mem_senders, ne_comm]

theorem Play.rounds_broadcastReceive (o : Fin n → Fin n → Octets) :
    Rounds 1 (fun i => (Play.broadcastReceive i (o i)).run) fun _ => .ok fun j => o j j :=
  (Networking.rounds_broadcastReceive o).lift

namespace Play
variable {α β : Type}

def Returns (p : Play n α) (L : List (Action (Fin n) Octets)) (a : α) : Prop :=
  Runs p.run L (.ret (.ok a))

theorem returns_pure (a : α) : Returns (pure a : Play n α) [] a := .stop _

theorem Returns.bind {p : Play n α} {f : α → Play n β} {L L' : List (Action (Fin n) Octets)} {a : α}
    {b : β} (first : Returns p L a) (second : Returns (f a) L' b) : Returns (p >>= f) (L ++ L') b :=
  runs_bind.2 ⟨L, .ok a, L', rfl, first, second⟩

theorem Returns.next {p : Play n α} {f : α → Play n β} {L : List (Action (Fin n) Octets)} {a : α}
    {b : β} (first : Returns p L a) (second : f a = pure b) : Returns (p >>= f) L b := by
  have := first.bind (f := f) (second ▸ returns_pure b)
  rwa [List.append_nil] at this

theorem returns_send (j : Fin n) (o : Octets) : Returns (send j o) [.send j o] PUnit.unit :=
  .send (.stop _)

theorem returns_receive (j : Fin n) (o : Octets) :
    Returns (receive j) [.recv j o] ⟨o, 0, Nat.zero_le _⟩ :=
  .recv (.stop _)

theorem returns_forM_send {κ : Type} (ks : List κ) (f : κ → Play n PUnit)
    (S : κ → List (Action (Fin n) Octets)) (each : ∀ k ∈ ks, Returns (f k) (S k) PUnit.unit) :
    Returns (forM ks f) (ks.flatMap S) PUnit.unit := by
  induction ks with
  | nil => exact returns_pure PUnit.unit
  | cons k ks ih =>
      rw [List.forM_cons]
      exact (each k (by simp)).bind (ih fun k' h => each k' (by simp [h]))

end Play

end ProofOfCustody.Networking
