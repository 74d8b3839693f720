import Mathlib
import ProofOfCustody.Bls.KeygenSpec

/-!
# Key generation over the network

Some of the players may be corrupted. An honest player that finishes has checked what it received
itself; between two honest players a channel carries what the sender's process says.
-/

namespace ProofOfCustody.Bls
open Network Process Script Polynomial

variable {n r t : Nat} [Fact r.Prime] {G1 G2 : Type} [AddCommGroup G1] [Module (ZMod r) G1]
  [DecidableEq G1]

structure Keygen (n r : Nat) (G1 G2 : Type) where
  lib : Library r G1
  threshold : Nat
  coins : Fin n → Coins n r G1
  bls : Fin n → BLS r G1 G2

namespace Keygen

variable (K : Keygen n r G1 G2) (honest : Fin n → Prop)

/-- The objects are constructed with the number of players, an `int`, and one threshold. -/
structure Configured (K : Keygen n r G1 G2) : Prop where
  players : n < 2 ^ 31
  parties : ∀ i, (K.bls i).nparty = n
  threshold : ∀ i, (K.bls i).threshold = K.threshold

abbrev Result (r : Nat) (G1 G2 : Type) := Except Failure Unit × BLS r G1 G2

def procs (i : Fin n) : Process (Fin n) OctetStream (Result r G1 G2) :=
  dstbKeygen K.lib i (K.coins i) (K.bls i)

abbrev Reaches (s : State (Fin n) OctetStream (Result r G1 G2)) : Prop :=
  Reachable honest K.procs s

def heard (s : State (Fin n) OctetStream (Result r G1 G2)) (h i : Fin n) : Contribution r G1 where
  os_comm := (s.received i h).getD 0 []
  os_open := (s.received i h).getD 1 []
  tmp_share := K.lib.deserializeFr 0 ((s.received i h).getD 2 [])
  aux_tmp := ((s.received i h).drop 3).map (K.lib.deserializeG1 0)

def AcceptsFrom (s : State (Fin n) OctetStream (Result r G1 G2)) (h i : Fin n) : Prop :=
  Accepts K.lib h (K.coins h).a0 (K.heard s h) i

noncomputable def dealt (i : Fin n) : (ZMod r)[X] :=
  polynomial (coefficients K.threshold (K.coins i).draw)

def sentTo (i j : Fin n) : Inbox K.threshold := outbox K.lib K.threshold (K.coins i) j

variable {K honest} {s : State (Fin n) OctetStream (Result r G1 G2)} {h i j : Fin n}
  {o : Result r G1 G2}

theorem runs_procs (configured : K.Configured) (bound : K.threshold ≤ n) (i : Fin n)
    (L : List (Action (Fin n) OctetStream)) :
    Runs (K.procs i) L (ret o) ↔ ∃ box : Fin n → Inbox K.threshold,
      L = actions (script i (K.sentTo i) box) ∧ o = outcome K.lib i (K.coins i) (K.bls i) box :=
  runs_dstbKeygen configured.players (configured.parties i) (configured.threshold i) bound L o

theorem procs_invalid (configured : K.Configured) (bound : ¬K.threshold ≤ n) (i : Fin n) :
    K.procs i = ret (.error .invalid_setting, K.bls i) := by
  rw [procs, dstbKeygen, if_pos]
  · rfl
  · rw [configured.threshold, configured.parties]
    exact not_le.1 bound

theorem threshold_le (configured : K.Configured) (reaches : K.Reaches honest s)
    (follows : honest h) (finished : s.Finished h o) (proper : o.1 ≠ .error .invalid_setting) :
    K.threshold ≤ n := by
  by_contra bound
  obtain ⟨L, run, _⟩ := Reachable.finished reaches follows finished
  rw [procs_invalid configured bound] at run
  obtain ⟨_, same⟩ := runs_ret.1 run
  cases same
  exact proper rfl

theorem sends_script (out box : Fin n → Inbox t) (other : j ≠ i) :
    sends j (actions (script i out box)) = (out j).messages := by
  rw [script, sends_exchange (nodup_others i) (mem_others.2 other)]
  simp [exchanged, Inbox.messages]

theorem recvs_script (out box : Fin n → Inbox t) (other : j ≠ i) :
    recvs j (actions (script i out box)) = (box j).messages := by
  rw [script, recvs_exchange (nodup_others i) (mem_others.2 other)]
  simp [exchanged, Inbox.messages]

omit [Module (ZMod r) G1] [DecidableEq G1] in
theorem heard_messages {box : Inbox t} (received : s.received i h = box.messages) :
    K.heard s h i = box.read K.lib := by
  simp [heard, received, Inbox.read, Inbox.messages]

theorem finished_taken (configured : K.Configured) (bound : K.threshold ≤ n)
    (reaches : K.Reaches honest s) (follows : honest h) (finished : s.Finished h o) :
    (∃ box : Fin n → Inbox K.threshold, ∀ i, i ≠ h → s.received i h = (box i).messages) ∧
      o = checkLoop K.lib h (K.coins h).a0 (K.heard s h) (List.finRange n)
        (ownKey K.lib h (K.coins h) (K.bls h)) := by
  obtain ⟨L, run, _, taken⟩ := Reachable.finished reaches follows finished
  obtain ⟨box, rfl, rfl⟩ := (runs_procs configured bound h L).1 run
  have received (i : Fin n) (other : i ≠ h) : s.received i h = (box i).messages := by
    rw [← taken i, recvs_script _ _ other]
  refine ⟨⟨box, received⟩, ?_⟩
  apply checkLoop_congr
  exact fun i other => (heard_messages (received i other)).symm

theorem finished_sent (configured : K.Configured) (bound : K.threshold ≤ n)
    (reaches : K.Reaches honest s) (follows : honest h) (finished : s.Finished h o) (other : j ≠ h) :
    s.sent h j = (K.sentTo h j).messages := by
  obtain ⟨L, run, sent, _⟩ := Reachable.finished reaches follows finished
  obtain ⟨box, rfl, rfl⟩ := (runs_procs configured bound h L).1 run
  rw [← sent j, sends_script _ _ other]

theorem sent_begins (configured : K.Configured) (reaches : K.Reaches honest s)
    (follows : honest i) (other : j ≠ i) : s.sent i j <+: (K.sentTo i j).messages := by
  obtain ⟨L, o, run, inside⟩ := Reachable.sent_begins reaches follows
  by_cases bound : K.threshold ≤ n
  · obtain ⟨box, rfl, rfl⟩ := (runs_procs configured bound i L).1 run
    have := inside j
    rwa [sends_script _ _ other] at this
  · rw [procs_invalid configured bound] at run
    obtain ⟨rfl, _⟩ := runs_ret.1 run
    exact (inside j).trans List.nil_prefix

@[simp] theorem length_messages (box : Inbox t) : box.messages.length = t + 4 := by
  simp [Inbox.messages, box.complete]

theorem finished_honest (configured : K.Configured) (bound : K.threshold ≤ n)
    (reaches : K.Reaches honest s) (follows : honest h) (finished : s.Finished h o) (peer : honest i)
    (other : i ≠ h) :
    s.received i h = (K.sentTo i h).messages := by
  obtain ⟨⟨box, received⟩, _⟩ := finished_taken configured bound reaches follows finished
  have inside := (List.prefix_append _ _).trans (sent_begins configured reaches peer other.symm)
  apply inside.eq_of_length
  rw [received i other, length_messages, length_messages]

theorem heard_honest (configured : K.Configured) (bound : K.threshold ≤ n)
    (reaches : K.Reaches honest s) (follows : honest h) (finished : s.Finished h o)
    (peer : honest i) (other : i ≠ h) : K.heard s h i = (K.sentTo i h).read K.lib := by
  simp [heard, finished_honest configured bound reaches follows finished peer other, Inbox.read,
    Inbox.messages]

/-- `box i j` is what player `i` is to take from player `j`. -/
def Delivers (honest : Fin n → Prop) (K : Keygen n r G1 G2)
    (box : Fin n → Fin n → Inbox K.threshold) : Prop :=
  ∀ i j, honest i → honest j → i ≠ j → box j i = K.sentTo i j

theorem aligned (configured : K.Configured) (bound : K.threshold ≤ n)
    {box : Fin n → Fin n → Inbox K.threshold}
    (delivers : Delivers honest K box) :
    Aligned honest (fun i => script i (K.sentTo i) (box i))
      (fun i => outcome K.lib i (K.coins i) (K.bls i) (box i)) (.initial K.procs)
      fun i => script i (K.sentTo i) (box i) := by
  apply Aligned.initial
  · intro i _
    exact (runs_procs configured bound i _).2 ⟨box i, rfl, rfl⟩
  · intro i _
    exact (exchange_ordered _ _ _).1
  · intro i j hi hj
    rw [script, script, sendsAt_exchange (nodup_others i), recvsAt_exchange (nodup_others j)]
    by_cases same : i = j
    · simp [same]
    · rw [if_pos (mem_others.2 (Ne.symm same)), if_pos (mem_others.2 same)]
      simp [exchanged, delivers i j hi hj same]

theorem exists_run (configured : K.Configured) (bound : K.threshold ≤ n)
    {box : Fin n → Fin n → Inbox K.threshold}
    (delivers : Delivers honest K box) : ∃ s, K.Reaches honest s ∧ ∀ i, honest i →
      s.Finished i (outcome K.lib i (K.coins i) (K.bls i) (box i)) ∧
      ∀ j, j ≠ i → s.received j i = (box i j).messages := by
  obtain ⟨s, reaches, finished⟩ := (aligned configured bound delivers).finish
  refine ⟨s, reaches, fun i follows => ⟨(finished i follows).1, fun j other => ?_⟩⟩
  rw [(finished i follows).2 j, recvs_script _ _ other]

end Keygen

end ProofOfCustody.Bls
