import Mathlib
import ProofOfCustody.Tools.Subroutines

/-!
# Committing and opening with corrupted players

Whatever corrupted players send, what an honest player has opened of another one is what that one
committed to.
-/

namespace ProofOfCustody.Tools
open Network Process Networking
open Bls (SEED_SIZE commit openCommitment)

variable {n : Nat} {hash : Octets → Octets}

theorem runs_play_bind {α β : Type} {p : Play n α} {f : α → Play n β} {b : Except Fault β}
    {L : List (Action (Fin n) Octets)} (pure : ∀ L r, Runs p.run L (.ret r) → ∃ a, r = .ok a) :
    Runs (p >>= f).run L (.ret b) ↔
      ∃ L₁ a L₂, L = L₁ ++ L₂ ∧ Runs p.run L₁ (.ret (.ok a)) ∧ Runs (f a).run L₂ (.ret b) := by
  constructor
  · intro run
    obtain ⟨L₁, r, L₂, rfl, first, second⟩ := runs_bind.1 run
    obtain ⟨a, rfl⟩ := pure L₁ r first
    exact ⟨L₁, a, L₂, rfl, first, second⟩
  · rintro ⟨L₁, a, L₂, rfl, first, second⟩
    exact runs_bind.2 ⟨L₁, .ok a, L₂, rfl, first, second⟩

def broadcastActions (my_num : Fin n) (o : Octets) (x : Fin n → Octets) :
    List (Action (Fin n) Octets) :=
  sendActions (receivers my_num) (fun _ => [o]) ++ recvActions (senders my_num) fun j => [x j]

theorem runs_play_broadcastReceive {my_num : Fin n} {o : Octets} {r : Except Fault (Fin n → Octets)}
    {L : List (Action (Fin n) Octets)} :
    Runs (Play.broadcastReceive my_num (Function.update (fun _ => []) my_num o)).run L (.ret r) ↔
      ∃ x, L = broadcastActions my_num o x ∧ r = .ok (Function.update x my_num o) := by
  have whole (x : Fin n → Octets) : (fun j => if j = my_num then
      Function.update (fun _ => []) my_num o j else x j) = Function.update x my_num o := by
    funext j
    by_cases own : j = my_num
    · subst own
      simp
    · simp [own]
  constructor
  · intro run
    obtain ⟨L₁, v, L₂, rfl, first, second⟩ := runs_bind.1 run
    obtain ⟨rfl, same⟩ := runs_ret.1 second
    cases same
    obtain ⟨x, rfl, rfl⟩ := runs_broadcastReceive.1 first
    refine ⟨x, ?_, by rw [whole]⟩
    rw [List.append_nil, Function.update_self, broadcastActions]
  · rintro ⟨x, rfl, rfl⟩
    refine runs_bind.2 ⟨_, _, [], (List.append_nil _).symm, runs_broadcastReceive.2 ⟨x, ?_, rfl⟩, ?_⟩
    · rw [Function.update_self, broadcastActions]
    · rw [whole]
      exact .stop _

abbrev commOf (hash : Octets → Octets) (i : Fin n) (seed : Fin SEED_SIZE → UInt8) (m : Octets) :
    Octets := (commit hash m i seed).1
abbrev openingOf (hash : Octets → Octets) (i : Fin n) (seed : Fin SEED_SIZE → UInt8) (m : Octets) :
    Octets := (commit hash m i seed).2

theorem runs_exchangeCommitments {my_num : Fin n} {seed : Fin SEED_SIZE → UInt8} {m : Octets}
    {r : Except Fault ((Fin n → Octets) × (Fin n → Octets))} {L : List (Action (Fin n) Octets)} :
    Runs (exchangeCommitments hash my_num seed m).run L (.ret r) ↔ ∃ x y,
      L = broadcastActions my_num (commOf hash my_num seed m) x ++
        broadcastActions my_num (openingOf hash my_num seed m) y ∧
      r = .ok (Function.update x my_num (commOf hash my_num seed m),
        Function.update y my_num (openingOf hash my_num seed m)) := by
  have total (o : Octets) (L : List (Action (Fin n) Octets)) (r : Except Fault (Fin n → Octets))
      (run : Runs (Play.broadcastReceive my_num (Function.update (fun _ => []) my_num o)).run L
        (.ret r)) : ∃ a, r = .ok a := by
    obtain ⟨x, _, value⟩ := runs_play_broadcastReceive.1 run
    exact ⟨_, value⟩
  constructor
  · intro run
    obtain ⟨L₁, C, L₂, rfl, first, rest⟩ := (runs_play_bind (total _)).1 run
    obtain ⟨L₂, O, L₃, rfl, second, last⟩ := (runs_play_bind (total _)).1 rest
    obtain ⟨x, rfl, value⟩ := runs_play_broadcastReceive.1 first
    obtain ⟨y, rfl, value'⟩ := runs_play_broadcastReceive.1 second
    cases value
    cases value'
    obtain ⟨rfl, same⟩ := runs_ret.1 last
    cases same
    refine ⟨x, y, ?_, rfl⟩
    rw [List.append_nil]
    rfl
  · rintro ⟨x, y, rfl, rfl⟩
    refine (runs_play_bind (total _)).2 ⟨_, _, _, rfl, runs_play_broadcastReceive.2 ⟨x, rfl, rfl⟩, ?_⟩
    refine (runs_play_bind (total _)).2 ⟨_, _, [], (List.append_nil _).symm,
      runs_play_broadcastReceive.2 ⟨y, rfl, rfl⟩, .stop _⟩

theorem runs_commitAndOpen {my_num : Fin n} {seed : Fin SEED_SIZE → UInt8} {datas : Fin n → Octets}
    {r : Except Fault (Fin n → Octets)} {L : List (Action (Fin n) Octets)} :
    Runs (commitAndOpen hash my_num seed datas).run L (.ret r) ↔ ∃ x y,
      L = broadcastActions my_num (commOf hash my_num seed (datas my_num)) x ++
        broadcastActions my_num (openingOf hash my_num seed (datas my_num)) y ∧
      r = openOthers hash my_num (Function.update x my_num (commOf hash my_num seed (datas my_num)))
        (Function.update y my_num (openingOf hash my_num seed (datas my_num)))
        (List.finRange n) datas := by
  have total (L : List (Action (Fin n) Octets)) (r : Except Fault ((Fin n → Octets) × (Fin n → Octets)))
      (run : Runs (exchangeCommitments hash my_num seed (datas my_num)).run L (.ret r)) :
      ∃ a, r = .ok a := by
    obtain ⟨_, _, _, value⟩ := runs_exchangeCommitments.1 run
    exact ⟨_, value⟩
  constructor
  · intro run
    obtain ⟨L₁, a, L₂, rfl, first, rest⟩ := (runs_play_bind total).1 run
    obtain ⟨x, y, rfl, value⟩ := runs_exchangeCommitments.1 first
    cases value
    obtain ⟨rfl, same⟩ := runs_ret.1 rest
    cases same
    exact ⟨x, y, by rw [List.append_nil], rfl⟩
  · rintro ⟨x, y, rfl, rfl⟩
    exact (runs_play_bind total).2 ⟨_, _, [], (List.append_nil _).symm,
      runs_exchangeCommitments.2 ⟨x, y, rfl, rfl⟩, .stop _⟩

theorem openOthers_ok {my_num : Fin n} {C O datas datas' : Fin n → Octets} {players : List (Fin n)}
    (accepted : openOthers hash my_num C O players datas = .ok datas') :
    (∀ j ∈ players, j ≠ my_num → openOrThrow hash (C j) (O j) j = .ok (datas' j)) ∧
      ∀ j, j ∉ players ∨ j = my_num → datas' j = datas j := by
  induction players generalizing datas with
  | nil =>
      cases accepted
      exact ⟨nofun, fun _ _ => rfl⟩
  | cons i players ih =>
      rw [openOthers] at accepted
      by_cases own : i = my_num
      · rw [if_neg (not_not.2 own)] at accepted
        obtain ⟨others, rest⟩ := ih accepted
        refine ⟨fun j member other => ?_, fun j outside => ?_⟩
        · exact others j ((List.mem_cons.1 member).resolve_left (own ▸ other)) other
        · refine rest j (outside.imp_left fun absent member => ?_)
          exact absent (List.mem_cons_of_mem _ member)
      · rw [if_pos own] at accepted
        cases opens : openOrThrow hash (C i) (O i) i with
        | error e =>
            rw [opens] at accepted
            cases accepted
        | ok message =>
            rw [opens] at accepted
            obtain ⟨others, rest⟩ := ih accepted
            refine ⟨fun j member other => ?_, fun j outside => ?_⟩
            · by_cases later : j ∈ players
              · exact others j later other
              · obtain rfl := (List.mem_cons.1 member).resolve_right later
                rw [rest j (.inl later), Function.update_self, opens]
            · have different : j ≠ i := by
                rintro rfl
                exact outside.elim (· List.mem_cons_self) own
              rw [rest j (outside.imp_left fun absent member => absent (List.mem_cons_of_mem _ member)),
                Function.update_of_ne different]

theorem hash_of_openOrThrow {comm opening message : Octets} {j : Fin n}
    (accepted : openOrThrow hash comm opening j = .ok message) : hash opening = comm := by
  have opened : openCommitment hash comm opening j = .ok (true, message) := by
    rw [openOrThrow] at accepted
    split at accepted
    · rename_i opened
      cases accepted
      exact opened
    · cases accepted
    · cases accepted
  unfold openCommitment at opened
  split at opened
  · by_contra different
    rw [if_pos fun both => different both.1] at opened
    cases opened
  · cases opened

theorem message_of_openOrThrow {comm comm' opening message message' : Octets} {j : Fin n}
    (accepted : openOrThrow hash comm opening j = .ok message)
    (accepted' : openOrThrow hash comm' opening j = .ok message') : message = message' := by
  have same := (hash_of_openOrThrow accepted).symm.trans (hash_of_openOrThrow accepted')
  rw [same, accepted'] at accepted
  cases accepted
  rfl

section Executions
variable {honest : Fin n → Prop} {seeds : Fin n → Fin SEED_SIZE → UInt8}
  {datas : Fin n → Fin n → Octets}

def procs (hash : Octets → Octets) (seeds : Fin n → Fin SEED_SIZE → UInt8)
    (datas : Fin n → Fin n → Octets) (i : Fin n) :
    Process (Fin n) Octets (Except Fault (Fin n → Octets)) :=
  (commitAndOpen hash i (seeds i) (datas i)).run

variable {s : State (Fin n) Octets (Except Fault (Fin n → Octets))} {i h j : Fin n}
  {result result' : Fin n → Octets}

theorem recvs_broadcastActions (o : Octets) (x : Fin n → Octets) (other : j ≠ i) :
    recvs j (broadcastActions i o x) = [x j] := by
  rw [broadcastActions, recvs_append, recvs_sendActions, recvs_recvActions _ senders_nodup,
    if_pos (mem_senders.2 other), List.nil_append]

theorem sends_broadcastActions (o : Octets) (x : Fin n → Octets) (other : j ≠ i) :
    sends j (broadcastActions i o x) = [o] := by
  rw [broadcastActions, sends_append, sends_recvActions, sends_sendActions _ receivers_nodup,
    if_pos (mem_receivers.2 other), List.append_nil]

theorem finished_opened (reachable : Reachable honest (procs hash seeds datas) s) (follows : honest i)
    (finished : s.Finished i (.ok result)) (other : j ≠ i) : ∃ comm opening,
      s.received j i = [comm, opening] ∧ openOrThrow hash comm opening j = .ok (result j) := by
  obtain ⟨L, run, _, received⟩ := reachable.finished follows finished
  obtain ⟨x, y, rfl, accepted⟩ := runs_commitAndOpen.1 run
  refine ⟨x j, y j, ?_, ?_⟩
  · rw [← received, recvs_append, recvs_broadcastActions _ _ other, recvs_broadcastActions _ _ other]
    rfl
  · have opened := (openOthers_ok accepted.symm).1 j (List.mem_finRange j) other
    rwa [Function.update_of_ne other, Function.update_of_ne other] at opened

/-- An honest player that has finished holds what the honest players committed to. And what it holds
of a corrupted `j` is what every honest player with the same commitment of `j` holds, unless `j` sent
them two openings with one hash. -/
theorem commitAndOpen_binding (bound : n ≤ 2 ^ 31)
    (reachable : Reachable honest (procs hash seeds datas) s) (follows : honest i)
    (finished : s.Finished i (.ok result)) :
    (∀ j, honest j → result j = datas j j) ∧
    ∀ h result', honest h → s.Finished h (.ok result') → ∀ j, j ≠ i → j ≠ h →
      (s.received j i).head? = (s.received j h).head? →
      result j = result' j ∨ ∃ comm o o', s.received j i = [comm, o] ∧ s.received j h = [comm, o'] ∧
        o ≠ o' ∧ hash o = hash o' := by
  refine ⟨fun j follows' => ?_, fun h result' follows' finished' j other other' same => ?_⟩
  · by_cases own : j = i
    · subst own
      obtain ⟨L, run, _, _⟩ := reachable.finished follows finished
      obtain ⟨x, y, rfl, accepted⟩ := runs_commitAndOpen.1 run
      exact (openOthers_ok accepted.symm).2 j (.inr rfl)
    · obtain ⟨comm, opening, received, opened⟩ := finished_opened reachable follows finished own
      obtain ⟨L, r, run, begins⟩ := reachable.sent_begins follows'
      obtain ⟨x, y, rfl, _⟩ := runs_commitAndOpen.1 run
      have sent := (List.prefix_append (s.received j i) (s.queue j i)).trans (begins i)
      rw [received, sends_append, sends_broadcastActions _ _ (Ne.symm own),
        sends_broadcastActions _ _ (Ne.symm own)] at sent
      obtain ⟨rfl, rfl⟩ : comm = commOf hash j (seeds j) (datas j j) ∧
          opening = openingOf hash j (seeds j) (datas j j) := by
        simpa using sent.eq_of_length rfl
      have honestly := openOrThrow_commit hash seeds (fun j => datas j j) bound j
      exact (Except.ok.inj (honestly.symm.trans opened)).symm
  · obtain ⟨comm, opening, received, opened⟩ := finished_opened reachable follows finished other
    obtain ⟨comm', opening', received', opened'⟩ :=
      finished_opened reachable follows' finished' other'
    obtain rfl : comm = comm' := by simpa [received, received'] using same
    by_cases equal : opening = opening'
    · exact .inl (message_of_openOrThrow opened (equal ▸ opened'))
    · refine .inr ⟨comm, opening, opening', received, received', equal, ?_⟩
      rw [hash_of_openOrThrow opened, hash_of_openOrThrow opened']

/-- The third player is corrupted and commits to an octet of its own choice. -/
theorem commitAndOpen_binding_three :
    ∃ s : State (Fin 3) Octets (Except Fault (Fin 3 → Octets)), ∃ result result',
      Reachable (· ≠ 2) (procs id (fun _ _ => 0) fun i _ => [UInt8.ofNat i]) s ∧
      s.Finished 0 (.ok result) ∧ s.Finished 1 (.ok result') ∧ result 2 = [7] ∧ result 1 = [1] ∧
      (result 2 = result' 2 ∨ ∃ comm o o', s.received 2 0 = [comm, o] ∧
        s.received 2 1 = [comm, o'] ∧ o ≠ o' ∧ id o = id o') := by
  let datas (i : Fin 3) (_ : Fin 3) : Octets := if i = 2 then [7] else [UInt8.ofNat i]
  have same (i : Fin 3) (follows : i ≠ 2) : procs id (fun _ _ => 0) (fun i _ => [UInt8.ofNat i]) i =
      procs id (fun _ _ => 0) datas i := by
    simp only [procs, datas, if_neg follows]
  obtain ⟨L, runs, s, reachable, finished⟩ :=
    (rounds_commitAndOpen id (fun _ _ => 0) (by decide) datas).exists_finished same
  have first := (finished 0 (by decide)).1
  have second := (finished 1 (by decide)).1
  obtain ⟨own, corrupted⟩ := commitAndOpen_binding (by decide) reachable (by decide) first
  refine ⟨s, _, _, reachable, first, second, rfl, own 1 (by decide), ?_⟩
  apply corrupted 1 _ (by decide) second 2 (by decide) (by decide)
  obtain ⟨x, y, sent, _⟩ := runs_commitAndOpen.1 (runs 2)
  rw [(finished 0 (by decide)).2, (finished 1 (by decide)).2, sent, sends_append, sends_append]
  simp only [sends_broadcastActions _ _ (show (0 : Fin 3) ≠ 2 by decide),
    sends_broadcastActions _ _ (show (1 : Fin 3) ≠ 2 by decide)]

end Executions

end ProofOfCustody.Tools
