import Mathlib.Algebra.BigOperators.Group.Finset.Basic
import Mathlib.Algebra.Order.BigOperators.Group.Finset
import Mathlib.Logic.Relation
import ProofOfCustody.Network.Process

/-!
# Executions with reliable FIFO channels

The honest parties follow their processes; any other party may put any message on its own channels
at any time. `History` says that an honest party is where its own actions have led it, and
`Aligned` that the messages still to be sent are those still awaited.
-/

namespace ProofOfCustody.Network
open Process Relation

variable {ι M α : Type}

structure State (ι M α : Type) where
  procs : ι → Process ι M α
  /-- `received i j` is what `j` has taken from the channel of `i`. -/
  received : ι → ι → List M
  queue : ι → ι → List M

variable [DecidableEq ι]

namespace State

def initial (p : ι → Process ι M α) : State ι M α where
  procs := p
  received _ _ := []
  queue _ _ := []

def sent (s : State ι M α) (i j : ι) : List M := s.received i j ++ s.queue i j

def Finished (s : State ι M α) (i : ι) (a : α) : Prop := s.procs i = ret a

def become (s : State ι M α) (i : ι) (q : Process ι M α) : State ι M α :=
  { s with procs := Function.update s.procs i q }

def put (s : State ι M α) (i j : ι) (m : M) : State ι M α :=
  { s with queue := fun i' j' => if i' = i ∧ j' = j then s.queue i j ++ [m] else s.queue i' j' }

def take (s : State ι M α) (i j : ι) (m : M) (ms : List M) : State ι M α :=
  { s with
    received := fun j' i' => if j' = j ∧ i' = i then s.received j i ++ [m] else s.received j' i'
    queue := fun j' i' => if j' = j ∧ i' = i then ms else s.queue j' i' }

variable (s : State ι M α) (i j i' j' : ι) (m : M) (ms : List M) (q : Process ι M α)

@[simp] theorem become_procs : (s.become i q).procs i = q := Function.update_self _ _ _
theorem become_procs_other {i i' : ι} (other : i' ≠ i) : (s.become i q).procs i' = s.procs i' :=
  Function.update_of_ne other _ _
@[simp] theorem become_received : (s.become i q).received = s.received := rfl
@[simp] theorem become_queue : (s.become i q).queue = s.queue := rfl
@[simp] theorem become_sent : (s.become i q).sent i' j' = s.sent i' j' := rfl

@[simp] theorem put_procs : (s.put i j m).procs = s.procs := rfl
@[simp] theorem put_received : (s.put i j m).received = s.received := rfl
@[simp] theorem put_queue : (s.put i j m).queue i' j' =
    if i' = i ∧ j' = j then s.queue i j ++ [m] else s.queue i' j' := rfl

theorem put_sent : (s.put i j m).sent i' j' =
    if i' = i ∧ j' = j then s.sent i j ++ [m] else s.sent i' j' := by
  by_cases same : i' = i ∧ j' = j
  · obtain ⟨rfl, rfl⟩ := same
    simp [sent]
  · simp [sent, same]

@[simp] theorem take_procs : (s.take i j m ms).procs = s.procs := rfl
@[simp] theorem take_received : (s.take i j m ms).received j' i' =
    if j' = j ∧ i' = i then s.received j i ++ [m] else s.received j' i' := rfl
@[simp] theorem take_queue : (s.take i j m ms).queue j' i' =
    if j' = j ∧ i' = i then ms else s.queue j' i' := rfl

theorem take_sent {s : State ι M α} {i j : ι} {m : M} {ms : List M}
    (arrived : s.queue j i = m :: ms) (j' i' : ι) :
    (s.take i j m ms).sent j' i' = s.sent j' i' := by
  by_cases same : j' = j ∧ i' = i
  · obtain ⟨rfl, rfl⟩ := same
    simp [sent, arrived]
  · simp [sent, same]

end State

inductive Step (honest : ι → Prop) (s : State ι M α) : State ι M α → Prop
  | send {i j : ι} {m : M} {next : Process ι M α} (follows : honest i)
      (turn : s.procs i = .send j m next) : Step honest s ((s.put i j m).become i next)
  | recv {i j : ι} {m : M} {ms : List M} {next : M → Process ι M α} (follows : honest i)
      (turn : s.procs i = .recv j next) (arrived : s.queue j i = m :: ms) :
      Step honest s ((s.take i j m ms).become i (next m))
  | corrupt {i j : ι} {m : M} (free : ¬honest i) : Step honest s (s.put i j m)

def Reachable (honest : ι → Prop) (p : ι → Process ι M α) : State ι M α → Prop :=
  ReflTransGen (Step honest) (.initial p)

section History
variable {honest : ι → Prop} {p : ι → Process ι M α}

def History (honest : ι → Prop) (p : ι → Process ι M α) (s : State ι M α) : Prop :=
  ∀ i, honest i → ∃ L, Runs (p i) L (s.procs i) ∧
    (∀ j, sends j L = s.sent i j) ∧ ∀ j, recvs j L = s.received j i

theorem History.step {s s' : State ι M α} (history : History honest p s) (step : Step honest s s') :
    History honest p s' := by
  intro i follows
  obtain ⟨L, run, sent, received⟩ := history i follows
  cases step with
  | @send i' j m next _ turn =>
      by_cases own : i = i'
      · subst own
        refine ⟨L ++ [.send j m], ?_, fun k => ?_, fun k => ?_⟩
        · rw [State.become_procs]
          exact (turn ▸ run).snoc_send
        · by_cases same : j = k
          · simp [State.put_sent, sent, same]
          · simp [State.put_sent, sent, same, Ne.symm same]
        · simp [received]
      · refine ⟨L, ?_, fun k => ?_, received⟩
        · rwa [State.become_procs_other _ _ own]
        · rw [sent, State.become_sent, State.put_sent, if_neg fun both => own both.1]
  | @recv i' j m ms next _ turn arrived =>
      by_cases own : i = i'
      · subst own
        refine ⟨L ++ [.recv j m], ?_, fun k => ?_, fun k => ?_⟩
        · rw [State.become_procs]
          exact (turn ▸ run).snoc_recv m
        · simp [State.take_sent arrived, sent]
        · by_cases same : j = k
          · simp [received, same]
          · simp [received, same, Ne.symm same]
      · refine ⟨L, ?_, fun k => ?_, fun k => ?_⟩
        · rwa [State.become_procs_other _ _ own]
        · rw [sent, State.become_sent, State.take_sent arrived]
        · simp [received, own]
  | @corrupt i' j m free =>
      have own : i ≠ i' := fun same => free (same ▸ follows)
      refine ⟨L, run, fun k => ?_, received⟩
      rw [sent, State.put_sent, if_neg fun both => own both.1]

theorem Reachable.history {s : State ι M α} (reachable : Reachable honest p s) :
    History honest p s := by
  induction reachable with
  | refl => exact fun i _ => ⟨[], .stop _, fun _ => rfl, fun _ => rfl⟩
  | tail _ step ih => exact ih.step step

theorem Reachable.finished {s : State ι M α} (reachable : Reachable honest p s) {i : ι} {a : α}
    (follows : honest i) (finished : s.Finished i a) :
    ∃ L, Runs (p i) L (ret a) ∧ (∀ j, sends j L = s.sent i j) ∧
      ∀ j, recvs j L = s.received j i := by
  obtain ⟨L, run, sent, received⟩ := reachable.history i follows
  exact ⟨L, finished ▸ run, sent, received⟩

theorem Reachable.sent_begins [Nonempty M] {s : State ι M α} (reachable : Reachable honest p s)
    {i : ι} (follows : honest i) :
    ∃ L a, Runs (p i) L (ret a) ∧ ∀ j, s.sent i j <+: sends j L := by
  obtain ⟨L, run, sent, _⟩ := reachable.history i follows
  obtain ⟨L', a, rest⟩ := exists_runs_ret (s.procs i)
  refine ⟨L ++ L', a, run.append rest, fun j => ?_⟩
  rw [sends_append, sent j]
  exact List.prefix_append _ _

end History

/-! ## Scripts in rounds -/

abbrev Script (ι M : Type) := List (Nat × Action ι M)

namespace Script

/-- In every round a party sends first. -/
def rank : Nat × Action ι M → Nat
  | (k, .send _ _) => 2 * k
  | (k, .recv _ _) => 2 * k + 1

def actions (S : Script ι M) : List (Action ι M) := S.map Prod.snd

def sendsAt (j : ι) (S : Script ι M) : List (Nat × M) :=
  S.filterMap fun
    | (k, .send i m) => if i = j then some (k, m) else none
    | (_, .recv _ _) => none

def recvsAt (j : ι) (S : Script ι M) : List (Nat × M) :=
  S.filterMap fun
    | (_, .send _ _) => none
    | (k, .recv i m) => if i = j then some (k, m) else none

variable (j i : ι) (k : Nat) (m : M) (S : Script ι M)

omit [DecidableEq ι] in
@[simp] theorem actions_cons (a : Action ι M) : actions ((k, a) :: S) = a :: actions S := rfl
@[simp] theorem sendsAt_cons_send : sendsAt j ((k, .send i m) :: S) =
    if i = j then (k, m) :: sendsAt j S else sendsAt j S := by
  by_cases same : i = j <;> simp [sendsAt, same]
@[simp] theorem sendsAt_cons_recv : sendsAt j ((k, .recv i m) :: S) = sendsAt j S := by
  simp [sendsAt]
@[simp] theorem recvsAt_cons_send : recvsAt j ((k, .send i m) :: S) = recvsAt j S := by
  simp [recvsAt]
@[simp] theorem recvsAt_cons_recv : recvsAt j ((k, .recv i m) :: S) =
    if i = j then (k, m) :: recvsAt j S else recvsAt j S := by
  by_cases same : i = j <;> simp [recvsAt, same]

theorem sends_actions : sends j (actions S) = (sendsAt j S).map Prod.snd := by
  induction S with
  | nil => rfl
  | cons e S ih =>
      obtain ⟨k, a⟩ := e
      cases a with
      | send i m => by_cases same : i = j <;> simp [same, ih]
      | recv i m => simp [ih]

theorem recvs_actions : recvs j (actions S) = (recvsAt j S).map Prod.snd := by
  induction S with
  | nil => rfl
  | cons e S ih =>
      obtain ⟨k, a⟩ := e
      cases a with
      | send i m => simp [ih]
      | recv i m => by_cases same : i = j <;> simp [same, ih]

variable {j i k m S} in
theorem send_mem_of_mem_sendsAt (member : (k, m) ∈ sendsAt j S) : (k, .send j m) ∈ S := by
  obtain ⟨⟨k', a⟩, inside, value⟩ := List.mem_filterMap.1 member
  cases a with
  | recv i' m' => simp at value
  | send i' m' =>
      by_cases same : i' = j
      · simp only [same, if_true, Option.some.injEq, Prod.mk.injEq] at value
        obtain ⟨rfl, rfl⟩ := value
        exact same ▸ inside
      · simp [same] at value

def atRound (k : Nat) (L : List (Action ι M)) : Script ι M := L.map (Prod.mk k)

def exchange (js : List ι) : Nat → List ((ι → List M) × (ι → List M)) → Script ι M
  | _, [] => []
  | k, (o, x) :: rounds =>
    atRound k (sendActions js o) ++ (atRound k (recvActions js x) ++ exchange js (k + 1) rounds)

def numbered : Nat → List (List M) → List (Nat × M)
  | _, [] => []
  | k, ms :: rounds => ms.map (Prod.mk k) ++ numbered (k + 1) rounds

section Exchange
variable {j : ι}

omit [DecidableEq ι] in
@[simp] theorem actions_append (S T : Script ι M) : actions (S ++ T) = actions S ++ actions T :=
  List.map_append

omit [DecidableEq ι] in
@[simp] theorem actions_atRound (k : Nat) (L : List (Action ι M)) : actions (atRound k L) = L := by
  simp [actions, atRound]

theorem sendsAt_append (S T : Script ι M) : sendsAt j (S ++ T) = sendsAt j S ++ sendsAt j T :=
  List.filterMap_append

theorem recvsAt_append (S T : Script ι M) : recvsAt j (S ++ T) = recvsAt j S ++ recvsAt j T :=
  List.filterMap_append

theorem sendsAt_atRound (k : Nat) (L : List (Action ι M)) :
    sendsAt j (atRound k L) = (sends j L).map (Prod.mk k) := by
  induction L with
  | nil => rfl
  | cons a L ih =>
      change sendsAt j ((k, a) :: atRound k L) = _
      cases a with
      | recv i m => rw [sendsAt_cons_recv, sends_cons_recv, ih]
      | send i m =>
          rw [sendsAt_cons_send, sends_cons_send, ih]
          split <;> rfl

theorem recvsAt_atRound (k : Nat) (L : List (Action ι M)) :
    recvsAt j (atRound k L) = (recvs j L).map (Prod.mk k) := by
  induction L with
  | nil => rfl
  | cons a L ih =>
      change recvsAt j ((k, a) :: atRound k L) = _
      cases a with
      | send i m => rw [recvsAt_cons_send, recvs_cons_send, ih]
      | recv i m =>
          rw [recvsAt_cons_recv, recvs_cons_recv, ih]
          split <;> rfl

theorem sendsAt_exchange {js : List ι} (distinct : js.Nodup)
    (rounds : List ((ι → List M) × (ι → List M))) (k : Nat) :
    sendsAt j (exchange js k rounds) =
      if j ∈ js then numbered k (rounds.map fun round => round.1 j) else [] := by
  induction rounds generalizing k with
  | nil => split <;> rfl
  | cons round rounds ih =>
      rw [exchange, sendsAt_append, sendsAt_append, sendsAt_atRound, sendsAt_atRound,
        sends_sendActions _ distinct, sends_recvActions, ih]
      split <;> rfl

theorem recvsAt_exchange {js : List ι} (distinct : js.Nodup)
    (rounds : List ((ι → List M) × (ι → List M))) (k : Nat) :
    recvsAt j (exchange js k rounds) =
      if j ∈ js then numbered k (rounds.map fun round => round.2 j) else [] := by
  induction rounds generalizing k with
  | nil => split <;> rfl
  | cons round rounds ih =>
      rw [exchange, recvsAt_append, recvsAt_append, recvsAt_atRound, recvsAt_atRound,
        recvs_recvActions _ distinct, recvs_sendActions, ih]
      split <;> rfl

theorem sends_exchange {js : List ι} (distinct : js.Nodup) (member : j ∈ js)
    (rounds : List ((ι → List M) × (ι → List M))) (k : Nat) :
    sends j (actions (exchange js k rounds)) = rounds.flatMap fun round => round.1 j := by
  induction rounds generalizing k with
  | nil => rfl
  | cons round rounds ih =>
      simp [exchange, sends_sendActions _ distinct, member, ih]

theorem recvs_exchange {js : List ι} (distinct : js.Nodup) (member : j ∈ js)
    (rounds : List ((ι → List M) × (ι → List M))) (k : Nat) :
    recvs j (actions (exchange js k rounds)) = rounds.flatMap fun round => round.2 j := by
  induction rounds generalizing k with
  | nil => rfl
  | cons round rounds ih =>
      simp [exchange, recvs_recvActions _ distinct, member, ih]

omit [DecidableEq ι] in
theorem rank_atRound_sendActions {k : Nat} {js : List ι} {o : ι → List M} {e : Nat × Action ι M}
    (member : e ∈ atRound k (sendActions js o)) : rank e = 2 * k := by
  obtain ⟨a, inside, rfl⟩ := List.mem_map.1 member
  obtain ⟨j, _, inside⟩ := List.mem_flatMap.1 inside
  obtain ⟨m, _, rfl⟩ := List.mem_map.1 inside
  rfl

omit [DecidableEq ι] in
theorem rank_atRound_recvActions {k : Nat} {js : List ι} {x : ι → List M} {e : Nat × Action ι M}
    (member : e ∈ atRound k (recvActions js x)) : rank e = 2 * k + 1 := by
  obtain ⟨a, inside, rfl⟩ := List.mem_map.1 member
  obtain ⟨j, _, inside⟩ := List.mem_flatMap.1 inside
  obtain ⟨m, _, rfl⟩ := List.mem_map.1 inside
  rfl

omit [DecidableEq ι] in
theorem exchange_ordered (js : List ι) (rounds : List ((ι → List M) × (ι → List M))) (k : Nat) :
    (exchange js k rounds).Pairwise (rank · ≤ rank ·) ∧ ∀ e ∈ exchange js k rounds, 2 * k ≤ rank e := by
  induction rounds generalizing k with
  | nil => exact ⟨.nil, nofun⟩
  | cons round rounds ih =>
      obtain ⟨later, bound⟩ := ih (k + 1)
      refine ⟨?_, fun e member => ?_⟩
      · rw [exchange, List.pairwise_append, List.pairwise_append]
        refine ⟨?_, ⟨?_, later, ?_⟩, ?_⟩
        · apply List.pairwise_of_forall_mem_list
          intro e he e' he'
          rw [rank_atRound_sendActions he, rank_atRound_sendActions he']
        · apply List.pairwise_of_forall_mem_list
          intro e he e' he'
          rw [rank_atRound_recvActions he, rank_atRound_recvActions he']
        · intro e he e' he'
          have := bound e' he'
          rw [rank_atRound_recvActions he]
          omega
        · intro e he e' he'
          rw [rank_atRound_sendActions he]
          rcases List.mem_append.1 he' with he' | he'
          · rw [rank_atRound_recvActions he']
            omega
          · have := bound e' he'
            omega
      · rcases List.mem_append.1 member with sent | member
        · rw [rank_atRound_sendActions sent]
        · rcases List.mem_append.1 member with taken | member
          · rw [rank_atRound_recvActions taken]
            omega
          · have := bound e member
            omega

end Exchange

end Script

open Script

section Aligned
variable {honest : ι → Prop} {p : ι → Process ι M α}

/-- The parties have the scripts `rest` before them, and all that an honest party awaits from
another one is on the channel or in the sender's script. -/
structure Aligned (honest : ι → Prop) (script : ι → Script ι M) (result : ι → α)
    (s : State ι M α) (rest : ι → Script ι M) : Prop where
  runs : ∀ i, honest i → Runs (s.procs i) (actions (rest i)) (ret (result i))
  ordered : ∀ i, honest i → (rest i).Pairwise (rank · ≤ rank ·)
  matched : ∀ i j, honest i → honest j → ∃ Q : List (Nat × M), Q.map Prod.snd = s.queue i j ∧
    Q ++ sendsAt j (rest i) = recvsAt i (rest j)
  received : ∀ i j, honest i → s.received j i ++ recvs j (actions (rest i)) =
    recvs j (actions (script i))
  supplied : ∀ i j, ¬honest i → honest j → s.queue i j <+: recvs i (actions (rest j))

variable {script rest : ι → Script ι M} {result : ι → α} {s s' : State ι M α}

theorem Aligned.initial (runs : ∀ i, honest i → Runs (p i) (actions (script i)) (ret (result i)))
    (ordered : ∀ i, honest i → (script i).Pairwise (rank · ≤ rank ·))
    (matched : ∀ i j, honest i → honest j → sendsAt j (script i) = recvsAt i (script j)) :
    Aligned honest script result (.initial p) script where
  runs := runs
  ordered := ordered
  matched i j hi hj := ⟨[], rfl, matched i j hi hj⟩
  received _ _ _ := rfl
  supplied _ _ _ _ := List.nil_prefix

namespace Aligned

theorem head_send (aligned : Aligned honest script result s rest) {i j : ι} {m : M}
    {next : Process ι M α} (follows : honest i) (turn : s.procs i = .send j m next) :
    ∃ k tail, rest i = (k, .send j m) :: tail ∧ Runs next (actions tail) (ret (result i)) := by
  obtain ⟨L, shape, run⟩ := runs_send.1 (turn ▸ aligned.runs i follows)
  cases split : rest i with
  | nil => simp [split, actions] at shape
  | cons e tail =>
      rw [split] at shape
      obtain ⟨same, rfl⟩ := List.cons.inj shape
      obtain ⟨k, a⟩ := e
      exact ⟨k, tail, by rw [show a = _ from same], run⟩

theorem head_recv (aligned : Aligned honest script result s rest) {i j : ι}
    {next : M → Process ι M α} (follows : honest i) (turn : s.procs i = .recv j next) :
    ∃ k m tail, rest i = (k, .recv j m) :: tail ∧
      Runs (next m) (actions tail) (ret (result i)) := by
  obtain ⟨m, L, shape, run⟩ := runs_recv.1 (turn ▸ aligned.runs i follows)
  cases split : rest i with
  | nil => simp [split, actions] at shape
  | cons e tail =>
      rw [split] at shape
      obtain ⟨same, rfl⟩ := List.cons.inj shape
      obtain ⟨k, a⟩ := e
      exact ⟨k, m, tail, by rw [show a = _ from same], run⟩

theorem runs_become (aligned : Aligned honest script result s rest) {i : ι} {tail : Script ι M}
    {q : Process ι M α} (run : Runs q (actions tail) (ret (result i))) (i' : ι) (h : honest i') :
    Runs ((s.become i q).procs i') (actions (Function.update rest i tail i')) (ret (result i')) := by
  by_cases same : i' = i
  · subst same
    rwa [State.become_procs, Function.update_self]
  · rw [State.become_procs_other _ _ same, Function.update_of_ne same]
    exact aligned.runs i' h

theorem ordered_tail (aligned : Aligned honest script result s rest) {i : ι}
    {e : Nat × Action ι M} {tail : Script ι M} (shape : rest i = e :: tail) (i' : ι)
    (h : honest i') : (Function.update rest i tail i').Pairwise (rank · ≤ rank ·) := by
  by_cases same : i' = i
  · subst same
    have ordered := aligned.ordered i' h
    rw [shape] at ordered
    rw [Function.update_self]
    exact ordered.of_cons
  · rw [Function.update_of_ne same]
    exact aligned.ordered i' h

theorem arrives (aligned : Aligned honest script result s rest) {i j : ι} {k : Nat} {m m' : M}
    {ms : List M} {tail : Script ι M} (follows : honest i)
    (shape : rest i = (k, .recv j m) :: tail) (arrived : s.queue j i = m' :: ms) : m' = m := by
  by_cases peer : honest j
  · obtain ⟨Q, value, matched⟩ := aligned.matched j i peer follows
    rw [arrived] at value
    obtain ⟨e, Q', rfl, same, _⟩ := List.map_eq_cons_iff.1 value
    rw [shape, recvsAt_cons_recv, if_pos rfl, List.cons_append] at matched
    rw [← same, (List.cons.inj matched).1]
  · have inside := aligned.supplied j i peer follows
    rw [arrived, shape, actions_cons, recvs_cons_recv, if_pos rfl] at inside
    exact (List.cons_prefix_cons.1 inside).1

theorem send (aligned : Aligned honest script result s rest) {i j : ι} {k : Nat} {m : M}
    {tail : Script ι M} {next : Process ι M α} (follows : honest i)
    (shape : rest i = (k, .send j m) :: tail) (run : Runs next (actions tail) (ret (result i))) :
    Aligned honest script result ((s.put i j m).become i next) (Function.update rest i tail) := by
  have recvsSame (j' i' : ι) : recvsAt j' (Function.update rest i tail i') = recvsAt j' (rest i') := by
    by_cases same : i' = i
    · subst same
      rw [Function.update_self, shape, recvsAt_cons_send]
    · rw [Function.update_of_ne same]
  have actionsSame (j' i' : ι) : recvs j' (actions (Function.update rest i tail i')) =
      recvs j' (actions (rest i')) := by
    by_cases same : i' = i
    · subst same
      rw [Function.update_self, shape, actions_cons, recvs_cons_send]
    · rw [Function.update_of_ne same]
  refine ⟨aligned.runs_become run, aligned.ordered_tail shape, fun i' j' hi hj => ?_,
    fun i' j' h => ?_, fun i' j' hi hj => ?_⟩
  · obtain ⟨Q, value, matched⟩ := aligned.matched i' j' hi hj
    rw [recvsSame, State.become_queue, State.put_queue]
    by_cases same : i' = i
    · subst same
      rw [shape, sendsAt_cons_send] at matched
      rw [Function.update_self]
      by_cases target : j' = j
      · subst target
        rw [if_pos rfl] at matched
        exact ⟨Q ++ [(k, m)], by simp [value], by simp [matched]⟩
      · rw [if_neg (Ne.symm target)] at matched
        exact ⟨Q, by simp [value, target], matched⟩
    · rw [Function.update_of_ne same]
      exact ⟨Q, by simp [value, same], matched⟩
  · rw [actionsSame]
    exact aligned.received i' j' h
  · rw [actionsSame, State.become_queue, State.put_queue,
      if_neg fun both : i' = i ∧ _ => hi (both.1 ▸ follows)]
    exact aligned.supplied i' j' hi hj

theorem recv (aligned : Aligned honest script result s rest) {i j : ι} {k : Nat} {m : M}
    {ms : List M} {tail : Script ι M} {next : M → Process ι M α} (follows : honest i)
    (shape : rest i = (k, .recv j m) :: tail)
    (run : Runs (next m) (actions tail) (ret (result i))) (arrived : s.queue j i = m :: ms) :
    Aligned honest script result ((s.take i j m ms).become i (next m))
      (Function.update rest i tail) := by
  have sendsSame (j' i' : ι) : sendsAt j' (Function.update rest i tail i') = sendsAt j' (rest i') := by
    by_cases same : i' = i
    · subst same
      rw [Function.update_self, shape, sendsAt_cons_recv]
    · rw [Function.update_of_ne same]
  refine ⟨aligned.runs_become run, aligned.ordered_tail shape, fun j' i' hj hi => ?_,
    fun i' j' h => ?_, fun j' i' hj hi => ?_⟩
  · obtain ⟨Q, value, matched⟩ := aligned.matched j' i' hj hi
    rw [sendsSame, State.become_queue, State.take_queue]
    by_cases same : i' = i
    · subst same
      rw [shape, recvsAt_cons_recv] at matched
      rw [Function.update_self]
      by_cases source : j' = j
      · subst source
        rw [if_pos rfl] at matched
        rw [arrived] at value
        obtain ⟨e, Q', rfl, _, value⟩ := List.map_eq_cons_iff.1 value
        exact ⟨Q', by simp [value], (List.cons.inj matched).2⟩
      · rw [if_neg (Ne.symm source)] at matched
        exact ⟨Q, by simp [value, source], matched⟩
    · rw [Function.update_of_ne same]
      exact ⟨Q, by simp [value, same], matched⟩
  · have whole := aligned.received i' j' h
    rw [State.become_received, State.take_received]
    by_cases same : i' = i
    · subst same
      rw [shape, actions_cons, recvs_cons_recv] at whole
      rw [Function.update_self]
      by_cases source : j' = j
      · subst source
        simpa using whole
      · simpa [source, Ne.symm source] using whole
    · simpa [same] using whole
  · have inside := aligned.supplied j' i' hj hi
    rw [State.become_queue, State.take_queue]
    by_cases same : i' = i
    · subst same
      rw [shape, actions_cons, recvs_cons_recv] at inside
      rw [Function.update_self]
      by_cases source : j' = j
      · subst source
        rw [if_pos rfl, arrived] at inside
        rw [if_pos ⟨rfl, rfl⟩]
        exact (List.cons_prefix_cons.1 inside).2
      · rw [if_neg (Ne.symm source)] at inside
        rwa [if_neg fun both => source both.1]
    · rwa [if_neg fun both => same both.2, Function.update_of_ne same]

theorem supply (aligned : Aligned honest script result s rest) {i j : ι} {k : Nat} {m : M}
    {tail : Script ι M} (free : ¬honest j) (shape : rest i = (k, .recv j m) :: tail)
    (empty : s.queue j i = []) : Aligned honest script result (s.put j i m) rest := by
  refine ⟨aligned.runs, aligned.ordered, fun i' j' hi hj => ?_, aligned.received,
    fun j' i' hj hi => ?_⟩
  · rw [State.put_queue, if_neg fun both : i' = j ∧ _ => free (both.1 ▸ hi)]
    exact aligned.matched i' j' hi hj
  · rw [State.put_queue]
    by_cases same : j' = j ∧ i' = i
    · obtain ⟨rfl, rfl⟩ := same
      simp [empty, shape]
    · rw [if_neg same]
      exact aligned.supplied j' i' hj hi

variable [Fintype ι]

def remaining (rest : ι → Script ι M) : Nat := ∑ i, (rest i).length

omit [DecidableEq ι] in
theorem remaining_lt [DecidableEq ι] {i : ι} {e : Nat × Action ι M} {tail : Script ι M}
    (shape : rest i = e :: tail) : remaining (Function.update rest i tail) < remaining rest := by
  apply Finset.sum_lt_sum
  · intro i' _
    by_cases same : i' = i
    · subst same
      simp [shape]
    · simp [same]
  · exact ⟨i, Finset.mem_univ i, by simp [shape]⟩

def Advances (honest : ι → Prop) (script : ι → Script ι M) (result : ι → α) (s : State ι M α)
    (rest : ι → Script ι M) : Prop :=
  ∃ s' rest', TransGen (Step honest) s s' ∧ Aligned honest script result s' rest' ∧
    remaining rest' < remaining rest

theorem advances_send (aligned : Aligned honest script result s rest) {i j : ι} {k : Nat} {m : M}
    {tail : Script ι M} (follows : honest i) (shape : rest i = (k, .send j m) :: tail) :
    Advances honest script result s rest := by
  have run := aligned.runs i follows
  rw [shape, actions_cons] at run
  cases turn : s.procs i with
  | ret a => simp [turn] at run
  | recv j' next => simp [turn, runs_recv] at run
  | send j' m' next =>
      rw [turn] at run
      cases run with
      | send run =>
          exact ⟨_, _, .single (.send follows turn), aligned.send follows shape run,
            remaining_lt shape⟩

theorem advances_recv (aligned : Aligned honest script result s rest) {i j : ι} {k : Nat} {m : M}
    {tail : Script ι M} (follows : honest i) (shape : rest i = (k, .recv j m) :: tail)
    (ready : s.queue j i ≠ [] ∨ ¬honest j) : Advances honest script result s rest := by
  have run := aligned.runs i follows
  rw [shape, actions_cons] at run
  cases turn : s.procs i with
  | ret a => simp [turn] at run
  | send j' m' next => simp [turn, runs_send] at run
  | recv j' next =>
      rw [turn] at run
      cases run with
      | recv run =>
          cases content : s.queue j i with
          | cons m' ms =>
              obtain rfl := aligned.arrives follows shape content
              exact ⟨_, _, .single (.recv follows turn content),
                aligned.recv follows shape run content, remaining_lt shape⟩
          | nil =>
              have free := ready.resolve_left (not_not_intro content)
              have supplied := aligned.supply free shape content
              have content' : (s.put j i m).queue j i = [m] := by simp [content]
              exact ⟨_, _, .tail (.single (.corrupt free)) (.recv follows turn content'),
                supplied.recv follows shape run content', remaining_lt shape⟩

/-- The induction is on the round of the awaited message: the sender is still in an earlier one. -/
theorem advances (aligned : Aligned honest script result s rest) {i : ι} (follows : honest i)
    (unfinished : rest i ≠ []) : Advances honest script result s rest := by
  obtain ⟨⟨k, a⟩, tail, shape⟩ := List.exists_cons_of_ne_nil unfinished
  induction k using Nat.strong_induction_on generalizing i a tail with
  | _ k ih =>
      cases a with
      | send j m => exact aligned.advances_send follows shape
      | recv j m =>
          by_cases ready : s.queue j i ≠ [] ∨ ¬honest j
          · exact aligned.advances_recv follows shape ready
          · obtain ⟨empty, peer⟩ := not_or.1 ready
            rw [not_not] at empty peer
            obtain ⟨Q, value, matched⟩ := aligned.matched j i peer follows
            rw [empty, List.map_eq_nil_iff] at value
            subst value
            rw [shape, recvsAt_cons_recv, if_pos rfl, List.nil_append] at matched
            have pending : (k, Action.send i m) ∈ rest j :=
              send_mem_of_mem_sendsAt (matched ▸ List.mem_cons_self)
            cases shape' : rest j with
            | nil => simp [shape'] at pending
            | cons e tail' =>
                obtain ⟨k', a'⟩ := e
                cases a' with
                | send j' m' => exact aligned.advances_send peer shape'
                | recv j' m' =>
                    have earlier := aligned.ordered j peer
                    rw [shape', List.pairwise_cons] at earlier
                    rw [shape'] at pending
                    have later : (k, Action.send i m) ∈ tail' :=
                      (List.mem_cons.1 pending).resolve_left (by simp)
                    have bound := earlier.1 _ later
                    exact ih k' (by simp only [rank] at bound; omega) peer (by simp [shape']) _ _ shape'

theorem finish (aligned : Aligned honest script result s rest) :
    ∃ s', ReflTransGen (Step honest) s s' ∧ ∀ i, honest i → s'.Finished i (result i) ∧
      ∀ j, s'.received j i = recvs j (actions (script i)) := by
  induction size : remaining rest using Nat.strong_induction_on generalizing s rest with
  | _ size' ih =>
      by_cases unfinished : ∃ i, honest i ∧ rest i ≠ []
      · obtain ⟨i, follows, unfinished⟩ := unfinished
        obtain ⟨s', rest', steps, aligned', less⟩ := aligned.advances follows unfinished
        obtain ⟨s'', steps', finished⟩ := ih _ (size ▸ less) aligned' rfl
        exact ⟨s'', steps.to_reflTransGen.trans steps', finished⟩
      · have done (i : ι) (follows : honest i) : rest i = [] := by
          by_contra more
          exact unfinished ⟨i, follows, more⟩
        refine ⟨s, .refl, fun i follows => ⟨?_, fun j => ?_⟩⟩
        · have run := aligned.runs i follows
          rw [done i follows] at run
          generalize turn : s.procs i = q at run
          cases run with
          | stop => exact turn
        · simpa [done i follows, actions] using aligned.received i j follows

end Aligned

/-! ## Executions without corrupted parties -/

section Honest
variable {script rest : ι → Script ι M} {result : ι → α} {s s' : State ι M α}

theorem Aligned.step (aligned : Aligned (fun _ => True) script result s rest)
    (step : Step (fun _ => True) s s') :
    ∃ rest', Aligned (fun _ => True) script result s' rest' := by
  cases step with
  | send follows turn =>
      obtain ⟨k, tail, shape, run⟩ := aligned.head_send follows turn
      exact ⟨_, aligned.send follows shape run⟩
  | recv follows turn arrived =>
      obtain ⟨k, m, tail, shape, run⟩ := aligned.head_recv follows turn
      obtain rfl := aligned.arrives follows shape arrived
      exact ⟨_, aligned.recv follows shape run arrived⟩
  | corrupt free => exact absurd trivial free

theorem Aligned.reachable (aligned : Aligned (fun _ => True) script result s rest)
    (steps : ReflTransGen (Step fun _ => True) s s') :
    ∃ rest', Aligned (fun _ => True) script result s' rest' := by
  induction steps with
  | refl => exact ⟨rest, aligned⟩
  | tail _ step ih =>
      obtain ⟨rest', aligned'⟩ := ih
      exact aligned'.step step

theorem Aligned.result_eq (aligned : Aligned (fun _ => True) script result s rest) {i : ι} {a : α}
    (finished : s.Finished i a) : a = result i := by
  have run := aligned.runs i trivial
  rw [show s.procs i = ret a from finished] at run
  obtain ⟨_, same⟩ := runs_ret.1 run
  cases same
  rfl

theorem Aligned.progress [Fintype ι] (aligned : Aligned (fun _ => True) script result s rest)
    (unfinished : ∃ i, ∀ a, ¬s.Finished i a) : ∃ s', Step (fun _ => True) s s' := by
  obtain ⟨i, unfinished⟩ := unfinished
  have more : rest i ≠ [] := by
    intro done
    have run := aligned.runs i trivial
    rw [done] at run
    generalize turn : s.procs i = q at run
    cases run with
    | stop => exact unfinished _ turn
  obtain ⟨_, _, steps, _⟩ := aligned.advances trivial more
  obtain ⟨s', step, _⟩ := TransGen.head'_iff.1 steps
  exact ⟨s', step⟩

end Honest

end Aligned

end ProofOfCustody.Network
