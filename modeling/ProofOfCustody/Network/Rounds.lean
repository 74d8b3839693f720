import ProofOfCustody.Network.Execution

/-!
# Protocols in rounds

A protocol that all parties follow comes to an end in every order of its steps, when its parties can
be given scripts in which each round delivers what it sends. Such protocols compose.
-/

namespace ProofOfCustody.Network
open Process Relation Script

variable {ι M α β : Type} [DecidableEq ι]

abbrev Follows (s s' : State ι M α) : Prop := Step (fun _ => True) s s'

/-- Whatever the order of the steps: no execution goes on forever, none gets stuck before all
parties have returned, and a party `i` that has returned has returned `a i`. -/
structure Settles (p : ι → Process ι M α) (a : ι → α) : Prop where
  ends : Acc (fun s' s => Follows s s') (.initial p)
  progress : ∀ {s}, Reachable (fun _ => True) p s →
    (∃ s', Follows s s') ∨ ∀ i, s.Finished i (a i)
  result : ∀ {s}, Reachable (fun _ => True) p s → ∀ {i b}, s.Finished i b → b = a i

/-- Scripts of `len` rounds lead `p` to `a`, and every message is received in the round in which it
is sent. -/
def Rounds (len : Nat) (p : ι → Process ι M α) (a : ι → α) : Prop :=
  ∃ script : ι → Script ι M,
    (∀ i, Runs (p i) (actions (script i)) (ret (a i))) ∧
    (∀ i, (script i).Pairwise (rank · ≤ rank ·)) ∧
    (∀ i, ∀ e ∈ script i, e.1 < len) ∧
    ∀ i j, sendsAt j (script i) = recvsAt i (script j)

section Settles
variable [Fintype ι] {script rest : ι → Script ι M} {a : ι → α} {s s' : State ι M α}

theorem Aligned.lowers (aligned : Aligned (fun _ => True) script a s rest) (step : Follows s s') :
    ∃ rest', Aligned (fun _ => True) script a s' rest' ∧
      Aligned.remaining rest' < Aligned.remaining rest := by
  cases step with
  | send follows turn =>
      obtain ⟨k, tail, shape, run⟩ := aligned.head_send follows turn
      exact ⟨_, aligned.send follows shape run, Aligned.remaining_lt shape⟩
  | recv follows turn arrived =>
      obtain ⟨k, m, tail, shape, run⟩ := aligned.head_recv follows turn
      obtain rfl := aligned.arrives follows shape arrived
      exact ⟨_, aligned.recv follows shape run arrived, Aligned.remaining_lt shape⟩
  | corrupt free => exact absurd trivial free

theorem Aligned.ends (aligned : Aligned (fun _ => True) script a s rest) :
    Acc (fun s' s => Follows s s') s := by
  induction size : Aligned.remaining rest using Nat.strong_induction_on generalizing s rest with
  | _ _ ih =>
      refine Acc.intro s fun s' step => ?_
      obtain ⟨rest', aligned', less⟩ := aligned.lowers step
      exact ih _ (size ▸ less) aligned' rfl

theorem Rounds.settles {len : Nat} {p : ι → Process ι M α} (rounds : Rounds len p a) :
    Settles p a := by
  obtain ⟨script, runs, ordered, _, matched⟩ := rounds
  have start : Aligned (fun _ => True) script a (.initial p) script :=
    .initial (fun i _ => runs i) (fun i _ => ordered i) fun i j _ _ => matched i j
  refine ⟨start.ends, fun {s} reachable => ?_, fun reachable i b finished => ?_⟩
  · obtain ⟨rest, aligned⟩ := start.reachable reachable
    by_cases unfinished : ∃ i, ∀ b, ¬s.Finished i b
    · exact .inl (aligned.progress unfinished)
    · refine .inr fun i => ?_
      simp only [not_exists, not_forall, not_not] at unfinished
      obtain ⟨b, finished⟩ := unfinished i
      exact aligned.result_eq finished ▸ finished
  · obtain ⟨rest, aligned⟩ := start.reachable reachable
    exact aligned.result_eq finished

theorem Rounds.exists_finished {len : Nat} {p q : ι → Process ι M α} {honest : ι → Prop}
    (rounds : Rounds len p a) (same : ∀ i, honest i → q i = p i) :
    ∃ L : ι → List (Action ι M), (∀ i, Runs (p i) (L i) (ret (a i))) ∧
      ∃ s, Reachable honest q s ∧ ∀ i, honest i → s.Finished i (a i) ∧
        ∀ j, s.received j i = sends i (L j) := by
  obtain ⟨script, runs, ordered, _, matched⟩ := rounds
  have start : Aligned honest script a (.initial q) script :=
    .initial (fun i follows => by rw [same i follows]; exact runs i) (fun i _ => ordered i)
      fun i j _ _ => matched i j
  obtain ⟨s, reachable, finished⟩ := start.finish
  refine ⟨fun i => actions (script i), runs, s, reachable, fun i follows => ?_⟩
  refine ⟨(finished i follows).1, fun j => ?_⟩
  rw [(finished i follows).2, recvs_actions, sends_actions, matched]

end Settles

namespace Script

def later (k : Nat) (S : Script ι M) : Script ι M := S.map fun e => (e.1 + k, e.2)

variable {j : ι} {k : Nat}

omit [DecidableEq ι] in
@[simp] theorem actions_later (S : Script ι M) : actions (later k S) = actions S := by
  simp [actions, later]

omit [DecidableEq ι] in
theorem rank_later (e : Nat × Action ι M) : rank (e.1 + k, e.2) = rank e + 2 * k := by
  obtain ⟨r, a⟩ := e
  cases a <;> simp only [rank] <;> omega

theorem sendsAt_later (S : Script ι M) :
    sendsAt j (later k S) = (sendsAt j S).map fun e => (e.1 + k, e.2) := by
  induction S with
  | nil => rfl
  | cons e S ih =>
      obtain ⟨r, a⟩ := e
      cases a with
      | recv i m =>
          change sendsAt j ((r + k, .recv i m) :: later k S) = _
          rw [sendsAt_cons_recv, sendsAt_cons_recv, ih]
      | send i m =>
          change sendsAt j ((r + k, .send i m) :: later k S) = _
          rw [sendsAt_cons_send, sendsAt_cons_send, ih]
          split <;> rfl

theorem recvsAt_later (S : Script ι M) :
    recvsAt j (later k S) = (recvsAt j S).map fun e => (e.1 + k, e.2) := by
  induction S with
  | nil => rfl
  | cons e S ih =>
      obtain ⟨r, a⟩ := e
      cases a with
      | send i m =>
          change recvsAt j ((r + k, .send i m) :: later k S) = _
          rw [recvsAt_cons_send, recvsAt_cons_send, ih]
      | recv i m =>
          change recvsAt j ((r + k, .recv i m) :: later k S) = _
          rw [recvsAt_cons_recv, recvsAt_cons_recv, ih]
          split <;> rfl

end Script

namespace Rounds
variable {len len' : Nat} {p : ι → Process ι M α} {a : ι → α}

theorem ret (a : ι → α) : Rounds 0 (fun i => (.ret (a i) : Process ι M α)) a :=
  ⟨fun _ => [], fun _ => .stop _, fun _ => .nil, fun _ => nofun, fun _ _ => rfl⟩

theorem bind {f : ι → α → Process ι M β} {b : ι → β} (first : Rounds len p a)
    (second : Rounds len' (fun i => f i (a i)) b) :
    Rounds (len + len') (fun i => p i >>= f i) b := by
  obtain ⟨script, runs, ordered, bounded, matched⟩ := first
  obtain ⟨script', runs', ordered', bounded', matched'⟩ := second
  refine ⟨fun i => script i ++ later len (script' i), fun i => ?_, fun i => ?_, fun i e member => ?_,
    fun i j => ?_⟩
  · rw [actions_append, actions_later]
    exact runs_bind.2 ⟨_, a i, _, rfl, runs i, runs' i⟩
  · refine List.pairwise_append.2 ⟨ordered i, ?_, fun e he e' he' => ?_⟩
    · refine List.pairwise_map.2 ((ordered' i).imp fun {e e'} before => ?_)
      rw [rank_later, rank_later]
      omega
    · -- what is shifted lies in rounds from `len` on
      obtain ⟨d, _, rfl⟩ := List.mem_map.1 he'
      have early := bounded i e he
      obtain ⟨r, act⟩ := e
      rw [rank_later]
      cases act <;> simp only [rank] at early ⊢ <;> omega
  · rcases List.mem_append.1 member with inside | inside
    · exact (bounded i e inside).trans_le (Nat.le_add_right _ _)
    · obtain ⟨d, original, rfl⟩ := List.mem_map.1 inside
      have := bounded' i d original
      simp only
      omega
  · rw [sendsAt_append, recvsAt_append, sendsAt_later, recvsAt_later, matched i j, matched' i j]

theorem congr {p' : ι → Process ι M α} (rounds : Rounds len p a) (same : ∀ i, p' i = p i) :
    Rounds len p' a :=
  funext same ▸ rounds

theorem single {S R : ι → List (Action ι M)} (runs : ∀ i, Runs (p i) (S i ++ R i) (.ret (a i)))
    (sending : ∀ i, ∀ e ∈ S i, ∃ j m, e = .send j m)
    (receiving : ∀ i, ∀ e ∈ R i, ∃ j m, e = .recv j m)
    (matched : ∀ i j, sends j (S i) = recvs i (R j)) : Rounds 1 p a := by
  have rankS (i : ι) (e : Nat × Action ι M) (member : e ∈ atRound 0 (S i)) : rank e = 0 := by
    obtain ⟨d, inside, rfl⟩ := List.mem_map.1 member
    obtain ⟨j, m, rfl⟩ := sending i d inside
    rfl
  have rankR (i : ι) (e : Nat × Action ι M) (member : e ∈ atRound 0 (R i)) : rank e = 1 := by
    obtain ⟨d, inside, rfl⟩ := List.mem_map.1 member
    obtain ⟨j, m, rfl⟩ := receiving i d inside
    rfl
  have noRecv (i j : ι) : recvs j (S i) = [] := by
    refine List.filterMap_eq_nil_iff.2 fun e member => ?_
    obtain ⟨j', m, rfl⟩ := sending i e member
    rfl
  have noSend (i j : ι) : sends j (R i) = [] := by
    refine List.filterMap_eq_nil_iff.2 fun e member => ?_
    obtain ⟨j', m, rfl⟩ := receiving i e member
    rfl
  refine ⟨fun i => atRound 0 (S i) ++ atRound 0 (R i), fun i => ?_, fun i => ?_, fun i e member => ?_,
    fun i j => ?_⟩
  · rw [actions_append, actions_atRound, actions_atRound]
    exact runs i
  · refine List.pairwise_append.2 ⟨?_, ?_, fun e he e' he' => ?_⟩
    · exact List.pairwise_of_forall_mem_list fun e he e' he' => by rw [rankS i e he, rankS i e' he']
    · exact List.pairwise_of_forall_mem_list fun e he e' he' => by rw [rankR i e he, rankR i e' he']
    · rw [rankS i e he, rankR i e' he']
      exact Nat.zero_le 1
  · rcases List.mem_append.1 member with inside | inside
    all_goals
      obtain ⟨d, _, rfl⟩ := List.mem_map.1 inside
      exact Nat.one_pos
  · rw [sendsAt_append, recvsAt_append, sendsAt_atRound, sendsAt_atRound, recvsAt_atRound,
      recvsAt_atRound, noRecv, noSend, matched i j]
    simp

section Except
variable {ε : Type} {q : ι → ExceptT ε (Process ι M) α} {f : ι → α → ExceptT ε (Process ι M) β}

theorem ret_ok (a : ι → α) :
    Rounds 0 (fun i => (pure (a i) : ExceptT ε (Process ι M) α).run) fun i => .ok (a i) :=
  .ret _

theorem lift {p : ι → Process ι M α} (rounds : Rounds len p a) :
    Rounds len (fun i => (ExceptT.lift (p i) : ExceptT ε (Process ι M) α).run) fun i => .ok (a i) :=
  rounds.bind (f := fun _ a => Process.ret (Except.ok a)) (.ret fun i => Except.ok (a i))

theorem bind_ok {b : ι → Except ε β} (first : Rounds len (fun i => (q i).run) fun i => .ok (a i))
    (second : Rounds len' (fun i => (f i (a i)).run) b) :
    Rounds (len + len') (fun i => (q i >>= f i).run) b :=
  Rounds.bind (f := fun i => ExceptT.bindCont (f i)) first second

theorem bind_error {e : ε} (first : Rounds len (fun i => (q i).run) fun _ => .error e) :
    Rounds len (fun i => (q i >>= f i).run) fun _ => .error e :=
  (Rounds.bind (f := fun i => ExceptT.bindCont (f i)) first (.ret _) : Rounds (len + 0) _ _)

end Except

end Rounds

section Realizes
variable {ε Λ Λ' : Type} {Q : Λ → (ι → α) → Prop} {q : ι → ExceptT ε (Process ι M) α}

/-- The parties compute `o` together: they all throw its error, or they return what represents its
value. -/
def Realizes (Q : Λ → (ι → α) → Prop) (q : ι → ExceptT ε (Process ι M) α) : Except ε Λ → Prop
  | .ok v => ∃ len a, Rounds len (fun i => (q i).run) (fun i => .ok (a i)) ∧ Q v a
  | .error e => ∃ len, Rounds len (fun i => (q i).run) fun _ => .error e

namespace Realizes

theorem ret {v : Λ} {a : ι → α} (represents : Q v a) :
    Realizes Q (fun i => (pure (a i) : ExceptT ε (Process ι M) α)) (.ok v) :=
  ⟨0, a, .ret_ok a, represents⟩

theorem ofRounds {len : Nat} {v : Λ} {a : ι → α}
    (rounds : Rounds len (fun i => (q i).run) fun i => .ok (a i)) (represents : Q v a) :
    Realizes Q q (.ok v) :=
  ⟨len, a, rounds, represents⟩

theorem ofDecision {len : Nat} {v : Λ} {a : ι → α} {e : ε} {P : Prop} [Decidable P]
    (rounds : Rounds len (fun i => (q i).run) fun i => if P then .ok (a i) else .error e)
    (represents : P → Q v a) : Realizes Q q (if P then .ok v else .error e) := by
  split
  · rename_i holds
    simp only [if_pos holds] at rounds
    exact .ofRounds rounds (represents holds)
  · rename_i fails
    simp only [if_neg fails] at rounds
    exact ⟨len, rounds⟩

theorem congr {q' : ι → ExceptT ε (Process ι M) α} {o : Except ε Λ} (realizes : Realizes Q q o)
    (same : ∀ i, q' i = q i) : Realizes Q q' o :=
  funext same ▸ realizes

theorem mono {Q' : Λ → (ι → α) → Prop} {o : Except ε Λ} (realizes : Realizes Q q o)
    (weaker : ∀ v, o = .ok v → ∀ a, Q v a → Q' v a) : Realizes Q' q o := by
  cases o with
  | error e => exact realizes
  | ok v =>
      obtain ⟨len, a, rounds, represents⟩ := realizes
      exact ⟨len, a, rounds, weaker v rfl a represents⟩

theorem bind {Q' : Λ' → (ι → β) → Prop} {o : Except ε Λ} {g : Λ → Except ε Λ'}
    {f : ι → α → ExceptT ε (Process ι M) β} (first : Realizes Q q o)
    (second : ∀ v, o = .ok v → ∀ a, Q v a → Realizes Q' (fun i => f i (a i)) (g v)) :
    Realizes Q' (fun i => q i >>= f i) (o >>= g) := by
  cases o with
  | error e =>
      obtain ⟨len, rounds⟩ := first
      exact ⟨len, rounds.bind_error⟩
  | ok v =>
      obtain ⟨len, a, rounds, represents⟩ := first
      have rest := second v rfl a represents
      change Realizes Q' _ (g v)
      cases outcome : g v with
      | error e =>
          obtain ⟨len', rounds'⟩ := outcome ▸ rest
          exact ⟨len + len', rounds.bind_ok rounds'⟩
      | ok w =>
          obtain ⟨len', b, rounds', represents'⟩ := outcome ▸ rest
          exact ⟨len + len', b, rounds.bind_ok rounds', represents'⟩

theorem next {Q' : Λ → (ι → β) → Prop} {o : Except ε Λ} {f : ι → α → ExceptT ε (Process ι M) β}
    (first : Realizes Q q o)
    (second : ∀ v, o = .ok v → ∀ a, Q v a → ∃ b, (∀ i, f i (a i) = pure (b i)) ∧ Q' v b) :
    Realizes Q' (fun i => q i >>= f i) o := by
  cases o with
  | error e =>
      obtain ⟨len, rounds⟩ := first
      exact ⟨len, rounds.bind_error⟩
  | ok v =>
      obtain ⟨len, a, rounds, represents⟩ := first
      obtain ⟨b, own, represents'⟩ := second v rfl a represents
      exact ⟨len + 0, b, rounds.bind_ok ((Rounds.ret_ok b).congr fun i => by rw [own]), represents'⟩

theorem settles_ok [Fintype ι] {v : Λ} (realizes : Realizes Q q (.ok v)) :
    ∃ a, Settles (fun i => (q i).run) (fun i => .ok (a i)) ∧ Q v a := by
  obtain ⟨len, a, rounds, represents⟩ := realizes
  exact ⟨a, rounds.settles, represents⟩

theorem settles_error [Fintype ι] {e : ε} (realizes : Realizes Q q (.error e : Except ε Λ)) :
    Settles (fun i => (q i).run) fun _ => .error e := by
  obtain ⟨len, rounds⟩ := realizes
  exact rounds.settles

end Realizes

end Realizes

end ProofOfCustody.Network
