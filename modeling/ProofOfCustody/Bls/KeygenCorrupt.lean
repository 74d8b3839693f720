import Mathlib
import ProofOfCustody.Bls.KeygenHonest

/-!
# Key generation with corrupted players

Corrupted players may send anything to anyone. Two honest players agree when the same public
coefficients were sent to both; a contribution with somebody else's commitment is accepted whenever
its share and its coefficients fit; and a failed call leaves a partial key behind.
-/

namespace ProofOfCustody.Bls
open Network Process Polynomial

variable {n r : Nat} [Fact r.Prime] {G1 G2 : Type} [AddCommGroup G1] [Module (ZMod r) G1]
  [DecidableEq G1]

namespace Keygen

variable {K : Keygen n r G1 G2} {honest : Fin n → Prop}
  {s : State (Fin n) OctetStream (Result r G1 G2)} {h i j : Fin n}

def Returned (s : State (Fin n) OctetStream (Result r G1 G2)) (h : Fin n) (b : BLS r G1 G2) : Prop :=
  s.Finished h (.ok (), b)

/-! ## Agreement -/

section Agreement

omit [DecidableEq G1] in
theorem exists_log (documented : K.lib.Documented) (aux : List G1) :
    ∃ a : List (ZMod r), aux = a.map (· • K.lib.basePointG1) := by
  induction aux with
  | nil => exact ⟨[], rfl⟩
  | cons P aux ih =>
      obtain ⟨x, rfl⟩ := documented.generates P
      obtain ⟨a, rfl⟩ := ih
      exact ⟨x :: a, rfl⟩

omit [DecidableEq G1] in
theorem head_smul (a : List (ZMod r)) (g : G1) :
    (a.map (· • g)).headD 0 = (polynomial a).eval 0 • g := by
  cases a with
  | nil => simp [polynomial]
  | cons x a => simp [polynomial]

theorem returned_key (documented : K.lib.Documented) (configured : K.Configured)
    (reaches : K.Reaches honest s) (follows : honest h) {b : BLS r G1 G2} (returned : Returned s h b)
    {a : Fin n → List (ZMod r)} (length : ∀ i, (a i).length = K.threshold + 1)
    (own : a h = coefficients K.threshold (K.coins h).draw)
    (read : ∀ i, i ≠ h → (K.heard s h i).aux_tmp = (a i).map (· • K.lib.basePointG1)) :
    b.vk = (∑ i, polynomial (a i)).eval 0 • K.lib.basePointG1 ∧
      b.sk = (∑ i, polynomial (a i)).eval ((h + 1 : Nat) : ZMod r) := by
  have bound := threshold_le configured reaches follows returned (by simp)
  obtain ⟨_, value⟩ := finished_taken configured bound reaches follows returned
  rcases checkLoop_cases K.lib h (K.coins h).a0 (K.heard s h) (List.finRange n)
      (ownKey K.lib h (K.coins h) (K.bls h)) with
    ⟨accepted, gathered_all⟩ | ⟨_, _, _, _, _, _, _, stopped⟩
  · have share (i : Fin n) (other : i ≠ h) : (K.heard s h i).tmp_share =
        (polynomial (a i)).eval ((h + 1 : Nat) : ZMod r) := by
      have verified := verifyShare_of_accepts (accepted i (List.mem_finRange i) other)
      have players := configured.players
      rw [read i other, verifyShare_iff documented.toDocumented _
        (List.ne_nil_of_length_eq_add_one (length i)) (by rw [length i]; omega) (by omega)] at verified
      rw [verified, polynomial_eval]
    have point (i : Fin n) (other : i ≠ h) : (K.heard s h i).aux_tmp.headD 0 =
        (polynomial (a i)).eval 0 • K.lib.basePointG1 := by
      rw [read i other, head_smul]
    obtain rfl := (Prod.mk.inj (value.trans gathered_all)).2
    have ownShare : K.lib.frEvaluatePolynomial (coefficients (K.bls h).threshold (K.coins h).draw)
        ((h + 1 : Nat) : ZMod r) = (polynomial (a h)).eval ((h + 1 : Nat) : ZMod r) := by
      rw [own, polynomial_eval, configured.threshold,
        evaluate_coefficients _ documented.toDocumented]
    have ownPoint : (K.coins h).draw 0 = (polynomial (a h)).eval 0 := by
      rw [own, polynomial_eval, evaluate_coefficients_zero]
    have shares := sum_others (fun i => (polynomial (a i)).eval ((h + 1 : Nat) : ZMod r)) h
    have points := sum_others (fun i => (polynomial (a i)).eval 0 • K.lib.basePointG1) h
    rw [eval_finsetSum, eval_finsetSum, Finset.sum_smul, ← shares, ← points]
    constructor
    · simp only [gathered, ownKey]
      rw [ownPoint]
      congr 2
      apply List.map_congr_left
      intro i member
      exact point i (by simpa using member)
    · simp only [gathered, ownKey]
      rw [ownShare]
      congr 2
      apply List.map_congr_left
      intro i member
      exact share i (by simpa using member)
  · cases value.trans stopped

/-- Players that return without an exception hold one public key and shares of it, provided that a
corrupted player sent the same public coefficients to all of them. -/
theorem agreement (documented : K.lib.Documented) (configured : K.Configured)
    (reaches : K.Reaches honest s)
    (consistent : ∀ c, ¬honest c → ∀ h h' b b', honest h → honest h' → Returned s h b →
      Returned s h' b' → (K.heard s h c).aux_tmp = (K.heard s h' c).aux_tmp) :
    ∃ F : (ZMod r)[X], F.degree ≤ K.threshold ∧ ∀ h b, honest h → Returned s h b →
      b.vk = F.eval 0 • K.lib.basePointG1 ∧ b.sk = F.eval ((h + 1 : Nat) : ZMod r) := by
  have logs (i : Fin n) : ∃ a : List (ZMod r), a.length = K.threshold + 1 ∧
      (honest i → a = coefficients K.threshold (K.coins i).draw) ∧
      ∀ h b, honest h → Returned s h b → i ≠ h →
        (K.heard s h i).aux_tmp = a.map (· • K.lib.basePointG1) := by
    by_cases follows : honest i
    · refine ⟨_, length_coefficients _ _, fun _ => rfl, fun h b follows' returned other => ?_⟩
      have bound := threshold_le configured reaches follows' returned (by simp)
      rw [heard_honest configured bound reaches follows' returned follows other, sentTo,
        read_outbox documented]
    · by_cases some : ∃ h b, honest h ∧ Returned s h b
      · obtain ⟨h, b, follows', returned⟩ := some
        have other : i ≠ h := fun same => follows (same ▸ follows')
        obtain ⟨a, value⟩ := exists_log documented (K.heard s h i).aux_tmp
        have bound := threshold_le configured reaches follows' returned (by simp)
        obtain ⟨⟨box, received⟩, _⟩ := finished_taken configured bound reaches follows' returned
        refine ⟨a, ?_, fun absurdly => absurd absurdly follows, fun h' b' follows'' returned' _ => ?_⟩
        · have length := congrArg List.length value
          simp only [heard, received i other, List.length_map, Inbox.messages] at length
          simpa [(box i).complete] using length.symm
        · rw [consistent i follows h' h b' b follows'' follows' returned' returned, value]
      · refine ⟨List.replicate (K.threshold + 1) 0, List.length_replicate,
          fun absurdly => absurd absurdly follows, fun h b follows' returned => ?_⟩
        exact absurd ⟨h, b, follows', returned⟩ some
  choose a length own read using logs
  refine ⟨∑ i, polynomial (a i), ?_, fun h b follows returned => ?_⟩
  · apply (degree_sum_le _ _).trans
    apply Finset.sup_le
    intro i _
    have bound := polynomial_degree (a i)
    rw [length i] at bound
    exact Order.le_of_lt_succ bound
  · exact returned_key documented configured reaches follows returned length (own h follows)
      fun i other => read i h b follows returned other

def deals (deal : Fin 3 → Nat → ZMod 5) (i j : Fin 3) : Inbox 1 :=
  if j ≠ 2 then (smallKeygen 3 1).sentTo j i
  else outbox smallLib 1 (⟨deal i, fun _ => 0, fun _ => 0⟩ : Coins 3 5 (ZMod 5)) i

theorem deals_delivers (deal : Fin 3 → Nat → ZMod 5) :
    Delivers (· ≠ 2) (smallKeygen 3 1) (deals deal) := by
  intro i j follows _ _
  exact if_pos follows

theorem agreement_small : ∃ s, (smallKeygen 3 1).Reaches (· ≠ 2) s ∧
    ∃ F : (ZMod 5)[X], F.degree ≤ 1 ∧ ∃ b b', Returned s 0 b ∧ Returned s 1 b' ∧
      b.vk = F.eval 0 ∧ b'.vk = F.eval 0 ∧ b.sk = F.eval 1 ∧ b'.sk = F.eval 2 := by
  have configured := smallKeygen_configured (show 3 < 2 ^ 31 by norm_num) 1
  obtain ⟨s, reaches, finished⟩ := exists_run configured (by decide) (deals_delivers fun _ _ => 1)
  have same (h : Fin 3) (follows : h ≠ 2) : ((smallKeygen 3 1).heard s h 2).aux_tmp =
      ((deals (fun _ _ => 1) 0 2).read smallLib).aux_tmp := by
    rw [heard_messages ((finished h follows).2 2 follows.symm)]
    rfl
  obtain ⟨F, degree, keys⟩ := agreement smallLib_documented configured reaches fun c corrupted h h'
    b b' follows follows' _ _ => by
      rw [not_not.1 corrupted, same h follows, same h' follows']
  have first : Returned s 0 ⟨3, 4, (), 3, 1⟩ := (finished 0 (by decide)).1
  have second : Returned s 1 ⟨2, 4, (), 3, 1⟩ := (finished 1 (by decide)).1
  obtain ⟨vk, sk⟩ := keys 0 _ (by decide) first
  obtain ⟨vk', sk'⟩ := keys 1 _ (by decide) second
  refine ⟨s, reaches, F, degree, _, _, first, second, ?_, ?_, ?_, ?_⟩
  · exact vk.trans (mul_one _)
  · exact vk'.trans (mul_one _)
  · simpa using sk
  · simpa using sk'

/-- With two different deals, two honest players return and hold different public keys. -/
theorem agreement_fails : smallLib.Documented ∧ Function.Injective smallLib.hash ∧
    ∃ s b b', (smallKeygen 3 1).Reaches (· ≠ 2) s ∧ Returned s 0 b ∧ Returned s 1 b' ∧
      b.vk ≠ b'.vk := by
  obtain ⟨s, reaches, finished⟩ := 
    exists_run (smallKeygen_configured (show 3 < 2 ^ 31 by norm_num) 1) (by decide)
    (deals_delivers fun i k => if k = 0 then (i : Nat) else 0)
  refine ⟨smallLib_documented, fun _ _ same => same, s, ⟨1, 3, (), 3, 1⟩, ⟨0, 4, (), 3, 1⟩, reaches,
    (finished 0 (by decide)).1, (finished 1 (by decide)).1, by decide⟩

end Agreement

/-! ## Failed calls -/

section Failed

theorem before_eq {before after : List (Fin n)} (shape : List.finRange n = before ++ i :: after)
    (k : Fin n) : k ∈ before ↔ k < i := by
  have sorted := List.pairwise_lt_finRange n
  rw [shape, List.pairwise_append, List.pairwise_cons] at sorted
  obtain ⟨_, ⟨later, _⟩, across⟩ := sorted
  constructor
  · intro member
    exact across k member i List.mem_cons_self
  · intro earlier
    have member : k ∈ before ++ i :: after := shape ▸ List.mem_finRange k
    rcases List.mem_append.1 member with member | member
    · exact member
    · rcases List.mem_cons.1 member with rfl | member
      · exact absurd earlier (lt_irrefl k)
      · exact absurd (later k member) (not_lt.2 earlier.le)

theorem sum_before {V : Type} [AddCommMonoid V] (f : Fin n → V) {before after : List (Fin n)}
    (shape : List.finRange n = before ++ i :: after) :
    ((before.filter (· ≠ h)).map f).sum = ∑ k with k < i ∧ k ≠ h, f k := by
  have distinct : before.Nodup := by
    have := List.nodup_finRange n
    rw [shape] at this
    exact this.of_append_left
  rw [← List.sum_toFinset f (distinct.filter _)]
  apply Finset.sum_congr _ fun _ _ => rfl
  ext k
  simp [before_eq shape k]

/-- After `invalid_commitment` the object holds the player's own share and the contributions of the
players before the first one that is rejected; nothing else has changed. -/
theorem failed_keygen (configured : K.Configured) (reaches : K.Reaches honest s) (follows : honest h)
    {b : BLS r G1 G2} (failed : s.Finished h (.error .invalid_commitment, b)) :
    ∃ i, i ≠ h ∧ (∀ k < i, k ≠ h → K.AcceptsFrom s h k) ∧ ¬K.AcceptsFrom s h i ∧
      b = { K.bls h with
        sk := K.ownShare h + ∑ k with k < i ∧ k ≠ h, (K.heard s h k).tmp_share
        vk := (K.dealt h).eval 0 • K.lib.basePointG1 +
          ∑ k with k < i ∧ k ≠ h, (K.heard s h k).aux_tmp.headD 0 } := by
  have bound := threshold_le configured reaches follows failed (by simp)
  obtain ⟨_, value⟩ := finished_taken configured bound reaches follows failed
  rcases checkLoop_cases K.lib h (K.coins h).a0 (K.heard s h) (List.finRange n)
      (ownKey K.lib h (K.coins h) (K.bls h)) with
    ⟨_, returned⟩ | ⟨before, i, after, shape, other, accepted, rejected, stopped⟩
  · cases value.trans returned
  · refine ⟨i, other, fun k earlier => accepted k ((before_eq shape k).2 earlier), rejected, ?_⟩
    obtain rfl := (Prod.mk.inj (value.trans stopped)).2
    simp only [gathered, ownKey]
    rw [sum_before _ shape, sum_before _ shape, ownShare, dealt_eval_zero, configured.threshold]

def noise : Inbox 1 where
  comm := []
  opening := [0, 0, 0, 0]
  share := []
  aux := [[], []]
  complete := rfl

theorem noise_delivers : Delivers (· = 0) (smallKeygen 2 1) fun _ _ => noise := by
  rintro i j rfl rfl apart
  exact absurd rfl apart

theorem failed_keygen_small : ∃ s b, (smallKeygen 2 1).Reaches (· = 0) s ∧
    s.Finished 0 (.error .invalid_commitment, b) ∧
    ∃ i, i ≠ 0 ∧ ¬(smallKeygen 2 1).AcceptsFrom s 0 i := by
  have configured := smallKeygen_configured (show 2 < 2 ^ 31 by norm_num) 1
  obtain ⟨s, reaches, finished⟩ := exists_run configured (by decide) noise_delivers
  have failed : s.Finished 0 (.error .invalid_commitment, ⟨2, 1, (), 2, 1⟩) := (finished 0 rfl).1
  obtain ⟨i, other, _, rejected, _⟩ := failed_keygen configured reaches rfl failed
  exact ⟨s, _, reaches, failed, i, other, rejected⟩

theorem failed_keygen_writes : ∃ s b, (smallKeygen 2 1).Reaches (· = 0) s ∧
    s.Finished 0 (.error .invalid_commitment, b) ∧ b.sk ≠ ((smallKeygen 2 1).bls 0).sk ∧
    b.vk ≠ ((smallKeygen 2 1).bls 0).vk := by
  obtain ⟨s, reaches, finished⟩ :=
    exists_run (smallKeygen_configured (show 2 < 2 ^ 31 by norm_num) 1) (by decide) noise_delivers
  exact ⟨s, ⟨2, 1, (), 2, 1⟩, reaches, (finished 0 rfl).1, by decide, by decide⟩

end Failed

/-! ## Replayed commitments -/

section Replay

/-- What player `j` sends to `h` begins with the commitment and the opening that `i` has sent. -/
def Replays (s : State (Fin n) OctetStream (Result r G1 G2)) (i j h : Fin n) : Prop :=
  ∃ k, k ≠ i ∧ (s.sent i k).take 2 = (s.received j h).take 2

/-- The share of player `j` fits its public coefficients, whose constant term is that of `i`. -/
def Fits (K : Keygen n r G1 G2) (s : State (Fin n) OctetStream (Result r G1 G2)) (i j h : Fin n) :
    Prop :=
  verifyShare K.lib.toEvaluator (K.heard s h j).tmp_share (K.heard s h j).aux_tmp (h + 1) =
      .ok true ∧
    (K.heard s h j).aux_tmp.headD 0 = (K.dealt i).eval 0 • K.lib.basePointG1

theorem heard_replayed (configured : K.Configured) (bound : K.threshold ≤ n)
    (reaches : K.Reaches honest s) (follows : honest h) (sender : honest i) {o : Result r G1 G2}
    (finished : s.Finished h o) (other : j ≠ h) (replays : Replays s i j h) :
    (K.heard s h j).os_comm = (K.sentTo i h).comm ∧
      (K.heard s h j).os_open = (K.sentTo i h).opening := by
  obtain ⟨⟨box, received⟩, _⟩ := finished_taken configured bound reaches follows finished
  obtain ⟨k, apart, same⟩ := replays
  obtain ⟨rest, whole⟩ := sent_begins configured reaches sender apart
  rw [received j other, Inbox.messages] at same
  cases sent : s.sent i k with
  | nil => simp [sent] at same
  | cons comm more =>
      cases more with
      | nil => simp [sent] at same
      | cons opening more =>
          rw [sent, Inbox.messages] at whole
          simp only [sent, List.take_succ_cons, List.take_zero, List.cons.injEq] at same
          simp only [List.cons_append, List.cons.injEq] at whole
          simp only [heard, received j other, Inbox.messages, List.getD_cons_zero,
            List.getD_cons_succ]
          rw [← same.1, ← same.2.1, whole.1, whole.2.1]
          exact ⟨rfl, rfl⟩

theorem heard_length (configured : K.Configured) (bound : K.threshold ≤ n)
    (reaches : K.Reaches honest s) (follows : honest h) {o : Result r G1 G2}
    (finished : s.Finished h o) (other : j ≠ h) :
    (K.heard s h j).aux_tmp.length = K.threshold + 1 := by
  obtain ⟨⟨box, received⟩, _⟩ := finished_taken configured bound reaches follows finished
  rw [heard_messages (received j other), Inbox.read, List.length_map, (box j).complete]

theorem check_replayed (documented : K.lib.Documented) (configured : K.Configured)
    (bound : K.threshold ≤ n) (reaches : K.Reaches honest s) (follows : honest h)
    (sender : honest i) {o : Result r G1 G2} (finished : s.Finished h o) (other : j ≠ h)
    (replays : Replays s i j h) :
    ∃ ok, checkContribution K.lib h ((K.coins h).a0 j) (K.heard s h j) = .ok ok ∧
      (ok = true ↔ Fits K s i j h) := by
  obtain ⟨comm, opening⟩ :=
    heard_replayed configured bound reaches follows sender finished other replays
  have shape : K.heard s h j = ⟨(outbox K.lib K.threshold (K.coins i) h).comm,
      (outbox K.lib K.threshold (K.coins i) h).opening, (K.heard s h j).tmp_share,
      (K.heard s h j).aux_tmp⟩ := by
    rw [show (outbox K.lib K.threshold (K.coins i) h).comm = _ from comm.symm,
      show (outbox K.lib K.threshold (K.coins i) h).opening = _ from opening.symm]
  have short : (K.heard s h j).aux_tmp.length ≤ 2 ^ 31 := by
    have := configured.players
    rw [heard_length configured bound reaches follows finished other]
    omega
  have verified := verifyShare_ok K.lib.toEvaluator (K.heard s h j).tmp_share short (h + 1)
  rw [shape, checkContribution_committed documented _ _ _ _ verified]
  refine ⟨_, rfl, ?_⟩
  rw [Bool.and_eq_true, Fits, verified, dealt_eval_zero, Except.ok.injEq, decide_eq_true_iff,
    decide_eq_true_iff]
  exact and_congr_right fun _ => eq_comm

def Stops (K : Keygen n r G1 G2) (s : State (Fin n) OctetStream (Result r G1 G2)) (h k : Fin n) :
    Prop :=
  k ≠ h ∧ (∀ k' < k, k' ≠ h → K.AcceptsFrom s h k') ∧ ¬K.AcceptsFrom s h k

def checked (K : Keygen n r G1 G2) (s : State (Fin n) OctetStream (Result r G1 G2)) (h k : Fin n) :
    Except Failure Bool :=
  checkContribution K.lib h ((K.coins h).a0 k) (K.heard s h k)

theorem stops_unique {k k' : Fin n} (first : K.Stops s h k) (second : K.Stops s h k') : k = k' := by
  rcases lt_trichotomy k k' with earlier | same | later
  · exact absurd (second.2.1 k earlier first.1) first.2.2
  · exact same
  · exact absurd (first.2.1 k' later second.1) second.2.2

theorem finished_stops (configured : K.Configured) (bound : K.threshold ≤ n)
    (reaches : K.Reaches honest s) (follows : honest h) {o : Result r G1 G2}
    (finished : s.Finished h o) :
    (∀ k, k ≠ h → K.AcceptsFrom s h k) ∧ o.1 = .ok () ∨
      ∃ k, K.Stops s h k ∧ o.1 = .error (rejection (K.checked s h k)) := by
  obtain ⟨_, value⟩ := finished_taken configured bound reaches follows finished
  rcases checkLoop_cases K.lib h (K.coins h).a0 (K.heard s h) (List.finRange n)
      (ownKey K.lib h (K.coins h) (K.bls h)) with
    ⟨accepted, returned⟩ | ⟨before, k, after, shape, apart, accepted, rejected, stopped⟩
  · exact .inl ⟨fun k => accepted k (List.mem_finRange k), by rw [value, returned]⟩
  · refine .inr ⟨k, ⟨apart, fun k' earlier => ?_, rejected⟩, by rw [value, stopped]; rfl⟩
    exact accepted k' ((before_eq shape k').2 earlier)

theorem openCommitment_error {hash : OctetStream → OctetStream} {comm opening : OctetStream}
    {send_player : Int} {e : Failure}
    (thrown : openCommitment hash comm opening send_player = .error e) : e ≠ .invalid_commitment := by
  unfold openCommitment at thrown
  rcases opening with _ | ⟨b0, _ | ⟨b1, _ | ⟨b2, _ | ⟨b3, rest⟩⟩⟩⟩
  case cons.cons.cons.cons =>
    dsimp only at thrown
    split at thrown
    · cases thrown
    · split at thrown <;> cases thrown
      simp
  all_goals
    cases thrown
    simp

theorem rejection_checked (k : Fin n) (rejected : ¬K.AcceptsFrom s h k) :
    rejection (K.checked s h k) = .invalid_commitment ↔ K.checked s h k = .ok false := by
  match outcome : K.checked s h k with
  | .ok true => exact absurd outcome rejected
  | .ok false => exact ⟨fun _ => rfl, fun _ => rfl⟩
  | .error e =>
      refine ⟨fun same => absurd same (?_ : e ≠ .invalid_commitment), nofun⟩
      rw [checked, checkContribution] at outcome
      cases opened : openCommitment K.lib.hash (K.heard s h k).os_comm (K.heard s h k).os_open 1 with
      | error e' =>
          rw [opened] at outcome
          cases outcome
          exact openCommitment_error opened
      | ok result =>
          cases verified : verifyShare K.lib.toEvaluator (K.heard s h k).tmp_share
              (K.heard s h k).aux_tmp (h + 1) with
          | error e' =>
              simp only [opened, verified, Bind.bind, Except.bind] at outcome
              cases outcome
              rw [verifyShare_error verified]
              simp
          | ok res2 =>
              simp only [opened, verified, Bind.bind, Except.bind] at outcome
              cases outcome

/-- The loop throws the error of the contribution where it stops. So it throws `invalid_commitment`
without having accepted the contribution of `j` exactly when an earlier one is refused, or it comes
to that of `j`, where the share and the coefficients do not fit. -/
theorem replay_rejected_iff (documented : K.lib.Documented) (configured : K.Configured)
    (bound : K.threshold ≤ n) (reaches : K.Reaches honest s) (follows : honest h)
    (sender : honest i) (other : j ≠ h) (replays : Replays s i j h) {o : Result r G1 G2}
    (finished : s.Finished h o) :
    (∀ k, K.Stops s h k → o.1 = .error (rejection (K.checked s h k))) ∧
    (o.1 = .error .invalid_commitment ∧ ¬(∀ k ≤ j, k ≠ h → K.AcceptsFrom s h k) ↔
      (∃ k < j, K.Stops s h k ∧ K.checked s h k = .ok false) ∨
        (∀ k < j, k ≠ h → K.AcceptsFrom s h k) ∧ ¬Fits K s i j h) := by
  obtain ⟨ok, outcome, fits⟩ :=
    check_replayed documented configured bound reaches follows sender finished other replays
  have accepts : K.AcceptsFrom s h j ↔ Fits K s i j h := by
    rw [AcceptsFrom, Accepts, outcome, Except.ok.injEq, fits]
  rcases finished_stops configured bound reaches follows finished with
    ⟨all, returned⟩ | ⟨k, stops, thrown⟩
  · refine ⟨fun k stops => absurd (all k stops.1) stops.2.2, ?_⟩
    rw [returned, ← accepts]
    constructor
    · rintro ⟨failed, _⟩
      cases failed
    · rintro (⟨k, _, stops, _⟩ | ⟨_, refused⟩)
      · exact absurd (all k stops.1) stops.2.2
      · exact absurd (all j other) refused
  · refine ⟨fun k' stops' => stops_unique stops stops' ▸ thrown, ?_⟩
    rw [thrown, Except.error.injEq, rejection_checked k stops.2.2, ← accepts]
    constructor
    · rintro ⟨refused, missed⟩
      rcases lt_trichotomy k j with earlier | rfl | later
      · exact .inl ⟨k, earlier, stops, refused⟩
      · exact .inr stops.2
      · exact absurd (fun k' before => stops.2.1 k' (before.trans_lt later)) missed
    · rintro (⟨k', earlier, stops', refused⟩ | ⟨reached, refused⟩)
      · obtain rfl := stops_unique stops stops'
        exact ⟨refused, fun all => stops.2.2 (all k earlier.le stops.1)⟩
      · obtain rfl := stops_unique stops ⟨other, reached, refused⟩
        refine ⟨?_, fun all => refused (all k le_rfl other)⟩
        cases ok with
        | false => exact outcome
        | true => exact absurd outcome refused

/-- The commitment of player `0`, the share `0` and coefficients made to fit it. -/
def replay : Inbox 1 where
  comm := storeInt 1 ++ [1] ++ List.replicate SEED_SIZE 0
  opening := storeInt 1 ++ [1] ++ List.replicate SEED_SIZE 0
  share := [0]
  aux := [[1], [4]]
  complete := rfl

theorem replay_delivers (box : Inbox 1) : Delivers (· = 0) (smallKeygen 2 1) fun _ _ => box := by
  rintro i j rfl rfl apart
  exact absurd rfl apart

theorem replays_small {s : State (Fin 2) OctetStream (Result 5 (ZMod 5) Unit)} {box : Inbox 1}
    {o : Result 5 (ZMod 5) Unit} (reaches : (smallKeygen 2 1).Reaches (· = 0) s)
    (finished : s.Finished 0 o) (received : s.received 1 0 = box.messages)
    (comm : box.comm = ((smallKeygen 2 1).sentTo 0 1).comm)
    (opening : box.opening = ((smallKeygen 2 1).sentTo 0 1).opening) : Replays s 0 1 0 := by
  refine ⟨1, by decide, ?_⟩
  rw [finished_sent (smallKeygen_configured (show 2 < 2 ^ 31 by norm_num) 1) (by decide) reaches rfl
    finished (by decide),
    received]
  simp [Inbox.messages, comm, opening]

theorem replay_accepted : smallLib.Documented ∧ ∃ s b, (smallKeygen 2 1).Reaches (· = 0) s ∧
    Replays s 0 1 0 ∧ Returned s 0 b := by
  obtain ⟨s, reaches, finished⟩ :=
    exists_run (smallKeygen_configured (show 2 < 2 ^ 31 by norm_num) 1) (by decide)
      (replay_delivers replay)
  have returned : Returned s 0 ⟨2, 2, (), 2, 1⟩ := (finished 0 rfl).1
  exact ⟨smallLib_documented, s, _, reaches, replays_small reaches returned
    ((finished 0 rfl).2 1 (by decide)) rfl rfl, returned⟩

theorem replay_rejected_iff_small : ∃ s b, (smallKeygen 2 1).Reaches (· = 0) s ∧
    Replays s 0 1 0 ∧ s.Finished 0 (.error .invalid_commitment, b) ∧
    ¬Fits (smallKeygen 2 1) s 0 1 0 := by
  have configured := smallKeygen_configured (show 2 < 2 ^ 31 by norm_num) 1
  obtain ⟨s, reaches, finished⟩ :=
    exists_run configured (by decide) (replay_delivers { replay with share := [1] })
  have failed : s.Finished 0 (.error .invalid_commitment, ⟨2, 1, (), 2, 1⟩) := (finished 0 rfl).1
  have replays := replays_small reaches failed ((finished 0 rfl).2 1 (by decide)) rfl rfl
  have heard := heard_messages (K := smallKeygen 2 1) ((finished 0 rfl).2 1 (by decide))
  refine ⟨s, _, reaches, replays, failed, ?_⟩
  have late := (replay_rejected_iff smallLib_documented configured (by decide) reaches rfl rfl
    (by decide) replays failed).2.1 ⟨rfl, fun all => ?_⟩
  · rcases late with ⟨k, earlier, stops, _⟩ | ⟨_, misfit⟩
    · exact absurd (Fin.lt_one_iff k |>.1 earlier) stops.1
    · exact misfit
  · have accepted := all 1 le_rfl (by decide)
    rw [AcceptsFrom, Accepts, heard] at accepted
    revert accepted
    decide

end Replay

end Keygen

end ProofOfCustody.Bls
