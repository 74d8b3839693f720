import Mathlib
import ProofOfCustody.Bls.Keygen

/-!
# What one player of key generation does

The player sends to every other player a commitment, its opening, a share and the public
coefficients, and takes the same from it. `runs_dstbKeygen` lists its runs: they differ only in the
messages taken.
-/

namespace ProofOfCustody.Bls
open Network Process Script

variable {n r t : Nat} [Fact r.Prime] {G1 G2 : Type} [AddCommGroup G1] [Module (ZMod r) G1]
  [DecidableEq G1]

structure Inbox (t : Nat) where
  comm : OctetStream
  opening : OctetStream
  share : OctetStream
  aux : List OctetStream
  complete : aux.length = t + 1

namespace Inbox

def messages (box : Inbox t) : List OctetStream :=
  box.comm :: box.opening :: box.share :: box.aux

def read (lib : Library r G1) (box : Inbox t) : Contribution r G1 where
  os_comm := box.comm
  os_open := box.opening
  tmp_share := lib.deserializeFr 0 box.share
  aux_tmp := box.aux.map (lib.deserializeG1 0)

end Inbox

def outbox (lib : Library r G1) (t : Nat) (coins : Coins n r G1) (i : Fin n) : Inbox t where
  comm := (commit lib.hash (lib.serializeG1 (coins.draw 0 • lib.basePointG1)) 1 coins.seed).1
  opening := (commit lib.hash (lib.serializeG1 (coins.draw 0 • lib.basePointG1)) 1 coins.seed).2
  share := lib.serializeFr
    (lib.frEvaluatePolynomial (coefficients t coins.draw) ((i + 1 : Nat) : ZMod r))
  aux := (coefficients t coins.draw).map fun a => lib.serializeG1 (a • lib.basePointG1)
  complete := by simp

def others (my_num : Fin n) : List (Fin n) := (List.finRange n).filter (· ≠ my_num)

theorem nodup_others (my_num : Fin n) : (others my_num).Nodup := (List.nodup_finRange n).filter _

@[simp] theorem mem_others {i my_num : Fin n} : i ∈ others my_num ↔ i ≠ my_num := by
  simp [others]

def exchanged (out box : Fin n → Inbox t) :
    List ((Fin n → List OctetStream) × (Fin n → List OctetStream)) :=
  [(fun i => [(out i).comm], fun i => [(box i).comm]),
    (fun i => [(out i).opening], fun i => [(box i).opening]),
    (fun i => [(out i).share], fun i => [(box i).share]),
    (fun i => (out i).aux, fun i => (box i).aux)]

def script (my_num : Fin n) (out box : Fin n → Inbox t) : Script (Fin n) OctetStream :=
  exchange (others my_num) 0 (exchanged out box)

theorem actions_script (my_num : Fin n) (out box : Fin n → Inbox t) :
    actions (script my_num out box) =
      sendActions (others my_num) (fun i => [(out i).comm]) ++
      (recvActions (others my_num) (fun i => [(box i).comm]) ++
      (sendActions (others my_num) (fun i => [(out i).opening]) ++
      (recvActions (others my_num) (fun i => [(box i).opening]) ++
      (sendActions (others my_num) (fun i => [(out i).share]) ++
      (recvActions (others my_num) (fun i => [(box i).share]) ++
      (sendActions (others my_num) (fun i => (out i).aux) ++
      (recvActions (others my_num) (fun i => (box i).aux) ++ []))))))) := by
  simp [script, exchange, exchanged]

def ownKey (lib : Library r G1) (my_num : Fin n) (coins : Coins n r G1) (bls : BLS r G1 G2) :
    BLS r G1 G2 :=
  { bls with
    sk := lib.frEvaluatePolynomial (coefficients bls.threshold coins.draw)
      ((my_num + 1 : Nat) : ZMod r)
    vk := coins.draw 0 • lib.basePointG1 }

def outcome (lib : Library r G1) (my_num : Fin n) (coins : Coins n r G1) (bls : BLS r G1 G2)
    (box : Fin n → Inbox t) : Except Failure Unit × BLS r G1 G2 :=
  checkLoop lib my_num coins.a0 (fun i => (box i).read lib) (List.finRange n)
    (ownKey lib my_num coins bls)

theorem checkLoop_congr (lib : Library r G1) (my_num : Fin n) (a0 : Fin n → G1)
    {c c' : Fin n → Contribution r G1} (same : ∀ i, i ≠ my_num → c i = c' i)
    (players : List (Fin n)) (bls : BLS r G1 G2) :
    checkLoop lib my_num a0 c players bls = checkLoop lib my_num a0 c' players bls := by
  induction players generalizing bls with
  | nil => rfl
  | cons i players ih =>
      by_cases own : i = my_num
      · rw [checkLoop, checkLoop, if_neg (not_not_intro own), if_neg (not_not_intro own), ih]
      · simp only [checkLoop, if_pos own, same i own, ih]

section Checks
variable (lib : Library r G1) (my_num : Fin n) (a0 : Fin n → G1) (c : Fin n → Contribution r G1)

def Accepts (i : Fin n) : Prop := checkContribution lib my_num (a0 i) (c i) = .ok true

def rejection : Except Failure Bool → Failure
  | .error e => e
  | .ok _ => .invalid_commitment

def gathered (c : Fin n → Contribution r G1) (players : List (Fin n)) (bls : BLS r G1 G2) :
    BLS r G1 G2 :=
  { bls with
    sk := bls.sk + ((players.filter (· ≠ my_num)).map fun i => (c i).tmp_share).sum
    vk := bls.vk + ((players.filter (· ≠ my_num)).map fun i => (c i).aux_tmp.headD 0).sum }

omit [Module (ZMod r) G1] [DecidableEq G1] in
theorem gathered_nil (bls : BLS r G1 G2) : gathered my_num c [] bls = bls := by
  simp [gathered]

omit [Module (ZMod r) G1] [DecidableEq G1] in
theorem gathered_own (players : List (Fin n)) (bls : BLS r G1 G2) :
    gathered my_num c (my_num :: players) bls = gathered my_num c players bls := by
  simp [gathered]

omit [Module (ZMod r) G1] [DecidableEq G1] in
theorem gathered_other {i : Fin n} (other : i ≠ my_num) (players : List (Fin n))
    (bls : BLS r G1 G2) : gathered my_num c (i :: players) bls = gathered my_num c players
      { bls with sk := bls.sk + (c i).tmp_share, vk := bls.vk + (c i).aux_tmp.headD 0 } := by
  simp [gathered, other, add_assoc]

theorem sum_others {V : Type} [AddCommMonoid V] (f : Fin n → V) (i : Fin n) :
    f i + (((List.finRange n).filter (· ≠ i)).map f).sum = ∑ k, f k := by
  rw [← List.sum_toFinset f ((List.nodup_finRange n).filter _), List.toFinset_filter,
    List.toFinset_finRange, ← Finset.add_sum_erase Finset.univ f (Finset.mem_univ i)]
  congr 1
  apply Finset.sum_congr _ fun _ _ => rfl
  ext k
  simp

theorem checkLoop_cases (players : List (Fin n)) (bls : BLS r G1 G2) :
    (∀ i ∈ players, i ≠ my_num → Accepts lib my_num a0 c i) ∧
      checkLoop lib my_num a0 c players bls = (.ok (), gathered my_num c players bls) ∨
    ∃ before i after, players = before ++ i :: after ∧ i ≠ my_num ∧
      (∀ k ∈ before, k ≠ my_num → Accepts lib my_num a0 c k) ∧ ¬Accepts lib my_num a0 c i ∧
      checkLoop lib my_num a0 c players bls =
        (.error (rejection (checkContribution lib my_num (a0 i) (c i))),
          gathered my_num c before bls) := by
  induction players generalizing bls with
  | nil => exact .inl ⟨nofun, by rw [gathered_nil]; rfl⟩
  | cons i players ih =>
      by_cases own : i = my_num
      · subst own
        rw [checkLoop, if_neg (not_not_intro rfl)]
        rcases ih bls with ⟨accepted, value⟩ | ⟨before, k, after, rfl, other, accepted, rejected, value⟩
        · refine .inl ⟨fun k member other => ?_, by rw [value, gathered_own]⟩
          exact accepted k ((List.mem_cons.1 member).resolve_left other) other
        · refine .inr ⟨i :: before, k, after, rfl, other, fun k' member other' => ?_, rejected, ?_⟩
          · exact accepted k' ((List.mem_cons.1 member).resolve_left other') other'
          · rw [value, gathered_own]
      · by_cases accepts : Accepts lib my_num a0 c i
        · have first : checkLoop lib my_num a0 c (i :: players) bls = checkLoop lib my_num a0 c players
              { bls with sk := bls.sk + (c i).tmp_share, vk := bls.vk + (c i).aux_tmp.headD 0 } := by
            rw [checkLoop, if_pos own, show checkContribution lib my_num (a0 i) (c i) = _ from accepts]
          rw [first]
          rcases ih { bls with sk := bls.sk + (c i).tmp_share, vk := bls.vk + (c i).aux_tmp.headD 0 }
            with ⟨accepted, value⟩ | ⟨before, k, after, rfl, other, accepted, rejected, value⟩
          · refine .inl ⟨?_, by rw [value, gathered_other my_num c own]⟩
            rintro k member other
            rcases List.mem_cons.1 member with rfl | member
            · exact accepts
            · exact accepted k member other
          · refine .inr ⟨i :: before, k, after, rfl, other, ?_, rejected, ?_⟩
            · rintro k' member other'
              rcases List.mem_cons.1 member with rfl | member
              · exact accepts
              · exact accepted k' member other'
            · rw [value, gathered_other my_num c own]
        · refine .inr ⟨[], i, players, rfl, own, nofun, accepts, ?_⟩
          rw [checkLoop, if_pos own, gathered_nil]
          rw [Accepts] at accepts
          match result : checkContribution lib my_num (a0 i) (c i) with
          | .error e => rfl
          | .ok false => rfl
          | .ok true => exact absurd result accepts

end Checks

section Honest
variable {lib : Library r G1} (documented : lib.Documented) (my_num : Fin n) (a0 : G1)
  (coins : Coins n r G1)
include documented

theorem checkContribution_committed (i : Fin n) {tmp_share : ZMod r} {aux_tmp : List G1} {ok : Bool}
    (verified : verifyShare lib.toEvaluator tmp_share aux_tmp (my_num + 1) = .ok ok) :
    checkContribution lib my_num a0
        ⟨(outbox lib t coins i).comm, (outbox lib t coins i).opening, tmp_share, aux_tmp⟩ =
      .ok (ok && decide (coins.draw 0 • lib.basePointG1 = aux_tmp.headD 0)) := by
  simp only [checkContribution, outbox]
  rw [openCommitment_commit lib.hash _ (by decide) (by decide)]
  simp only [Bind.bind, Except.bind, verified]
  rw [documented.deserializeG1_serialize, Bool.true_and]
  rfl

omit [DecidableEq G1] in
theorem read_outbox : (outbox lib t coins my_num).read lib =
    ⟨(outbox lib t coins my_num).comm, (outbox lib t coins my_num).opening,
      evaluatePolynomial (coefficients t coins.draw) ((my_num + 1 : Nat) : ZMod r),
      (coefficients t coins.draw).map (· • lib.basePointG1)⟩ := by
  simp [Inbox.read, outbox, documented.deserializeFr_serialize,
    documented.deserializeG1_serialize, evaluate_coefficients _ documented.toDocumented,
    Function.comp_def]

theorem checkContribution_honest (players : n < 2 ^ 31) (bound : t ≤ n) :
    checkContribution lib my_num a0 ((outbox lib t coins my_num).read lib) = .ok true := by
  have verified := (verifyShare_iff documented.toDocumented
    (evaluatePolynomial (coefficients t coins.draw) ((my_num + 1 : Nat) : ZMod r))
    (coefficients_ne_nil t coins.draw) (by simp; omega)
    (show my_num.val + 1 < 2 ^ 31 by omega)).2 rfl
  rw [read_outbox documented, checkContribution_committed documented my_num a0 coins my_num verified,
    head_coefficients, decide_eq_true rfl]
  rfl

end Honest

section Phases
variable {M : Type} (my_num : Fin n)

theorem runs_sendOthers (f : Fin n → M) (u : PUnit) (L : List (Action (Fin n) M)) :
    Runs (forM (List.finRange n) fun i => if i ≠ my_num then sendTo i (f i) else ret ⟨⟩) L (ret u) ↔
      L = sendActions (others my_num) fun i => [f i] :=
  runs_forM_others (fun _ _ => runs_sendTo) _ L

theorem runs_sendAllOf {κ : Type} (f : κ → M) (ks : List κ) (u : PUnit)
    (L : List (Action (Fin n) M)) :
    Runs (forM (List.finRange n) fun i =>
        if i ≠ my_num then forM ks fun k => sendTo i (f k) else ret ⟨⟩) L (ret u) ↔
      L = sendActions (others my_num) fun _ => ks.map f :=
  runs_forM_others (fun i L => runs_forM_sendTo i f ks L) _ L

theorem runs_receiveOthers {β : Type} (f : OctetStream → β) (v₀ v : Fin n → β)
    (L : List (Action (Fin n) OctetStream)) :
    Runs (readOthers my_num (fun i => receive i >>= fun m => ret (f m)) (List.finRange n) v₀)
      L (ret v) ↔ ∃ x : Fin n → OctetStream,
        L = recvActions (others my_num) (fun i => [x i]) ∧
        v = fun i => if i ≠ my_num then f (x i) else v₀ i := by
  rw [runs_readOthers (X := OctetStream) (e := fun x => [x]) (f := f) _ (List.nodup_finRange n)]
  · simp [others, Function.comp_def]
  · intro j L b
    rw [runs_bind]
    constructor
    · rintro ⟨_, m, _, rfl, taken, value⟩
      obtain rfl := runs_receive.1 taken
      obtain ⟨rfl, same⟩ := runs_ret.1 value
      cases same
      exact ⟨m, rfl, rfl⟩
    · rintro ⟨m, rfl, rfl⟩
      exact ⟨_, m, [], rfl, runs_receive.2 rfl, .stop _⟩

theorem runs_receiveAllOf {β κ : Type} (f : OctetStream → β) (ks : List κ) (v₀ v : Fin n → List β)
    (L : List (Action (Fin n) OctetStream)) :
    Runs (readOthers my_num (fun i => ks.mapM fun _ => receive i >>= fun m => ret (f m))
        (List.finRange n) v₀) L (ret v) ↔
      ∃ x : Fin n → {ms : List OctetStream // ms.length = ks.length},
        L = recvActions (others my_num) (fun i => (x i).1) ∧
        v = fun i => if i ≠ my_num then (x i).1.map f else v₀ i := by
  have : Nonempty {ms : List OctetStream // ms.length = ks.length} :=
    ⟨List.replicate ks.length [], List.length_replicate⟩
  rw [runs_readOthers (X := {ms : List OctetStream // ms.length = ks.length}) (e := Subtype.val)
    (f := fun ms => ms.1.map f) _ (List.nodup_finRange n)]
  · simp [others, Function.comp_def]
  · intro j L b
    rw [runs_mapM_receive]
    constructor
    · rintro ⟨ms, length, rfl, rfl⟩
      exact ⟨⟨ms, length⟩, rfl, rfl⟩
    · rintro ⟨ms, rfl, rfl⟩
      exact ⟨ms.1, ms.2, rfl, rfl⟩

theorem runs_sendAll (o : M) (u : PUnit) (L : List (Action (Fin n) M)) :
    Runs (sendAll my_num o) L (ret u) ↔ L = sendActions (others my_num) fun _ => [o] :=
  runs_sendOthers my_num (fun _ => o) u L

theorem runs_receiveAll (v : Fin n → OctetStream) (L : List (Action (Fin n) OctetStream)) :
    Runs (receiveAll my_num) L (ret v) ↔ ∃ x : Fin n → OctetStream,
      L = recvActions (others my_num) (fun i => [x i]) ∧
      v = fun i => if i ≠ my_num then x i else [] := by
  have same : receiveAll my_num = readOthers my_num (fun i => receive i >>= fun m => ret (id m))
      (List.finRange n) fun _ => [] := rfl
  rw [same, runs_receiveOthers]
  rfl

end Phases

theorem verifyShare_of_accepts {lib : Library r G1} {my_num : Fin n} {a0 : G1}
    {c : Contribution r G1} (accepts : checkContribution lib my_num a0 c = .ok true) :
    verifyShare lib.toEvaluator c.tmp_share c.aux_tmp (my_num + 1) = .ok true := by
  rw [checkContribution] at accepts
  cases opened : openCommitment lib.hash c.os_comm c.os_open 1 with
  | error e =>
      rw [opened] at accepts
      cases accepts
  | ok opening =>
      cases verified : verifyShare lib.toEvaluator c.tmp_share c.aux_tmp (my_num + 1) with
      | error e =>
          simp only [opened, verified, Bind.bind, Except.bind] at accepts
          cases accepts
      | ok res2 =>
          simp only [opened, verified, Bind.bind, Except.bind] at accepts
          have checks := Except.ok.inj accepts
          rw [Bool.and_eq_true, Bool.and_eq_true] at checks
          rw [checks.1.2]

section Runs
variable {lib : Library r G1} {my_num : Fin n} {coins : Coins n r G1} {bls : BLS r G1 G2}

theorem runs_dstbKeygen (players : n < 2 ^ 31) (parties : bls.nparty = n) (threshold : bls.threshold = t)
    (bound : t ≤ n) (L : List (Action (Fin n) OctetStream)) (o : Except Failure Unit × BLS r G1 G2) :
    Runs (dstbKeygen lib my_num coins bls) L (ret o) ↔ ∃ box : Fin n → Inbox t,
      L = actions (script my_num (outbox lib t coins) box) ∧
      o = outcome lib my_num coins bls box := by
  subst threshold
  have generated := genShare_eq lib.toEvaluator coins.draw (parties.trans_lt players)
    (bound.trans_lt players)
  obtain ⟨shs, whole⟩ : ∃ shs, shs = (List.range bls.nparty).map fun i : Nat =>
    lib.frEvaluatePolynomial (coefficients bls.threshold coins.draw) ((i + 1 : Nat) : ZMod r) :=
    ⟨_, rfl⟩
  obtain ⟨aux, points⟩ : ∃ aux, aux =
    (coefficients bls.threshold coins.draw).map (· • lib.basePointG1) := ⟨_, rfl⟩
  have shares : shs.length = n := by simp [whole, parties]
  have share (i : Fin n) : shs.getD i 0 =
      lib.frEvaluatePolynomial (coefficients bls.threshold coins.draw) ((i + 1 : Nat) : ZMod r) := by
    simp [whole, parties]
  have head : aux.headD 0 = coins.draw 0 • lib.basePointG1 := by
    rw [points, head_coefficients]
  rw [← whole, ← points] at generated
  rw [dstbKeygen, if_neg (by omega), generated]
  dsimp only
  have published_aux : aux.map lib.serializeG1 = (coefficients bls.threshold coins.draw).map
      fun a => lib.serializeG1 (a • lib.basePointG1) := by
    rw [points, List.map_map]
    rfl
  simp only [shares, share, head, lt_irrefl, if_false, pure_eq]
  constructor
  · intro run
    obtain ⟨comm, _, rfl, opened⟩ :=
      (runs_phase (runs_sendAll my_num _) (runs_receiveAll my_num)).1 run
    obtain ⟨opening, _, rfl, shared⟩ :=
      (runs_phase (runs_sendAll my_num _) (runs_receiveAll my_num)).1 opened
    obtain ⟨share', _, rfl, published⟩ :=
      (runs_phase (runs_sendOthers my_num _) (runs_receiveOthers my_num _ _)).1 shared
    obtain ⟨aux', _, rfl, checked⟩ :=
      (runs_phase (runs_sendAllOf my_num _ _) (runs_receiveAllOf my_num _ _ _)).1 published
    obtain ⟨rfl, value⟩ := runs_ret.1 checked
    refine ⟨fun i => ⟨comm i, opening i, share' i, (aux' i).1, ?_⟩, ?_, ?_⟩
    · rw [(aux' i).2, points, List.length_map, length_coefficients]
    · rw [actions_script, published_aux]
      rfl
    · rw [Process.ret.inj value]
      exact checkLoop_congr lib my_num coins.a0 (fun i other => by simp [Inbox.read, other]) _ _
  · rintro ⟨box, rfl, rfl⟩
    have complete (i : Fin n) : (box i).aux.length = aux.length := by
      rw [(box i).complete, points, List.length_map, length_coefficients]
    rw [actions_script]
    refine (runs_phase (runs_sendAll my_num _) (runs_receiveAll my_num)).2
      ⟨fun i => (box i).comm, _, rfl, ?_⟩
    refine (runs_phase (runs_sendAll my_num _) (runs_receiveAll my_num)).2
      ⟨fun i => (box i).opening, _, rfl, ?_⟩
    refine (runs_phase (runs_sendOthers my_num _) (runs_receiveOthers my_num _ _)).2
      ⟨fun i => (box i).share, _, rfl, ?_⟩
    refine (runs_phase (runs_sendAllOf my_num _ _) (runs_receiveAllOf my_num _ _ _)).2
      ⟨fun i => ⟨(box i).aux, complete i⟩, [], ?_, runs_ret.2 ⟨rfl, congrArg ret ?_⟩⟩
    · rw [published_aux]
      rfl
    · exact checkLoop_congr lib my_num coins.a0 (fun i other => by simp [Inbox.read, other]) _ _

end Runs

end ProofOfCustody.Bls
