import Mathlib
import ProofOfCustody.Bls.KeygenRuns

/-!
# Key generation among honest players

When every player follows the protocol the calls never wait for each other in a circle, nothing is
rejected, and the shares lie on the sum of the players' polynomials.
-/

namespace ProofOfCustody.Bls
open Network Process Polynomial

variable {n r : Nat} [Fact r.Prime] {G1 G2 : Type} [AddCommGroup G1] [Module (ZMod r) G1]
  [DecidableEq G1]

namespace Keygen

variable {K : Keygen n r G1 G2} {s : State (Fin n) OctetStream (Result r G1 G2)}

omit [AddCommGroup G1] [Module (ZMod r) G1] [DecidableEq G1] in
theorem dealt_eval (K : Keygen n r G1 G2) (i : Fin n) (x : ZMod r) : (K.dealt i).eval x =
    evaluatePolynomial (coefficients K.threshold (K.coins i).draw) x :=
  polynomial_eval _ _

omit [AddCommGroup G1] [Module (ZMod r) G1] [DecidableEq G1] in
theorem dealt_eval_zero (K : Keygen n r G1 G2) (i : Fin n) :
    (K.dealt i).eval 0 = (K.coins i).draw 0 := by
  rw [dealt_eval, evaluate_coefficients_zero]

omit [AddCommGroup G1] [Module (ZMod r) G1] [DecidableEq G1] in
theorem dealt_degree (K : Keygen n r G1 G2) (i : Fin n) :
    (K.dealt i).degree < (K.threshold + 1 : Nat) := by
  have := polynomial_degree (coefficients K.threshold (K.coins i).draw)
  rwa [length_coefficients] at this

def ownShare (K : Keygen n r G1 G2) (i : Fin n) : ZMod r :=
  K.lib.frEvaluatePolynomial (coefficients K.threshold (K.coins i).draw) ((i + 1 : Nat) : ZMod r)

omit [DecidableEq G1] in
theorem ownShare_eq (documented : K.lib.Documented) (i : Fin n) :
    K.ownShare i = (K.dealt i).eval ((i + 1 : Nat) : ZMod r) := by
  rw [ownShare, evaluate_coefficients _ documented.toDocumented, dealt_eval]

noncomputable def finalKey (K : Keygen n r G1 G2) (i : Fin n) : BLS r G1 G2 :=
  { K.bls i with
    sk := ∑ j, (K.dealt j).eval ((i + 1 : Nat) : ZMod r)
    vk := (∑ j, (K.dealt j).eval 0) • K.lib.basePointG1 }

theorem outcome_honest (documented : K.lib.Documented) (configured : K.Configured)
    (bound : K.threshold ≤ n) (i : Fin n) :
    outcome K.lib i (K.coins i) (K.bls i) (fun j => K.sentTo j i) = (.ok (), K.finalKey i) := by
  have share (j : Fin n) : ((K.sentTo j i).read K.lib).tmp_share =
      (K.dealt j).eval ((i + 1 : Nat) : ZMod r) := by
    rw [sentTo, read_outbox documented, dealt_eval]
  have point (j : Fin n) : ((K.sentTo j i).read K.lib).aux_tmp.headD 0 =
      (K.dealt j).eval 0 • K.lib.basePointG1 := by
    rw [sentTo, read_outbox documented, dealt_eval_zero]
    simp [coefficients, List.range_succ_eq_map]
  rcases checkLoop_cases K.lib i (K.coins i).a0 (fun j => (K.sentTo j i).read K.lib)
      (List.finRange n) (ownKey K.lib i (K.coins i) (K.bls i)) with
    ⟨_, value⟩ | ⟨_, j, _, _, _, _, rejected, _⟩
  · rw [outcome, value]
    congr 1
    have own := ownShare_eq documented i
    simp only [ownShare] at own
    simp only [gathered, ownKey, finalKey, share, point, configured.threshold i, own]
    rw [← dealt_eval_zero,
      sum_others (fun j => (K.dealt j).eval ((i + 1 : Nat) : ZMod r)) i,
      sum_others (fun j => (K.dealt j).eval 0 • K.lib.basePointG1) i, Finset.sum_smul]
  · exact absurd (checkContribution_honest documented i _ (K.coins j) configured.players bound)
      rejected

omit [DecidableEq G1] in
theorem delivers_honest (K : Keygen n r G1 G2) :
    Delivers (fun _ => True) K fun i j => K.sentTo j i :=
  fun _ _ _ _ _ => rfl

/-- No player waits for ever, none throws, and the finished players hold their points of the sum of
all polynomials. -/
theorem honest_keygen (documented : K.lib.Documented) (configured : K.Configured)
    (bound : K.threshold < n) (small : n < r) (reaches : K.Reaches (fun _ => True) s) :
    ((∃ i, ∀ o, ¬s.Finished i o) → ∃ s', Step (fun _ => True) s s') ∧
    (∀ i o, s.Finished i o → o.1 = .ok () ∧
      o.2.vk = (∑ j, (K.dealt j).eval 0) • K.lib.basePointG1 ∧
      o.2.sk = ∑ j, (K.dealt j).eval ((i + 1 : Nat) : ZMod r)) ∧
    ∀ o : Fin n → Result r G1 G2, (∀ j, s.Finished j (o j)) →
      ∃ c : Fin n → ZMod r, (∀ j : Fin n, getLagrangeCoeff n (j + 1) = .ok (c j)) ∧
        ∑ j, c j * (o j).2.sk = ∑ i, (K.dealt i).eval 0 := by
  obtain ⟨rest, now⟩ := (aligned configured bound.le K.delivers_honest).reachable reaches
  have result (i : Fin n) (o : Result r G1 G2) (finished : s.Finished i o) :
      o = (.ok (), K.finalKey i) := by
    rw [now.result_eq finished, outcome_honest documented configured bound.le]
  refine ⟨now.progress, fun i o finished => ?_, fun o finished => ?_⟩
  · rw [result i o finished]
    exact ⟨rfl, rfl, rfl⟩
  · have coefficient (j : Fin n) : ∃ c : ZMod r, getLagrangeCoeff n (j + 1) = .ok c :=
      ⟨_, getLagrangeCoeff_eq (Nat.succ_pos _) j.isLt configured.players⟩
    choose c coefficients using coefficient
    have degree : (∑ i, K.dealt i).degree < n := by
      apply (degree_sum_le _ _).trans_lt
      apply (Finset.sup_lt_iff (WithBot.bot_lt_coe n)).2
      intro i _
      exact (K.dealt_degree i).trans_le (Nat.cast_le.2 bound)
    have total := sum_lagrange small configured.players degree coefficients
    simp only [eval_finsetSum] at total
    refine ⟨c, coefficients, ?_⟩
    rw [← total]
    apply Finset.sum_congr rfl
    intro j _
    rw [result j _ (finished j)]
    rfl

section Small

instance factPrimeFive : Fact (Nat.Prime 5) := ⟨by norm_num⟩

def smallLib : Library 5 (ZMod 5) where
  basePointG1 := 1
  frEvaluatePolynomial := evaluatePolynomial
  g1EvaluatePolynomial := evaluatePolynomial
  hash os := os
  serializeFr a := [UInt8.ofNat a.val]
  deserializeFr _ os := (os.headD 0).toNat
  serializeG1 a := [UInt8.ofNat a.val]
  deserializeG1 _ os := (os.headD 0).toNat

theorem smallLib_documented : smallLib.Documented where
  basePoint_ne_zero := by decide
  frEvaluatePolynomial_eq _ _ _ := rfl
  g1EvaluatePolynomial_eq _ _ _ := rfl
  generates a := ⟨a, (mul_one a).symm⟩
  deserializeFr_serialize _ :=
    (by decide : ∀ a, smallLib.deserializeFr 0 (smallLib.serializeFr a) = a)
  deserializeG1_serialize _ :=
    (by decide : ∀ P, smallLib.deserializeG1 0 (smallLib.serializeG1 P) = P)

def smallKeygen (n t : Nat) : Keygen n 5 (ZMod 5) Unit where
  lib := smallLib
  threshold := t
  coins i := ⟨fun _ => (i : Nat) + 1, fun _ => 0, fun _ => 0⟩
  bls _ := ⟨0, 0, (), n, t⟩

theorem smallKeygen_configured {n : Nat} (players : n < 2 ^ 31) (t : Nat) :
    (smallKeygen n t).Configured :=
  ⟨players, fun _ => rfl, fun _ => rfl⟩

theorem honest_keygen_small : ∃ s, (smallKeygen 2 1).Reaches (fun _ => True) s ∧
    ∃ o : Fin 2 → Result 5 (ZMod 5) Unit, (∀ j, s.Finished j (o j)) ∧ (o 0).2.vk = 3 ∧ (o 1).2.vk = 3 ∧
      (o 0).2.sk = 1 ∧ (o 1).2.sk = 4 := by
  have configured := smallKeygen_configured (show 2 < 2 ^ 31 by norm_num) 1
  obtain ⟨s, reaches, finished⟩ := exists_run configured (by decide) (smallKeygen 2 1).delivers_honest
  obtain ⟨_, keys, _⟩ := honest_keygen smallLib_documented configured (by decide) (by decide) reaches
  refine ⟨s, reaches, _, fun j => (finished j trivial).1, ?_, ?_, ?_, ?_⟩
  · rw [(keys 0 _ (finished 0 trivial).1).2.1]
    simp only [dealt_eval]
    decide
  · rw [(keys 1 _ (finished 1 trivial).1).2.1]
    simp only [dealt_eval]
    decide
  · rw [(keys 0 _ (finished 0 trivial).1).2.2]
    simp only [dealt_eval]
    decide
  · rw [(keys 1 _ (finished 1 trivial).1).2.2]
    simp only [dealt_eval]
    decide

end Small

end Keygen

end ProofOfCustody.Bls
