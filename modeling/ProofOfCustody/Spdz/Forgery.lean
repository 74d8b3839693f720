import Mathlib
import ProofOfCustody.Spdz.MacCheckRuns

/-!
# Wrong values and the MAC check

Opening a wrong value amounts to guessing the key of an honest player, or its random combination.
-/

namespace ProofOfCustody.Spdz
open Finset Network Process Networking Tools

variable {F : Type} [Field F] [Fintype F] [DecidableEq F]

theorem card_affine_le_one (c : F) {e : F} (nonzero : e ≠ 0) :
    (univ.filter fun a : F => c + a * e = 0).card ≤ 1 := by
  refine card_le_one.2 fun a ha b hb => ?_
  have ha := (mem_filter.1 ha).2
  have hb := (mem_filter.1 hb).2
  exact mul_right_cancel₀ nonzero (add_left_cancel (ha.trans hb.symm))

theorem card_form_le {k : Nat} {e : Fin (k + 1) → F} {l : Fin (k + 1)} (nonzero : e l ≠ 0) :
    (univ.filter fun h : Fin (k + 1) → F => ∑ i, h i * e i = 0).card ≤ Fintype.card F ^ k := by
  have size : Fintype.card F ^ k = (univ : Finset (Fin k → F)).card := by
    rw [card_univ, Fintype.card_fun, Fintype.card_fin]
  rw [size]
  refine card_le_card_of_injOn (fun h => fun i => h (l.succAbove i)) (fun _ _ => mem_univ _) ?_
  intro h hh h' hh' same
  have sum (h : Fin (k + 1) → F) (zero : h ∈ univ.filter fun h : Fin (k + 1) → F =>
      ∑ i, h i * e i = 0) : h l * e l = -∑ i, h (l.succAbove i) * e (l.succAbove i) := by
    have zero := (mem_filter.1 zero).2
    rw [Fin.sum_univ_succAbove _ l] at zero
    exact eq_neg_of_add_eq_zero_left zero
  have others (i : Fin k) : h (l.succAbove i) = h' (l.succAbove i) := congrFun same i
  have at_l : h l = h' l := by
    refine mul_right_cancel₀ nonzero ?_
    rw [sum h hh, sum h' hh']
    simp only [others]
  funext i
  rcases Fin.eq_self_or_eq_succAbove l i with rfl | ⟨i, rfl⟩
  · exact at_l
  · exact others i

/-- What the corrupted players know and choose: the values `x`, what they open them to, and their
shares of the MACs and of the key. -/
structure Attack (F : Type) (k : Nat) where
  x : Fin k → F
  opened : Fin k → F
  macs : Fin k → F
  alpha : F

namespace Attack
variable {k : Nat} (A : Attack F k)

def honest (alphai : F) : MacCheck F where
  alphai := alphai
  values := []
  next := 0
  values_opened := k
  popen_cnt := k
  macs := List.ofFn fun l => (alphai + A.alpha) * A.x l - A.macs l
  vals := List.ofFn A.opened
  random _ := 0

def weights (h : Fin k → F) (l : Nat) : F := if inside : l < k then h ⟨l, inside⟩ else 0

def error (l : Fin k) : F := A.x l - A.opened l

omit [Fintype F] [DecidableEq F] in
theorem tau_honest (h : Fin k → F) (alphai : F) : (A.honest alphai).tau (weights h) =
    (∑ l, h l * (A.alpha * A.x l - A.macs l)) + alphai * ∑ l, h l * A.error l := by
  have entry (g : Fin k → F) (l : Fin k) : (List.ofFn g).getD l 0 = g l := by
    rw [List.getD_eq_getElem _ _ (by simp), List.getElem_ofFn]
  have weight (l : Fin k) : weights h l = h l := dif_pos l.isLt
  rw [MacCheck.tau, MacCheck.foldl_combined]
  simp only [honest, Int.toNat_natCast, Finset.sum_range, entry, weight, error, mul_sum, ← sum_add_distrib,
    ← sum_sub_distrib]
  refine sum_congr rfl fun l _ => ?_
  ring

omit [Fintype F] [DecidableEq F] in
theorem deltas_honest (alphai : F) (l : Fin k) : (A.honest alphai).deltas.getD l 0 =
    A.macs l - A.alpha * A.x l + alphai * -A.error l := by
  have whole (g : Fin k → F) : (List.ofFn g).take k = List.ofFn g :=
    List.take_of_length_le List.length_ofFn.le
  have count : (A.honest alphai).popen_cnt.toNat = k := Int.toNat_natCast k
  rw [MacCheck.deltas, count, honest, whole, whole, List.getD_eq_getElem _ _ (by simp),
    List.getElem_zipWith, List.getElem_ofFn, List.getElem_ofFn, error]
  simp only [Fin.eta]
  ring

/-- When a value is opened wrongly, at most one key share makes the single deltas vanish, and at most
two in `|F|` of all random combinations and key shares pass the combined check; whatever the others
contribute when they know the combination. -/
theorem forgery (wrong : A.opened ≠ A.x) (deltas : Fin k → F) (tau : (Fin k → F) → F) :
    (univ.filter fun alphai : F =>
      ∀ l : Fin k, (A.honest alphai).deltas.getD l 0 + deltas l = 0).card ≤ 1 ∧
    (univ.filter fun choice : (Fin k → F) × F =>
      (A.honest choice.2).tau (weights choice.1) + tau choice.1 = 0).card ≤
        2 * Fintype.card F ^ k := by
  obtain ⟨l, different⟩ : ∃ l, A.opened l ≠ A.x l := Function.ne_iff.1 wrong
  have nonzero : A.error l ≠ 0 := sub_ne_zero.2 different.symm
  constructor
  · refine le_trans (card_le_card fun alphai member => ?_)
      (card_affine_le_one (A.macs l - A.alpha * A.x l + deltas l) (neg_ne_zero.2 nonzero))
    have zero := (mem_filter.1 member).2 l
    rw [deltas_honest] at zero
    refine mem_filter.2 ⟨mem_univ _, ?_⟩
    rw [← zero]
    ring
  · -- either the combination misses the errors, or it determines the key share
    let form (h : Fin k → F) : F := ∑ i, h i * A.error i
    have each (h : Fin k → F) : (univ.filter fun alphai : F =>
        (A.honest alphai).tau (weights h) + tau h = 0).card ≤
          (if form h = 0 then Fintype.card F else 0) + 1 := by
      by_cases missed : form h = 0
      · rw [if_pos missed]
        exact (card_le_univ _).trans (Nat.le_succ _)
      · rw [if_neg missed, Nat.zero_add]
        refine le_trans (card_le_card fun alphai member => ?_)
          (card_affine_le_one ((∑ l, h l * (A.alpha * A.x l - A.macs l)) + tau h) missed)
        have zero := (mem_filter.1 member).2
        rw [tau_honest] at zero
        refine mem_filter.2 ⟨mem_univ _, ?_⟩
        rw [← zero]
        ring
    obtain ⟨k, rfl⟩ : ∃ k', k = k' + 1 := ⟨k - 1, by have := l.isLt; omega⟩
    calc (univ.filter fun choice : (Fin (k + 1) → F) × F =>
          (A.honest choice.2).tau (weights choice.1) + tau choice.1 = 0).card
        = ∑ h : Fin (k + 1) → F, (univ.filter fun alphai : F =>
            (A.honest alphai).tau (weights h) + tau h = 0).card := by
          simp only [card_filter, Fintype.sum_prod_type]
      _ ≤ ∑ h : Fin (k + 1) → F, ((if form h = 0 then Fintype.card F else 0) + 1) :=
          sum_le_sum fun h _ => each h
      _ = (univ.filter fun h => form h = 0).card * Fintype.card F + Fintype.card F ^ (k + 1) := by
          rw [sum_add_distrib, ← sum_filter, sum_const, sum_const, smul_eq_mul, smul_eq_mul, mul_one,
            card_univ, Fintype.card_fun, Fintype.card_fin]
      _ ≤ Fintype.card F ^ k * Fintype.card F + Fintype.card F ^ (k + 1) :=
          Nat.add_le_add_right (Nat.mul_le_mul_right _ (card_form_le nonzero)) _
      _ = 2 * Fintype.card F ^ (k + 1) := by ring

def openOne : Attack (ZMod 3) 1 := ⟨fun _ => 0, fun _ => 1, fun _ => 0, 0⟩

theorem forgery_openOne :
    (univ.filter fun alphai : ZMod 3 =>
      ∀ l : Fin 1, (openOne.honest alphai).deltas.getD l 0 + (0 : Fin 1 → ZMod 3) l = 0).card ≤ 1 ∧
    (univ.filter fun choice : (Fin 1 → ZMod 3) × ZMod 3 =>
      (openOne.honest choice.2).tau (weights choice.1) +
        (0 : (Fin 1 → ZMod 3) → ZMod 3) choice.1 = 0).card ≤ 2 * Fintype.card (ZMod 3) ^ 1 :=
  forgery openOne (by decide) 0 0

end Attack

end ProofOfCustody.Spdz
