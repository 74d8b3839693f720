import Mathlib
import ProofOfCustody.Spdz.Online

/-!
# Bijections of valid preprocessing material

Adding a public constant to a shared mask, or scaling it, maps valid material to valid material and
can be undone. These are the bijections from which the couplings of the online phase are built.
-/

namespace ProofOfCustody.Spdz
open Effect Shared

variable {n : Nat} {F : Type} [Field F] {alphai : Fin n → F}

attribute [ext] Triple Square RandomBit InputMask

section Shift
variable [NeZero n]

namespace Triple

def shift (δ ε : F) (t : Triple alphai) : Triple alphai where
  a := t.a + constant alphai δ
  b := t.b + constant alphai ε
  c := t.c + ε • t.a + δ • t.b + constant alphai (δ * ε)
  product := by
    simp only [map_add, val_smul, val_constant, t.product]
    ring
  authentic :=
    ⟨add_mem t.authentic.1 (constant_authentic _ _), add_mem t.authentic.2.1 (constant_authentic _ _),
      add_mem (add_mem (add_mem t.authentic.2.2 (Submodule.smul_mem _ _ t.authentic.1))
        (Submodule.smul_mem _ _ t.authentic.2.1)) (constant_authentic _ _)⟩

theorem shift_neg_shift (δ ε : F) (t : Triple alphai) : shift (-δ) (-ε) (shift δ ε t) = t := by
  refine Triple.ext ?_ ?_ ?_
  · simp [shift, constant_neg]
  · simp [shift, constant_neg]
  · simp only [shift, smul_add, smul_constant, neg_smul, neg_mul, mul_neg, neg_neg, constant_neg,
      mul_comm ε δ]
    abel

def shiftEquiv (δ ε : F) : Triple alphai ≃ Triple alphai where
  toFun := shift δ ε
  invFun := shift (-δ) (-ε)
  left_inv := shift_neg_shift δ ε
  right_inv t := by simpa using shift_neg_shift (-δ) (-ε) t

@[simp] theorem val_shiftEquiv_a (δ ε : F) (t : Triple alphai) :
    val (shiftEquiv δ ε t).a = val t.a + δ := by
  simp [shiftEquiv, shift]

@[simp] theorem val_shiftEquiv_b (δ ε : F) (t : Triple alphai) :
    val (shiftEquiv δ ε t).b = val t.b + ε := by
  simp [shiftEquiv, shift]

end Triple

namespace Square

def shift (δ : F) (t : Square alphai) : Square alphai where
  a := t.a + constant alphai δ
  aa := t.aa + (δ + δ) • t.a + constant alphai (δ * δ)
  square := by
    simp only [map_add, val_smul, val_constant, t.square]
    ring
  authentic :=
    ⟨add_mem t.authentic.1 (constant_authentic _ _),
      add_mem (add_mem t.authentic.2 (Submodule.smul_mem _ _ t.authentic.1)) (constant_authentic _ _)⟩

theorem shift_neg_shift (δ : F) (t : Square alphai) : shift (-δ) (shift δ t) = t := by
  refine Square.ext ?_ ?_
  · simp [shift, constant_neg]
  · simp only [shift, smul_add, add_smul, smul_constant, constant_neg, mul_neg, neg_mul, neg_neg,
      neg_smul]
    abel

def shiftEquiv (δ : F) : Square alphai ≃ Square alphai where
  toFun := shift δ
  invFun := shift (-δ)
  left_inv := shift_neg_shift δ
  right_inv t := by simpa using shift_neg_shift (-δ) t

@[simp] theorem val_shiftEquiv_a (δ : F) (t : Square alphai) :
    val (shiftEquiv δ t).a = val t.a + δ := by
  simp [shiftEquiv, shift]

end Square

namespace InputMask

def shift (δ : F) (t : InputMask alphai) : InputMask alphai where
  share := t.share + constant alphai δ
  rr := t.rr + δ
  known := by simp [t.known]
  authentic := add_mem t.authentic (constant_authentic _ _)

theorem shift_neg_shift (δ : F) (t : InputMask alphai) : shift (-δ) (shift δ t) = t := by
  refine InputMask.ext ?_ ?_ <;> simp [shift, constant_neg]

def shiftEquiv (δ : F) : InputMask alphai ≃ InputMask alphai where
  toFun := shift δ
  invFun := shift (-δ)
  left_inv := shift_neg_shift δ
  right_inv t := by simpa using shift_neg_shift (-δ) t

@[simp] theorem shiftEquiv_rr (δ : F) (t : InputMask alphai) : (shiftEquiv δ t).rr = t.rr + δ := rfl

end InputMask

namespace RandomBit

def flip (t : RandomBit alphai) : RandomBit alphai where
  bit := constant alphai 1 - t.bit
  is_bit := by
    rw [map_sub, val_constant]
    rcases t.is_bit with h | h <;> simp [h]
  authentic := sub_mem (constant_authentic _ _) t.authentic

@[simp] theorem flip_flip (t : RandomBit alphai) : t.flip.flip = t :=
  RandomBit.ext (sub_sub_cancel _ _)

@[simp] theorem val_flip (t : RandomBit alphai) : val t.flip.bit = 1 - val t.bit := by
  simp [flip]

end RandomBit

end Shift

namespace Square

def scale (ρ : F) (t : Square alphai) : Square alphai where
  a := ρ • t.a
  aa := (ρ * ρ) • t.aa
  square := by
    simp only [val_smul, t.square]
    ring
  authentic := ⟨Submodule.smul_mem _ _ t.authentic.1, Submodule.smul_mem _ _ t.authentic.2⟩

theorem scale_inv_scale {ρ : F} (nonzero : ρ ≠ 0) (t : Square alphai) :
    scale ρ⁻¹ (scale ρ t) = t := by
  refine Square.ext ?_ ?_
  · simp [scale, smul_smul, nonzero]
  · have : ρ⁻¹ * ρ⁻¹ * (ρ * ρ) = 1 := by field_simp
    simp [scale, smul_smul, this]

def scaleEquiv (ρ : F) (nonzero : ρ ≠ 0) : Square alphai ≃ Square alphai where
  toFun := scale ρ
  invFun := scale ρ⁻¹
  left_inv := scale_inv_scale nonzero
  right_inv t := by simpa using scale_inv_scale (inv_ne_zero nonzero) t

@[simp] theorem val_scaleEquiv_a (ρ : F) (nonzero : ρ ≠ 0) (t : Square alphai) :
    val (scaleEquiv ρ nonzero t).a = ρ * val t.a :=
  val_smul _ _

@[simp] theorem val_scaleEquiv_aa (ρ : F) (nonzero : ρ ≠ 0) (t : Square alphai) :
    val (scaleEquiv ρ nonzero t).aa = ρ * ρ * val t.aa :=
  val_smul _ _

end Square

theorem Online.reveal_coupled {sim : Similarity (spdz alphai)} (step : OpenedBy n)
    {a a' : List (Shared n F)} (same : a.map val = a'.map val) :
    Coupled sim (fun r r' => r = a.map val ∧ r' = a.map val)
      (reveal step a : Online alphai _) (reveal step a') := by
  have opened := congrArg (List.map (Opening.mk (n := n) step)) same
  rw [List.map_map, List.map_map] at opened
  exact .emitAll opened (.ret ⟨rfl, same.symm⟩)

theorem Online.reveal_one_coupled {sim : Similarity (spdz alphai)} (step : OpenedBy n)
    {a a' : Shared n F} (same : val a = val a') :
    Coupled sim (fun r r' => r = [val a] ∧ r' = [val a])
      (reveal step [a] : Online alphai _) (reveal step [a']) :=
  reveal_coupled step (show [a].map val = [a'].map val from congrArg (fun value => [value]) same)

end ProofOfCustody.Spdz
