import Mathlib
import ProofOfCustody.Curve.Gaussian
import ProofOfCustody.OnlineOp.ArithSpec
import ProofOfCustody.OnlineOp.Complex
import ProofOfCustody.Spdz.Plain

/-!
# The complex operations are those of `F_p[i]/(i² + 1)`
-/

namespace ProofOfCustody.OnlineOp
open Effect Spdz Shared Curve

variable {n : Nat} {F : Type} [Field F] {alphai : Fin n → F} {α : Type}

def Returns (p : Online alphai α) (Q : α → Prop) : Prop :=
  ∀ t, ∃ c, (p.run t).result = .ok c ∧ Q c

def ReturnsUnless (bad : Prop) (p : Online alphai α) (Q : α → Prop) : Prop :=
  ∀ t, InvMasksNonzero (p.run t) →
    (bad → (p.run t).result = .error .division_by_zero) ∧
    (¬bad → ∃ c, (p.run t).result = .ok c ∧ Q c)

def NonzeroInvMask (d : Draw (spdz alphai)) : Prop :=
  ∀ m : Square alphai, d = ⟨Site.square .inv, m⟩ → val m.a ≠ 0

theorem no_zero_invMask :
    ¬∃ m : Square alphai, NonzeroInvMask (⟨Site.square .inv, m⟩ : Draw (spdz alphai)) ∧
      val m.a = 0 :=
  fun ⟨m, nonzero, zero⟩ => nonzero m rfl zero

theorem returns_of_meets {p : Online alphai α} {Q : α → Prop}
    (meets : p.Meets (fun _ => True) Q (fun _ => False)) : Returns p Q :=
  fun t => meets.run_ok t fun _ _ => trivial

theorem returnsUnless_of_meets {bad : Prop} {p : Online alphai α} {Q : α → Prop}
    (meets : p.Meets NonzeroInvMask (fun c => ¬bad ∧ Q c) (fun e => e = .division_by_zero ∧ bad)) :
    ReturnsUnless bad p Q := by
  intro t masks
  have admitted : ∀ d ∈ (p.run t).used, NonzeroInvMask d := by
    intro d drawn m same
    exact masks m (same ▸ drawn)
  rcases meets.run t admitted with ⟨c, returned, good, holds⟩ | ⟨e, thrown, rfl, isBad⟩
  · exact ⟨fun isBad => absurd isBad good, fun _ => ⟨c, returned, holds⟩⟩
  · exact ⟨fun _ => thrown, fun good => absurd isBad good⟩

namespace Complex

def val (a : Complex (Shared n F)) : Gaussian F := ⟨Shared.val a.real, Shared.val a.imag⟩

def clear (b : Complex F) : Gaussian F := ⟨b.real, b.imag⟩

def Authentic (alphai : Fin n → F) (a : Complex (Shared n F)) : Prop :=
  a.real ∈ Shared.Authentic alphai ∧ a.imag ∈ Shared.Authentic alphai

def normSq (a : Complex (Shared n F)) : F :=
  Shared.val a.real * Shared.val a.real + Shared.val a.imag * Shared.val a.imag

theorem val_eq {c : Complex (Shared n F)} {z : Gaussian F} (re : Shared.val c.real = z.re)
    (im : Shared.val c.imag = z.im) : val c = z :=
  QuadraticAlgebra.ext re im

theorem add_val (a b : Complex (Shared n F)) : val (add a b) = val a + val b :=
  val_eq (map_add _ _ _) (map_add _ _ _)

theorem addInplace_val (c a : Complex (Shared n F)) : val (addInplace c a) = val c + val a :=
  add_val c a

theorem sub_val (a b : Complex (Shared n F)) : val (sub a b) = val a - val b :=
  val_eq (map_sub _ _ _) (map_sub _ _ _)

theorem subInplace_val (c a : Complex (Shared n F)) : val (subInplace c a) = val c - val a :=
  sub_val c a

theorem mulPlain_val (a : Complex (Shared n F)) (b : Complex F) :
    val (mulPlain a b) = val a * clear b := by
  apply val_eq
  · rw [QuadraticAlgebra.re_mul]
    simp only [mulPlain, OnlineOp.sub, OnlineOp.mulPlain, map_sub, val_smul, val, clear]
    ring
  · rw [QuadraticAlgebra.im_mul]
    simp only [mulPlain, OnlineOp.add, OnlineOp.mulPlain, map_add, val_smul, val, clear]
    ring

theorem mulComplexPlain_clear (a b : Complex F) :
    clear (mulComplexPlain a b) = clear a * clear b := by
  apply QuadraticAlgebra.ext
  · rw [QuadraticAlgebra.re_mul]
    simp only [mulComplexPlain, clear]
    ring
  · rw [QuadraticAlgebra.im_mul]
    simp only [mulComplexPlain, clear]
    ring

variable [NeZero n]

theorem addPlain_val (a : Complex (Shared n F)) (b : Complex F) :
    val (addPlain alphai a b) = val a + clear b := by
  apply val_eq
  · exact (map_add _ _ _).trans (congrArg _ (val_constant alphai _))
  · exact (map_add _ _ _).trans (congrArg _ (val_constant alphai _))

theorem subPlain_val (a : Complex (Shared n F)) (b : Complex F) :
    val (subPlain alphai a b) = val a - clear b := by
  apply val_eq
  · exact (map_sub _ _ _).trans (congrArg _ (val_constant alphai _))
  · exact (map_sub _ _ _).trans (congrArg _ (val_constant alphai _))

variable {A : Draw (spdz alphai) → Prop} {E : Err → Prop}

theorem mul_spec (a b : Complex (Shared n F)) :
    Program.Meets A (fun c => val c = val a * val b ∧ Authentic alphai c) E
      (mul a b : Online alphai _) := by
  refine (OnlineOp.mul_spec _ _).bind fun rr hrr => ?_
  refine (OnlineOp.mul_spec _ _).bind fun ii hii => ?_
  refine (OnlineOp.mul_spec _ _).bind fun ri hri => ?_
  refine (OnlineOp.mul_spec _ _).bind fun ir hir => ?_
  refine ⟨val_eq ?_ ?_, sub_mem hrr.2 hii.2, add_mem hri.2 hir.2⟩
  · rw [QuadraticAlgebra.re_mul]
    simp only [OnlineOp.subInplace, map_sub, hrr.1, hii.1, val]
    ring
  · rw [QuadraticAlgebra.im_mul]
    simp only [OnlineOp.addInplace, map_add, hri.1, hir.1, val]
    ring

theorem sqr_spec (a : Complex (Shared n F)) :
    Program.Meets A (fun aa => val aa = val a * val a ∧ Authentic alphai aa) E
      (sqr a : Online alphai _) := by
  refine (OnlineOp.sqr_spec _).bind fun rr hrr => ?_
  refine (OnlineOp.sqr_spec _).bind fun ii hii => ?_
  refine (OnlineOp.mul_spec _ _).bind fun ri hri => ?_
  refine ⟨val_eq ?_ ?_, sub_mem hrr.2 hii.2, add_mem hri.2 hri.2⟩
  · rw [QuadraticAlgebra.re_mul]
    simp only [OnlineOp.subInplace, map_sub, hrr.1, hii.1, val]
    ring
  · rw [QuadraticAlgebra.im_mul]
    simp only [OnlineOp.addInplace, map_add, hri.1, val]
    ring

theorem getInputs_spec (party : Fin n) (inputs : Fin n → Complex F) :
    Program.Meets A (fun sa => val sa = clear (inputs party)) E
      (getInputs party inputs : Online alphai _) := by
  refine (OnlineOp.getInputs_spec party _).bind fun real hreal => ?_
  refine (OnlineOp.getInputs_spec party _).bind fun imag himag => ?_
  exact val_eq hreal himag

variable [DecidableEq F]

theorem inv_spec (a : Complex (Shared n F)) :
    Program.Meets A (fun ia => normSq a ≠ 0 ∧ val ia * val a = 1 ∧ Authentic alphai ia)
      (fun e => e = .division_by_zero ∧
        (normSq a = 0 ∨ ∃ m : Square alphai, A ⟨Site.square .inv, m⟩ ∧ Shared.val m.a = 0))
      (inv a : Online alphai _) := by
  refine (OnlineOp.sqr_spec _).bind fun rr hrr => ?_
  refine (OnlineOp.sqr_spec _).bind fun ii hii => ?_
  have norm : Shared.val (OnlineOp.addInplace rr ii) = normSq a := by
    rw [OnlineOp.addInplace, map_add, hrr.1, hii.1, normSq]
  refine ((OnlineOp.inv_spec (OnlineOp.addInplace rr ii)).mono (fun _ h => h) (fun _ h => h)
    fun e he => ?_).bind fun ir hir => ?_
  · rwa [norm] at he
  rw [norm] at hir
  refine (OnlineOp.mul_spec _ _).bind fun re hre => ?_
  refine (OnlineOp.mul_spec _ _).bind fun im him => ?_
  refine ⟨hir.1, ?_, hre.2, him.2⟩
  have conj : val ⟨re, im⟩ =
      ⟨Shared.val a.real * (normSq a)⁻¹, Shared.val a.imag * -(normSq a)⁻¹⟩ := by
    apply val_eq
    · rw [hre.1, hir.2.1]
    · rw [him.1, val_smul, hir.2.1, neg_one_mul]
  rw [conj]
  exact Gaussian.conj_mul (z := val a) hir.1

theorem div_spec (a b : Complex (Shared n F)) :
    Program.Meets A (fun c => normSq b ≠ 0 ∧ val c * val b = val a ∧ Authentic alphai c)
      (fun e => e = .division_by_zero ∧
        (normSq b = 0 ∨ ∃ m : Square alphai, A ⟨Site.square .inv, m⟩ ∧ Shared.val m.a = 0))
      (div a b : Online alphai _) := by
  refine (inv_spec b).bind fun c hc => (mul_spec c a).imp fun c' hc' => ?_
  refine ⟨hc.1, ?_, hc'.2⟩
  rw [hc'.1, mul_right_comm, hc.2.1, one_mul]

section Prime
variable {p : Nat} [Fact p.Prime]

omit [NeZero n] in
theorem normSq_eq_zero (mod : p % 4 = 3) (a : Complex (Shared n (ZMod p))) :
    normSq a = 0 ↔ val a = 0 := by
  have := Gaussian.irreducible_zmod mod
  exact Gaussian.norm_eq_zero (val a)

/-- The in-place forms read the old destination, here `a`, before they overwrite it. -/
theorem complex_operations (alphai : Fin n → ZMod p) (a b : Complex (Shared n (ZMod p)))
    (q : Complex (ZMod p)) :
    (val (add a b) = val a + val b ∧ val (addPlain alphai a q) = val a + clear q ∧
      val (addInplace a b) = val a + val b) ∧
    (val (sub a b) = val a - val b ∧ val (subPlain alphai a q) = val a - clear q ∧
      val (subInplace a b) = val a - val b) ∧
    (Returns (mul a b : Online alphai _) (fun c => val c = val a * val b) ∧
      val (mulPlain a q) = val a * clear q ∧
      Returns (mulInplace a b : Online alphai _) (fun c => val c = val a * val b)) ∧
    (Returns (sqr a : Online alphai _) (fun aa => val aa = val a * val a) ∧
      Returns (sqrInplace a : Online alphai _) (fun aa => val aa = val a * val a)) ∧
    (ReturnsUnless (normSq a = 0) (inv a : Online alphai _) (fun ia => val ia * val a = 1) ∧
      ReturnsUnless (normSq a = 0) (invInplace a : Online alphai _) (fun ia => val ia * val a = 1)) ∧
    (ReturnsUnless (normSq b = 0) (div a b : Online alphai _) (fun c => val c * val b = val a) ∧
      ReturnsUnless (normSq b = 0) (divInplace a b : Online alphai _)
        (fun c => val c * val b = val a)) ∧
    (p % 4 = 3 → (normSq a = 0 ↔ val a = 0)) := by
  have product : Returns (mul a b : Online alphai _) (fun c => val c = val a * val b) :=
    returns_of_meets ((mul_spec a b).imp fun _ h => h.1)
  have square : Returns (sqr a : Online alphai _) (fun aa => val aa = val a * val a) :=
    returns_of_meets ((sqr_spec a).imp fun _ h => h.1)
  have inverse : ReturnsUnless (normSq a = 0) (inv a : Online alphai _)
      (fun ia => val ia * val a = 1) := by
    apply returnsUnless_of_meets
    refine (inv_spec a).mono (fun _ h => h) (fun ia h => ⟨h.1, h.2.1⟩) fun e he => ⟨he.1, ?_⟩
    exact he.2.resolve_right no_zero_invMask
  have quotient : ReturnsUnless (normSq b = 0) (div a b : Online alphai _)
      (fun c => val c * val b = val a) := by
    apply returnsUnless_of_meets
    refine (div_spec a b).mono (fun _ h => h) (fun c h => ⟨h.1, h.2.1⟩) fun e he => ⟨he.1, ?_⟩
    exact he.2.resolve_right no_zero_invMask
  exact ⟨⟨add_val a b, addPlain_val a q, addInplace_val a b⟩,
    ⟨sub_val a b, subPlain_val a q, subInplace_val a b⟩,
    ⟨product, mulPlain_val a q, product⟩, ⟨square, square⟩, ⟨inverse, inverse⟩,
    ⟨quotient, quotient⟩, fun mod => normSq_eq_zero mod a⟩

end Prime

theorem complex_operations_small :
    let alphai : Fin 2 → ZMod 3 := ![1, 2]
    let a : Complex (Shared 2 (ZMod 3)) := ⟨constant alphai 1, constant alphai 1⟩
    ∃ ia, ((inv a : Online alphai _).run (plainTape alphai)).result = .ok ia ∧
      val ia * val a = 1 := by
  intro alphai a
  have nonzero : normSq a ≠ 0 := by
    simp only [normSq, a, val_constant]
    decide
  exact ((complex_operations alphai a a ⟨0, 0⟩).2.2.2.2.1.1 (plainTape alphai)
    (plainTape_invMasksNonzero alphai _)).2 nonzero

end Complex

end ProofOfCustody.OnlineOp
