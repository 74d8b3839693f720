import Mathlib

/-!
# The quadratic extension by a square root of `-1`

The ring is a field exactly when the base field has no such root, which for a prime field is the
case `p = 3 mod 4`.
-/

namespace ProofOfCustody.Curve

abbrev Gaussian (F : Type) [Ring F] := QuadraticAlgebra F (-1) 0

namespace Gaussian
variable {F : Type} [Field F]

theorem norm_eq (z : Gaussian F) : z.norm = z.re * z.re + z.im * z.im := by
  rw [QuadraticAlgebra.norm_def]
  ring

theorem conj_mul {z : Gaussian F} (unit : z.re * z.re + z.im * z.im ≠ 0) :
    (⟨z.re * (z.re * z.re + z.im * z.im)⁻¹, z.im * -(z.re * z.re + z.im * z.im)⁻¹⟩ : Gaussian F) * z =
      1 := by
  ext
  · rw [QuadraticAlgebra.re_mul, QuadraticAlgebra.re_one]
    exact Eq.trans (by ring) (inv_mul_cancel₀ unit)
  · rw [QuadraticAlgebra.im_mul, QuadraticAlgebra.im_one]
    ring

section Nonresidue

variable (F) in
abbrev Irreducible := Fact (∀ r : F, r ^ 2 ≠ -1 + 0 * r)

theorem irreducible_of_not_square (nonresidue : ¬IsSquare (-1 : F)) : Irreducible F := by
  refine ⟨fun r root => nonresidue ⟨r, ?_⟩⟩
  rw [zero_mul, add_zero, pow_two] at root
  exact root.symm

theorem irreducible_zmod {p : Nat} [Fact p.Prime] (mod : p % 4 = 3) : Irreducible (ZMod p) := by
  apply irreducible_of_not_square
  rw [ZMod.exists_sq_eq_neg_one_iff]
  exact fun other => other mod

theorem norm_eq_zero [Irreducible F] (z : Gaussian F) :
    z.re * z.re + z.im * z.im = 0 ↔ z = 0 := by
  rw [← norm_eq]
  exact QuadraticAlgebra.norm_eq_zero_iff_eq_zero

end Nonresidue

end Gaussian

end ProofOfCustody.Curve
