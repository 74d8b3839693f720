import Mathlib

/-!
# Chord addition in affine, Jacobian and projective coordinates

The line through two points of `y² = x³ + b` meets the curve in a third point, the negative of
their sum. The Jacobian and the projective formulas compute the same point without a division; on
equal or infinite operands they collapse.
-/

namespace ProofOfCustody.Curve

@[ext]
structure Affine (T : Type) where
  x : T
  y : T
  deriving DecidableEq

@[ext]
structure Homogeneous (T : Type) where
  X : T
  Y : T
  Z : T
  deriving DecidableEq

def Affine.map {T K : Type} (f : T → K) (P : Affine T) : Affine K := ⟨f P.x, f P.y⟩

def Homogeneous.map {T K : Type} (f : T → K) (P : Homogeneous T) : Homogeneous K :=
  ⟨f P.X, f P.Y, f P.Z⟩

variable {K : Type} [Field K] {b : K}

abbrev short (b : K) : WeierstrassCurve.Affine K := ⟨0, 0, 0, 0, b⟩

namespace Affine

def OnCurve (b : K) (P : Affine K) : Prop := P.y ^ 2 = P.x ^ 3 + b

instance [DecidableEq K] (P : Affine K) : Decidable (P.OnCurve b) :=
  inferInstanceAs (Decidable (_ = _))

def chord (P Q : Affine K) : Affine K :=
  let m := (P.y - Q.y) / (P.x - Q.x)
  let x := m ^ 2 - P.x - Q.x
  ⟨x, m * (P.x - x) - P.y⟩

theorem onCurve_iff (P : Affine K) : P.OnCurve b ↔ (short b).Equation P.x P.y := by
  rw [WeierstrassCurve.Affine.equation_iff, OnCurve]
  simp

theorem nonsingular {P : Affine K} (on : P.OnCurve b) (two : (2 : K) ≠ 0) (three : (3 : K) ≠ 0)
    (smooth : b ≠ 0) : (short b).Nonsingular P.x P.y := by
  rw [WeierstrassCurve.Affine.nonsingular_iff']
  refine ⟨(onCurve_iff P).1 on, ?_⟩
  by_contra flat
  simp only [zero_mul, mul_zero, add_zero, zero_sub, neg_ne_zero, not_or, not_not] at flat
  have x : P.x = 0 := by simpa [three] using flat.1
  have y : P.y = 0 := by simpa [two] using flat.2
  apply smooth
  simpa [OnCurve, x, y] using on.symm

variable [DecidableEq K] {P Q : Affine K}

theorem chord_eq (apart : P.x ≠ Q.x) :
    P.chord Q = ⟨(short b).addX P.x Q.x ((short b).slope P.x Q.x P.y Q.y),
      (short b).addY P.x Q.x P.y ((short b).slope P.x Q.x P.y Q.y)⟩ := by
  rw [WeierstrassCurve.Affine.slope_of_X_ne apart]
  unfold chord WeierstrassCurve.Affine.addY WeierstrassCurve.Affine.negAddY
    WeierstrassCurve.Affine.addX WeierstrassCurve.Affine.negY
  ext
  · simp
  · simp only
    ring

theorem chord_onCurve (apart : P.x ≠ Q.x) (hP : P.OnCurve b) (hQ : Q.OnCurve b) :
    (P.chord Q).OnCurve b := by
  rw [onCurve_iff] at *
  rw [chord_eq (b := b) apart]
  exact WeierstrassCurve.Affine.equation_add hP hQ fun same => apart same.1

theorem chord_add (apart : P.x ≠ Q.x) (hP : (short b).Nonsingular P.x P.y)
    (hQ : (short b).Nonsingular Q.x Q.y) :
    ∃ h : (short b).Nonsingular (P.chord Q).x (P.chord Q).y,
      WeierstrassCurve.Affine.Point.some P.x P.y hP + .some Q.x Q.y hQ =
        .some (P.chord Q).x (P.chord Q).y h := by
  rw [chord_eq (b := b) apart]
  exact ⟨_, WeierstrassCurve.Affine.Point.add_of_X_ne apart⟩

omit [DecidableEq K] in
theorem slope_mul {P Q : Affine K} (apart : P.x ≠ Q.x) :
    P.y = Q.y + (P.y - Q.y) / (P.x - Q.x) * (P.x - Q.x) := by
  rw [div_mul_cancel₀ _ (sub_ne_zero.2 apart)]
  ring

end Affine

namespace Homogeneous

/-- Every triple with `Z = 0` stands for the point at infinity, except the one that is all zero. -/
def Represents (normalize : Homogeneous K → Affine K) (S : Homogeneous K) :
    (short b).Point → Prop
  | .zero => S.Z = 0 ∧ S ≠ ⟨0, 0, 0⟩
  | .some x y _ => S.Z ≠ 0 ∧ normalize S = ⟨x, y⟩

theorem not_represents_zero (normalize : Homogeneous K → Affine K) (P : (short b).Point) :
    ¬(⟨0, 0, 0⟩ : Homogeneous K).Represents normalize P := by
  intro represents
  cases P with
  | zero => exact represents.2 rfl
  | some x y h => exact represents.1 rfl

structure ChordSystem (normalize : Homogeneous K → Affine K)
    (chord : Homogeneous K → Homogeneous K → Homogeneous K) : Prop where
  apart : ∀ S T, S.Z ≠ 0 → T.Z ≠ 0 → (normalize S).x ≠ (normalize T).x →
    (chord S T).Z ≠ 0 ∧ normalize (chord S T) = (normalize S).chord (normalize T)
  vertical : ∀ S T, S.Z ≠ 0 → T.Z ≠ 0 → (normalize S).x = (normalize T).x →
    (chord S T).Z = 0 ∧ (chord S T = ⟨0, 0, 0⟩ ↔ (normalize S).y = (normalize T).y)
  infinite : ∀ S T, S.Z = 0 ∨ T.Z = 0 → (chord S T).Z = 0
  both_infinite : ∀ S T, S.Z = 0 → T.Z = 0 → chord S T = ⟨0, 0, 0⟩

section
variable {normalize : Homogeneous K → Affine K}
  {chord : Homogeneous K → Homogeneous K → Homogeneous K} {S T : Homogeneous K}
  {P Q : (short b).Point}

theorem chord_self (system : ChordSystem normalize chord) (hS : S.Represents normalize P)
    (hT : T.Represents normalize P) : chord S T = ⟨0, 0, 0⟩ := by
  cases P with
  | zero => exact system.both_infinite S T hS.1 hT.1
  | some x y h =>
    have vertical := system.vertical S T hS.1 hT.1 (by rw [hS.2, hT.2])
    exact vertical.2.2 (by rw [hS.2, hT.2])

variable [DecidableEq K]

theorem chord_represents (system : ChordSystem normalize chord) (hS : S.Represents normalize P)
    (hT : T.Represents normalize Q) (hP : P ≠ 0) (hQ : Q ≠ 0) (different : P ≠ Q) :
    (chord S T).Represents normalize (P + Q) := by
  cases P with
  | zero => exact absurd rfl hP
  | some x y h =>
    cases Q with
    | zero => exact absurd rfl hQ
    | some x' y' h' =>
      obtain ⟨finite, sameS⟩ := hS
      obtain ⟨finite', sameT⟩ := hT
      by_cases same : x = x'
      · subst same
        have apart : y ≠ y' := by
          rintro rfl
          exact different rfl
        have opposite := (WeierstrassCurve.Affine.Y_eq_of_X_eq h.1 h'.1 rfl).resolve_left apart
        have vertical := system.vertical S T finite finite' (by rw [sameS, sameT])
        rw [WeierstrassCurve.Affine.Point.add_of_Y_eq rfl opposite]
        refine ⟨vertical.1, fun zero => apart ?_⟩
        simpa [sameS, sameT] using vertical.2.1 zero
      · obtain ⟨sum, added⟩ := Affine.chord_add (P := ⟨x, y⟩) (Q := ⟨x', y'⟩) same h h'
        have apart := system.apart S T finite finite' (by rwa [sameS, sameT])
        rw [added]
        refine ⟨apart.1, ?_⟩
        rw [apart.2, sameS, sameT]

theorem chord_collapses (system : ChordSystem normalize chord) (hS : S.Represents normalize P)
    (hT : T.Represents normalize Q) (exceptional : P = 0 ∨ Q = 0 ∨ P = Q) :
    (chord S T).Z = 0 ∧ ¬(chord S T).Represents normalize (P + Q) := by
  by_cases same : P = Q
  · subst same
    rw [chord_self system hS hT]
    exact ⟨rfl, not_represents_zero normalize _⟩
  · cases P with
    | zero =>
      have zero := system.infinite S T (.inl hS.1)
      cases Q with
      | zero => exact absurd rfl same
      | some x' y' h' => exact ⟨zero, fun represents => represents.1 zero⟩
    | some x y h =>
      cases Q with
      | zero =>
        have zero := system.infinite S T (.inr hT.1)
        exact ⟨zero, fun represents => represents.1 zero⟩
      | some x' y' h' => exact absurd ((exceptional.resolve_left nofun).resolve_left nofun) same

end

end Homogeneous

namespace Jacobian

def normalize (P : Homogeneous K) : Affine K := ⟨P.X / P.Z ^ 2, P.Y / P.Z ^ 3⟩

def lift (z : K) (P : Affine K) : Homogeneous K := ⟨P.x * z ^ 2, P.y * z ^ 3, z⟩

def chord (P Q : Homogeneous K) : Homogeneous K :=
  let U1 := P.X * Q.Z ^ 2
  let U2 := Q.X * P.Z ^ 2
  let S1 := P.Y * Q.Z ^ 3
  let S2 := Q.Y * P.Z ^ 3
  let R := S1 - S2
  let H := U1 - U2
  let V := U1 * H ^ 2
  let X := R ^ 2 + H ^ 3 - V - V
  ⟨X, R * (V - X) - S1 * H ^ 3, P.Z * Q.Z * H⟩

theorem normalize_lift {z : K} (finite : z ≠ 0) (P : Affine K) : normalize (lift z P) = P := by
  unfold lift normalize
  ext
  · exact mul_div_cancel_right₀ _ (pow_ne_zero 2 finite)
  · exact mul_div_cancel_right₀ _ (pow_ne_zero 3 finite)

theorem lift_normalize {P : Homogeneous K} (finite : P.Z ≠ 0) : lift P.Z (normalize P) = P := by
  unfold lift normalize
  ext
  · exact div_mul_cancel₀ _ (pow_ne_zero 2 finite)
  · exact div_mul_cancel₀ _ (pow_ne_zero 3 finite)
  · rfl

theorem chord_lift (z w : K) {P Q : Affine K} (apart : P.x ≠ Q.x) :
    chord (lift z P) (lift w Q) = lift ((z * w) ^ 3 * (P.x - Q.x)) (P.chord Q) := by
  obtain ⟨x, y⟩ := P
  have line := Affine.slope_mul apart
  unfold lift chord Affine.chord
  simp only at line ⊢
  generalize (y - Q.y) / (x - Q.x) = m at line ⊢
  subst line
  ext <;> simp only <;> ring

theorem chord_vertical (z w : K) {P Q : Affine K} (same : P.x = Q.x) :
    chord (lift z P) (lift w Q) =
      ⟨((z * w) ^ 3 * (P.y - Q.y)) ^ 2, -((z * w) ^ 3 * (P.y - Q.y)) ^ 3, 0⟩ := by
  unfold lift chord
  simp only [same]
  ext <;> simp only <;> ring

theorem chord_infinite_left {P Q : Homogeneous K} (infinite : P.Z = 0) :
    chord P Q = ⟨(P.Y ^ 2 - P.X ^ 3) * Q.Z ^ 6, -(P.Y * (P.Y ^ 2 - P.X ^ 3) * Q.Z ^ 9), 0⟩ := by
  unfold chord
  simp only [infinite]
  ext <;> simp only <;> ring

theorem chord_infinite_right {P Q : Homogeneous K} (infinite : Q.Z = 0) :
    chord P Q = ⟨(Q.Y ^ 2 - Q.X ^ 3) * P.Z ^ 6, Q.Y * (Q.Y ^ 2 - Q.X ^ 3) * P.Z ^ 9, 0⟩ := by
  unfold chord
  simp only [infinite]
  ext <;> simp only <;> ring

theorem system : Homogeneous.ChordSystem (K := K) normalize chord where
  apart S T finite finite' apart := by
    have lifted : (S.Z * T.Z) ^ 3 * ((normalize S).x - (normalize T).x) ≠ 0 :=
      mul_ne_zero (pow_ne_zero 3 (mul_ne_zero finite finite')) (sub_ne_zero.2 apart)
    have line := chord_lift S.Z T.Z apart
    rw [lift_normalize finite, lift_normalize finite'] at line
    rw [line]
    exact ⟨lifted, normalize_lift lifted _⟩
  vertical S T finite finite' same := by
    have nonzero : (S.Z * T.Z) ^ 3 ≠ 0 := pow_ne_zero 3 (mul_ne_zero finite finite')
    have line := chord_vertical S.Z T.Z same
    rw [lift_normalize finite, lift_normalize finite'] at line
    rw [line]
    refine ⟨rfl, ?_⟩
    simp [Homogeneous.ext_iff, nonzero, sub_eq_zero]
  infinite S T infinite := by
    rcases infinite with left | right
    · rw [chord_infinite_left left]
    · rw [chord_infinite_right right]
  both_infinite S T left right := by
    rw [chord_infinite_left left, right]
    simp

theorem chord_identity {I : Homogeneous K} (identity : I.Z = 0) (on : I.Y ^ 2 = I.X ^ 3)
    (P : Homogeneous K) : chord I P = ⟨0, 0, 0⟩ ∧ chord P I = ⟨0, 0, 0⟩ := by
  rw [chord_infinite_left identity, chord_infinite_right identity, on]
  simp

end Jacobian

namespace Projective

def normalize (P : Homogeneous K) : Affine K := ⟨P.X / P.Z, P.Y / P.Z⟩

def lift (z : K) (P : Affine K) : Homogeneous K := ⟨P.x * z, P.y * z, z⟩

def chord (P Q : Homogeneous K) : Homogeneous K :=
  let U1 := P.X * Q.Z
  let U2 := Q.X * P.Z
  let S1 := P.Y * Q.Z
  let S2 := Q.Y * P.Z
  let R := S1 - S2
  let H := U1 - U2
  let T := P.Z * Q.Z
  let V := U1 * H ^ 2
  let W := R ^ 2 * T + H ^ 3 - V - V
  ⟨H * W, R * (V - W) - S1 * H ^ 3, T * H ^ 3⟩

theorem normalize_lift {z : K} (finite : z ≠ 0) (P : Affine K) : normalize (lift z P) = P := by
  unfold lift normalize
  ext
  · exact mul_div_cancel_right₀ _ finite
  · exact mul_div_cancel_right₀ _ finite

theorem lift_normalize {P : Homogeneous K} (finite : P.Z ≠ 0) : lift P.Z (normalize P) = P := by
  unfold lift normalize
  ext
  · exact div_mul_cancel₀ _ finite
  · exact div_mul_cancel₀ _ finite
  · rfl

theorem chord_lift (z w : K) {P Q : Affine K} (apart : P.x ≠ Q.x) :
    chord (lift z P) (lift w Q) = lift ((z * w) ^ 4 * (P.x - Q.x) ^ 3) (P.chord Q) := by
  obtain ⟨x, y⟩ := P
  have line := Affine.slope_mul apart
  unfold lift chord Affine.chord
  simp only at line ⊢
  generalize (y - Q.y) / (x - Q.x) = m at line ⊢
  subst line
  ext <;> simp only <;> ring

theorem chord_vertical (z w : K) {P Q : Affine K} (same : P.x = Q.x) :
    chord (lift z P) (lift w Q) = ⟨0, -((z * w) ^ 4 * (P.y - Q.y) ^ 3), 0⟩ := by
  unfold lift chord
  simp only [same]
  ext <;> simp only <;> ring

theorem chord_infinite_left {P Q : Homogeneous K} (infinite : P.Z = 0) :
    chord P Q = ⟨-(P.X * Q.Z) ^ 4, P.Y * P.X ^ 3 * Q.Z ^ 4, 0⟩ := by
  unfold chord
  simp only [infinite]
  ext <;> simp only <;> ring

theorem chord_infinite_right {P Q : Homogeneous K} (infinite : Q.Z = 0) :
    chord P Q = ⟨(Q.X * P.Z) ^ 4, -(Q.Y * Q.X ^ 3 * P.Z ^ 4), 0⟩ := by
  unfold chord
  simp only [infinite]
  ext <;> simp only <;> ring

theorem system : Homogeneous.ChordSystem (K := K) normalize chord where
  apart S T finite finite' apart := by
    have lifted : (S.Z * T.Z) ^ 4 * ((normalize S).x - (normalize T).x) ^ 3 ≠ 0 :=
      mul_ne_zero (pow_ne_zero 4 (mul_ne_zero finite finite'))
        (pow_ne_zero 3 (sub_ne_zero.2 apart))
    have line := chord_lift S.Z T.Z apart
    rw [lift_normalize finite, lift_normalize finite'] at line
    rw [line]
    exact ⟨lifted, normalize_lift lifted _⟩
  vertical S T finite finite' same := by
    have line := chord_vertical S.Z T.Z same
    rw [lift_normalize finite, lift_normalize finite'] at line
    rw [line]
    refine ⟨rfl, ?_⟩
    simp [Homogeneous.ext_iff, finite, finite', sub_eq_zero]
  infinite S T infinite := by
    rcases infinite with left | right
    · rw [chord_infinite_left left]
    · rw [chord_infinite_right right]
  both_infinite S T left right := by
    rw [chord_infinite_left left, right]
    simp

theorem chord_identity {I : Homogeneous K} (identity : I.Z = 0) (on : I.X = 0)
    (P : Homogeneous K) : chord I P = ⟨0, 0, 0⟩ ∧ chord P I = ⟨0, 0, 0⟩ := by
  rw [chord_infinite_left identity, chord_infinite_right identity, on]
  simp

end Projective

end ProofOfCustody.Curve
