import Mathlib
import ProofOfCustody.Group.Ops
import ProofOfCustody.OnlineOp.ComplexSpec

/-!
# What the point additions compute

Any coordinate operations that compute in a field `K` make the additions compute the chord
formulas over `K`.
-/

namespace ProofOfCustody.GroupOp
open Effect Spdz Shared Curve OnlineOp

variable {n : Nat} {F : Type} [Field F] {alphai : Fin n → F} {T C K : Type} [Field K]

structure Lawful (op : CoordinateOp alphai T C) (R : T → K → Prop) (clear : C → K) : Prop where
  addInplace : ∀ {a b x y}, R a x → R b y → R (op.addInplace a b) (x + y)
  add : ∀ {a b x y}, R a x → R b y → R (op.add a b) (x + y)
  sub : ∀ {a b x y}, R a x → R b y → R (op.sub a b) (x - y)
  subInplace : ∀ {a b x y}, R a x → R b y → R (op.subInplace a b) (x - y)
  subPlain : ∀ {a x} (b), R a x → R (op.subPlain a b) (x - clear b)
  mulPlain : ∀ {a x} (b), R a x → R (op.mulPlain a b) (x * clear b)
  mulClear : ∀ a b, clear (op.mulClear a b) = clear a * clear b
  mul : ∀ {A : Draw (spdz alphai) → Prop} {E : Err → Prop} {a b x y}, R a x → R b y →
    (op.mul a b).Meets A (fun c => R c (x * y)) E
  mulInplace : ∀ {A : Draw (spdz alphai) → Prop} {E : Err → Prop} {a b x y}, R a x → R b y →
    (op.mulInplace a b).Meets A (fun c => R c (x * y)) E
  sqr : ∀ {A : Draw (spdz alphai) → Prop} {E : Err → Prop} {a x}, R a x →
    (op.sqr a).Meets A (fun c => R c (x * x)) E
  divInplace : ∀ {a b x y}, R a x → R b y →
    (op.divInplace a b).Meets NonzeroInvMask (fun c => y ≠ 0 ∧ R c (x / y))
      (fun e => e = .division_by_zero ∧ y = 0)

section Instances
variable [NeZero n] [DecidableEq F]

theorem G1Op_lawful : Lawful (G1Op alphai) (fun a x => val a = x) id where
  addInplace := by
    rintro a b _ _ rfl rfl
    exact map_add _ _ _
  add := by
    rintro a b _ _ rfl rfl
    exact map_add _ _ _
  sub := by
    rintro a b _ _ rfl rfl
    exact map_sub _ _ _
  subInplace := by
    rintro a b _ _ rfl rfl
    exact map_sub _ _ _
  subPlain := by
    rintro a _ b rfl
    exact (map_sub _ _ _).trans (congrArg _ (val_constant alphai b))
  mulPlain := by
    rintro a _ b rfl
    exact (val_smul _ _).trans (mul_comm _ _)
  mulClear _ _ := rfl
  mul := by
    rintro A E a b _ _ rfl rfl
    exact (mul_spec a b).imp fun _ h => h.1
  mulInplace := by
    rintro A E a b _ _ rfl rfl
    exact (mulInplace_spec a b).imp fun _ h => h.1
  sqr := by
    rintro A E a _ rfl
    exact (sqr_spec a).imp fun _ h => h.1
  divInplace := by
    rintro a b _ _ rfl rfl
    refine (div_spec a b).mono (fun _ h => h) (fun c h => ⟨h.1, ?_⟩) fun e h => ⟨h.1, ?_⟩
    · rw [h.2.1, div_eq_mul_inv]
    · exact h.2.resolve_right no_zero_invMask

theorem G2Op_lawful [Gaussian.Irreducible F] :
    Lawful (G2Op alphai) (fun a x => Complex.val a = x) Complex.clear where
  addInplace := by
    rintro a b _ _ rfl rfl
    exact Complex.add_val a b
  add := by
    rintro a b _ _ rfl rfl
    exact Complex.add_val a b
  sub := by
    rintro a b _ _ rfl rfl
    exact Complex.sub_val a b
  subInplace := by
    rintro a b _ _ rfl rfl
    exact Complex.sub_val a b
  subPlain := by
    rintro a _ b rfl
    exact Complex.subPlain_val a b
  mulPlain := by
    rintro a _ b rfl
    exact Complex.mulPlain_val a b
  mulClear := Complex.mulComplexPlain_clear
  mul := by
    rintro A E a b _ _ rfl rfl
    exact (Complex.mul_spec a b).imp fun _ h => h.1
  mulInplace := by
    rintro A E a b _ _ rfl rfl
    exact (Complex.mul_spec a b).imp fun _ h => h.1
  sqr := by
    rintro A E a _ rfl
    exact (Complex.sqr_spec a).imp fun _ h => h.1
  divInplace := by
    rintro a b _ _ rfl rfl
    refine (Complex.div_spec a b).mono (fun _ h => h) (fun c h => ?_) fun e h => ⟨h.1, ?_⟩
    · have nonzero : Complex.val b ≠ 0 := fun zero => h.1 ((Gaussian.norm_eq_zero _).2 zero)
      exact ⟨nonzero, eq_div_of_mul_eq nonzero h.2.1⟩
    · exact (Gaussian.norm_eq_zero _).1 (h.2.resolve_right no_zero_invMask)

end Instances

def HoldsAff (R : T → K → Prop) (a : Affine T) (P : Affine K) : Prop := R a.x P.x ∧ R a.y P.y

def HoldsHom (R : T → K → Prop) (a : Homogeneous T) (P : Homogeneous K) : Prop :=
  R a.X P.X ∧ R a.Y P.Y ∧ R a.Z P.Z

variable {op : CoordinateOp alphai T C} {R : T → K → Prop} {clear : C → K}

section Affine
variable {a b : Affine T} {P Q : Affine K}

theorem holdsAff_chord {x y : T}
    (hx : R x ((P.y - Q.y) / (P.x - Q.x) * ((P.y - Q.y) / (P.x - Q.x)) - P.x - Q.x))
    (hy : R y ((P.x - ((P.y - Q.y) / (P.x - Q.x) * ((P.y - Q.y) / (P.x - Q.x)) - P.x - Q.x)) *
      ((P.y - Q.y) / (P.x - Q.x)) - P.y)) : HoldsAff R ⟨x, y⟩ (P.chord Q) := by
  unfold HoldsAff Affine.chord
  constructor
  · convert hx using 1
    ring
  · convert hy using 1
    ring

theorem Lawful.addAff_spec (L : Lawful op R clear) (ha : HoldsAff R a P) (hb : HoldsAff R b Q) :
    (op.addAff a b).Meets NonzeroInvMask (fun c => P.x ≠ Q.x ∧ HoldsAff R c (P.chord Q))
      (fun e => e = .division_by_zero ∧ P.x = Q.x) := by
  refine ((L.divInplace (L.sub ha.2 hb.2) (L.sub ha.1 hb.1)).mono (fun _ h => h) (fun _ h => h)
    fun e he => ⟨he.1, sub_eq_zero.1 he.2⟩).bind fun m hm => ?_
  refine (L.sqr hm.2).bind fun mm hmm => ?_
  have hx := L.sub (L.subInplace hmm ha.1) hb.1
  refine (L.mulInplace (L.sub ha.1 hx) hm.2).bind fun y hy => ?_
  exact ⟨sub_ne_zero.1 hm.1, holdsAff_chord hx (L.subInplace hy ha.2)⟩

theorem Lawful.addPlainAff_spec (L : Lawful op R clear) (ha : HoldsAff R a P) (b : Affine C) :
    (op.addPlainAff a b).Meets NonzeroInvMask
      (fun c => P.x ≠ clear b.x ∧ HoldsAff R c (P.chord (b.map clear)))
      (fun e => e = .division_by_zero ∧ P.x = clear b.x) := by
  refine ((L.divInplace (L.subPlain b.y ha.2) (L.subPlain b.x ha.1)).mono (fun _ h => h)
    (fun _ h => h) fun e he => ⟨he.1, sub_eq_zero.1 he.2⟩).bind fun m hm => ?_
  refine (L.sqr hm.2).bind fun mm hmm => ?_
  have hx := L.subPlain b.x (L.subInplace hmm ha.1)
  refine (L.mulInplace (L.sub ha.1 hx) hm.2).bind fun y hy => ?_
  exact ⟨sub_ne_zero.1 hm.1, holdsAff_chord hx (L.subInplace hy ha.2)⟩

end Affine

section Homogeneous
variable {a b : Homogeneous T} {P Q : Homogeneous K}
  {A : Draw (spdz alphai) → Prop} {E : Err → Prop}

theorem Lawful.finishJac_spec (L : Lawful op R clear) {S1 S2 U1 U2 : T} {mulZ : Online alphai T}
    (hS1 : R S1 (P.Y * Q.Z ^ 3)) (hS2 : R S2 (Q.Y * P.Z ^ 3)) (hU1 : R U1 (P.X * Q.Z ^ 2))
    (hU2 : R U2 (Q.X * P.Z ^ 2))
    (hZ : mulZ.Meets A (fun z => R z (P.Z * Q.Z)) E) :
    (op.finishJac S1 S2 U1 U2 mulZ).Meets A
      (fun c => HoldsHom R c (Jacobian.chord P Q)) E := by
  have hR := L.sub hS1 hS2
  have hH := L.sub hU1 hU2
  refine (L.sqr hH).bind fun V hV => ?_
  refine (L.mul hV hH).bind fun G hG => ?_
  refine (L.mulInplace hV hU1).bind fun V hV => ?_
  refine hZ.bind fun Z hZ => ?_
  refine (L.mulInplace hZ hH).bind fun Z hZ => ?_
  refine (L.sqr hR).bind fun R2 hR2 => ?_
  have hX := L.subInplace (L.subInplace (L.add hR2 hG) hV) hV
  refine (L.mul hS1 hG).bind fun tmp htmp => ?_
  refine (L.mulInplace (L.sub hV hX) hR).bind fun Y hY => ?_
  have hY := L.subInplace hY htmp
  unfold Jacobian.chord
  refine ⟨?_, ?_, hZ⟩
  · convert hX using 1
    ring
  · convert hY using 1
    ring

theorem Lawful.addJac_spec (L : Lawful op R clear) (ha : HoldsHom R a P) (hb : HoldsHom R b Q) :
    (op.addJac a b).Meets A (fun c => HoldsHom R c (Jacobian.chord P Q)) E := by
  obtain ⟨haX, haY, haZ⟩ := ha
  obtain ⟨hbX, hbY, hbZ⟩ := hb
  refine (L.sqr haZ).bind fun S2 hS2 => ?_
  refine (L.sqr hbZ).bind fun S1 hS1 => ?_
  refine (L.mul hbX hS2).bind fun U2 hU2 => ?_
  refine (L.mul haX hS1).bind fun U1 hU1 => ?_
  refine (L.mulInplace hS2 hbY).bind fun S2 hS2 => ?_
  refine (L.mulInplace hS2 haZ).bind fun S2 hS2 => ?_
  refine (L.mulInplace hS1 haY).bind fun S1 hS1 => ?_
  refine (L.mulInplace hS1 hbZ).bind fun S1 hS1 => ?_
  apply L.finishJac_spec
  · convert hS1 using 1
    ring
  · convert hS2 using 1
    ring
  · convert hU1 using 1
    ring
  · convert hU2 using 1
    ring
  · exact L.mul haZ hbZ

theorem Lawful.addPlainJac_spec (L : Lawful op R clear) (ha : HoldsHom R a P)
    (b : Homogeneous C) :
    (op.addPlainJac a b).Meets A
      (fun c => HoldsHom R c (Jacobian.chord P (b.map clear))) E := by
  obtain ⟨haX, haY, haZ⟩ := ha
  refine (L.sqr haZ).bind fun S2 hS2 => ?_
  have hU2 := L.mulPlain b.X hS2
  have hU1 := L.mulPlain (op.mulClear b.Z b.Z) haX
  refine (L.mul (L.mulPlain b.Y hS2) haZ).bind fun S2 hS2 => ?_
  have hS1 := L.mulPlain (op.mulClear (op.mulClear b.Z b.Z) b.Z) haY
  simp only [L.mulClear] at hU1 hS1
  apply L.finishJac_spec
  · convert hS1 using 1
    simp only [Homogeneous.map]
    ring
  · convert hS2 using 1
    simp only [Homogeneous.map]
    ring
  · convert hU1 using 1
    simp only [Homogeneous.map]
    ring
  · convert hU2 using 1
    simp only [Homogeneous.map]
    ring
  · exact L.mulPlain b.Z haZ

theorem Lawful.finishProj_spec (L : Lawful op R clear) {S1 S2 U1 U2 : T} {mulZ : Online alphai T}
    (hS1 : R S1 (P.Y * Q.Z)) (hS2 : R S2 (Q.Y * P.Z)) (hU1 : R U1 (P.X * Q.Z))
    (hU2 : R U2 (Q.X * P.Z)) (hZ : mulZ.Meets A (fun z => R z (P.Z * Q.Z)) E) :
    (op.finishProj S1 S2 U1 U2 mulZ).Meets A
      (fun c => HoldsHom R c (Projective.chord P Q)) E := by
  have hR := L.sub hS1 hS2
  have hH := L.sub hU1 hU2
  refine hZ.bind fun T_ hT => ?_
  refine (L.sqr hH).bind fun H2 hH2 => ?_
  refine (L.mul hU1 hH2).bind fun V hV => ?_
  refine (L.mul hH2 hH).bind fun G hG => ?_
  refine (L.sqr hR).bind fun R2 hR2 => ?_
  refine (L.mul hR2 hT).bind fun W hW => ?_
  have hW := L.subInplace (L.subInplace (L.addInplace hW hG) hV) hV
  refine (L.mul hT hG).bind fun Z hZ => ?_
  refine (L.mul hS1 hG).bind fun tmp htmp => ?_
  refine (L.mulInplace (L.sub hV hW) hR).bind fun Y hY => ?_
  have hY := L.subInplace hY htmp
  refine (L.mul hH hW).bind fun X hX => ?_
  unfold Projective.chord
  refine ⟨?_, ?_, ?_⟩
  · convert hX using 1
    ring
  · convert hY using 1
    ring
  · convert hZ using 1
    ring

theorem Lawful.addProj_spec (L : Lawful op R clear) (ha : HoldsHom R a P) (hb : HoldsHom R b Q) :
    (op.addProj a b).Meets A (fun c => HoldsHom R c (Projective.chord P Q)) E := by
  obtain ⟨haX, haY, haZ⟩ := ha
  obtain ⟨hbX, hbY, hbZ⟩ := hb
  refine (L.mul hbY haZ).bind fun S2 hS2 => ?_
  refine (L.mul haY hbZ).bind fun S1 hS1 => ?_
  refine (L.mul hbX haZ).bind fun U2 hU2 => ?_
  refine (L.mul haX hbZ).bind fun U1 hU1 => ?_
  exact L.finishProj_spec hS1 hS2 hU1 hU2 (L.mul haZ hbZ)

theorem Lawful.addPlainProj_spec (L : Lawful op R clear) (ha : HoldsHom R a P)
    (b : Homogeneous C) :
    (op.addPlainProj a b).Meets A
      (fun c => HoldsHom R c (Projective.chord P (b.map clear))) E := by
  obtain ⟨haX, haY, haZ⟩ := ha
  apply L.finishProj_spec
  · exact L.mulPlain b.Z haY
  · exact (mul_comm (clear b.Y) P.Z) ▸ L.mulPlain b.Y haZ
  · exact L.mulPlain b.Z haX
  · exact (mul_comm (clear b.X) P.Z) ▸ L.mulPlain b.X haZ
  · exact L.mulPlain b.Z haZ

end Homogeneous

end ProofOfCustody.GroupOp
