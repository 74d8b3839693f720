import Mathlib
import ProofOfCustody.Group.OpsSpec

/-!
# Point addition in the three coordinate systems

The affine addition refuses two points with one `x`-coordinate and is the group law elsewhere. The
division-free additions agree with it there, and lose the sum where it refuses or an operand is
infinite, except for opposite points.
-/

namespace ProofOfCustody.GroupOp
open Effect Spdz Shared Curve OnlineOp

variable {n : Nat} {F : Type} [Field F] {alphai : Fin n → F} {T C K : Type} [Field K]

section Holds
omit [Field K]
variable {val : T → K}

theorem holdsAff_iff {a : Affine T} {P : Affine K} :
    HoldsAff (fun t k => val t = k) a P ↔ a.map val = P := by
  rw [Affine.ext_iff]
  rfl

theorem holdsHom_iff {a : Homogeneous T} {P : Homogeneous K} :
    HoldsHom (fun t k => val t = k) a P ↔ a.map val = P := by
  rw [Homogeneous.ext_iff]
  rfl

end Holds

section Statements
variable [DecidableEq K] (op : CoordinateOp alphai T C) (val : T → K) (clear : C → K)

/-- All four affine additions throw on equal `x`-coordinates and return the group sum elsewhere. -/
def AffineAddition : Prop :=
  ∀ (b : K) (P Q : Affine K), P.OnCurve b → Q.OnCurve b →
  ∀ (a₁ a₂ : Affine T) (q : Affine C), a₁.map val = P → a₂.map val = Q → q.map clear = Q →
  ∀ p ∈ [op.addAff a₁ a₂, op.addAffInplace a₁ a₂, op.addPlainAff a₁ q, op.addPlainAffInplace a₁ q],
    ReturnsUnless (P.x = Q.x) p fun c => c.map val = P.chord Q ∧ (P.chord Q).OnCurve b ∧
      ∀ (hP : (short b).Nonsingular P.x P.y) (hQ : (short b).Nonsingular Q.x Q.y),
        ∃ h : (short b).Nonsingular (P.chord Q).x (P.chord Q).y,
          WeierstrassCurve.Affine.Point.some P.x P.y hP + .some Q.x Q.y hQ =
            .some (P.chord Q).x (P.chord Q).y h

/-- A division-free addition of finite points: right where `add_aff` returns, `Z = 0` where it
throws. -/
def AgreesWithAffine (normalize : Homogeneous K → Affine K)
    (add : Homogeneous T → Homogeneous T → Online alphai (Homogeneous T))
    (addPlain : Homogeneous T → Homogeneous C → Online alphai (Homogeneous T)) : Prop :=
  ∀ (P Q : Affine K) (a₁ a₂ : Homogeneous T) (q : Homogeneous C),
    (a₁.map val).Z ≠ 0 → normalize (a₁.map val) = P →
    (a₂.map val).Z ≠ 0 → normalize (a₂.map val) = Q → q.map clear = a₂.map val →
  ∀ p ∈ [add a₁ a₂, addPlain a₁ q],
    Returns p fun c =>
      (P.x = Q.x → (c.map val).Z = 0) ∧
      (P.x ≠ Q.x → (c.map val).Z ≠ 0 ∧
        ∀ a₁' a₂' : Affine T, a₁'.map val = P → a₂'.map val = Q →
        ∀ t, InvMasksNonzero ((op.addAff a₁' a₂').run t) →
          ∃ c', ((op.addAff a₁' a₂').run t).result = .ok c' ∧
            normalize (c.map val) = c'.map val)

def CoordinatesAgree : Prop :=
  AgreesWithAffine op val clear Jacobian.normalize op.addJac op.addPlainJac ∧
  AgreesWithAffine op val clear Jacobian.normalize op.addJacInplace op.addPlainJacInplace ∧
  AgreesWithAffine op val clear Projective.normalize op.addProj op.addPlainProj ∧
  AgreesWithAffine op val clear Projective.normalize op.addProjInplace op.addPlainProjInplace

/-- A division-free addition of any two points: it represents the sum exactly for two different
finite points. On a doubling the result is the all-zero triple, and with an infinite operand it has
`Z = 0`; it is the all-zero triple if the operand's representative `I` is `onCurve`. -/
def AddsDifferentPoints (normalize : Homogeneous K → Affine K) (onCurve : Homogeneous K → Prop)
    (add : Homogeneous T → Homogeneous T → Online alphai (Homogeneous T))
    (addPlain : Homogeneous T → Homogeneous C → Online alphai (Homogeneous T)) : Prop :=
  ∀ (b : K) (P Q : (short b).Point) (a₁ a₂ : Homogeneous T) (q : Homogeneous C),
    (a₁.map val).Represents normalize P → (a₂.map val).Represents normalize Q →
    q.map clear = a₂.map val →
  ∀ p ∈ [add a₁ a₂, addPlain a₁ q],
    Returns p fun c =>
      ((c.map val).Represents normalize (P + Q) ↔ P ≠ 0 ∧ Q ≠ 0 ∧ P ≠ Q) ∧
      (P = Q → c.map val = ⟨0, 0, 0⟩) ∧
      (P = 0 ∨ Q = 0 → (c.map val).Z = 0) ∧
      (P = 0 ∧ onCurve (a₁.map val) ∨ Q = 0 ∧ onCurve (a₂.map val) → c.map val = ⟨0, 0, 0⟩)

def ExceptionalInputs : Prop :=
  AddsDifferentPoints val clear Jacobian.normalize (fun I => I.Y ^ 2 = I.X ^ 3)
    op.addJac op.addPlainJac ∧
  AddsDifferentPoints val clear Jacobian.normalize (fun I => I.Y ^ 2 = I.X ^ 3)
    op.addJacInplace op.addPlainJacInplace ∧
  AddsDifferentPoints val clear Projective.normalize (fun I => I.X = 0)
    op.addProj op.addPlainProj ∧
  AddsDifferentPoints val clear Projective.normalize (fun I => I.X = 0)
    op.addProjInplace op.addPlainProjInplace

end Statements

section Proofs
variable {op : CoordinateOp alphai T C} {val : T → K} {clear : C → K}

theorem Lawful.addAff_map (L : Lawful op (fun t k => val t = k) clear) (a₁ a₂ : Affine T) :
    (op.addAff a₁ a₂).Meets NonzeroInvMask
      (fun c => (a₁.map val).x ≠ (a₂.map val).x ∧ c.map val = (a₁.map val).chord (a₂.map val))
      (fun e => e = .division_by_zero ∧ (a₁.map val).x = (a₂.map val).x) :=
  (L.addAff_spec (holdsAff_iff.2 rfl) (holdsAff_iff.2 rfl)).imp fun _ h =>
    ⟨h.1, holdsAff_iff.1 h.2⟩

theorem Lawful.addPlainAff_map (L : Lawful op (fun t k => val t = k) clear) (a₁ : Affine T)
    (q : Affine C) :
    (op.addPlainAff a₁ q).Meets NonzeroInvMask
      (fun c => (a₁.map val).x ≠ (q.map clear).x ∧ c.map val = (a₁.map val).chord (q.map clear))
      (fun e => e = .division_by_zero ∧ (a₁.map val).x = (q.map clear).x) :=
  (L.addPlainAff_spec (holdsAff_iff.2 rfl) q).imp fun _ h => ⟨h.1, holdsAff_iff.1 h.2⟩

structure Computes (val : T → K) (clear : C → K)
    (chord : Homogeneous K → Homogeneous K → Homogeneous K)
    (add : Homogeneous T → Homogeneous T → Online alphai (Homogeneous T))
    (addPlain : Homogeneous T → Homogeneous C → Online alphai (Homogeneous T)) : Prop where
  shared : ∀ a₁ a₂, Returns (add a₁ a₂) fun c => c.map val = chord (a₁.map val) (a₂.map val)
  plain : ∀ a₁ q, Returns (addPlain a₁ q) fun c => c.map val = chord (a₁.map val) (q.map clear)

theorem Lawful.computesJac (L : Lawful op (fun t k => val t = k) clear) :
    Computes val clear Jacobian.chord op.addJac op.addPlainJac where
  shared _ _ := returns_of_meets
    ((L.addJac_spec (holdsHom_iff.2 rfl) (holdsHom_iff.2 rfl)).imp fun _ h => holdsHom_iff.1 h)
  plain _ q := returns_of_meets
    ((L.addPlainJac_spec (holdsHom_iff.2 rfl) q).imp fun _ h => holdsHom_iff.1 h)

theorem Lawful.computesProj (L : Lawful op (fun t k => val t = k) clear) :
    Computes val clear Projective.chord op.addProj op.addPlainProj where
  shared _ _ := returns_of_meets
    ((L.addProj_spec (holdsHom_iff.2 rfl) (holdsHom_iff.2 rfl)).imp fun _ h => holdsHom_iff.1 h)
  plain _ q := returns_of_meets
    ((L.addPlainProj_spec (holdsHom_iff.2 rfl) q).imp fun _ h => holdsHom_iff.1 h)

section Chord
variable {normalize : Homogeneous K → Affine K}
  {chord : Homogeneous K → Homogeneous K → Homogeneous K}
  {add : Homogeneous T → Homogeneous T → Online alphai (Homogeneous T)}
  {addPlain : Homogeneous T → Homogeneous C → Online alphai (Homogeneous T)}

omit [Field K] in
theorem Computes.returns (h : Computes val clear chord add addPlain) {a₁ a₂ : Homogeneous T}
    {q : Homogeneous C} (same : q.map clear = a₂.map val) {p : Online alphai (Homogeneous T)}
    (listed : p ∈ [add a₁ a₂, addPlain a₁ q]) :
    Returns p fun c => c.map val = chord (a₁.map val) (a₂.map val) := by
  simp only [List.mem_cons, List.not_mem_nil, or_false] at listed
  rcases listed with rfl | rfl
  · exact h.shared a₁ a₂
  · exact same ▸ h.plain a₁ q

theorem Computes.agreesWithAffine (h : Computes val clear chord add addPlain)
    (system : Homogeneous.ChordSystem normalize chord)
    (L : Lawful op (fun t k => val t = k) clear) :
    AgreesWithAffine op val clear normalize add addPlain := by
  rintro P Q a₁ a₂ q finite rfl finite' rfl same p listed t
  obtain ⟨c, returned, value⟩ := h.returns same listed t
  refine ⟨c, returned, fun vertical => ?_, fun apart => ?_⟩
  · rw [value]
    exact (system.vertical _ _ finite finite' vertical).1
  · have line := system.apart _ _ finite finite' apart
    rw [value]
    refine ⟨line.1, fun a₁' a₂' ha₁' ha₂' t' masks => ?_⟩
    have meets := L.addAff_map a₁' a₂'
    rw [ha₁', ha₂'] at meets
    obtain ⟨c', returned', value'⟩ := ((returnsUnless_of_meets meets) t' masks).2 apart
    exact ⟨c', returned', line.2.trans value'.symm⟩

variable [DecidableEq K]

theorem Computes.addsDifferentPoints (h : Computes val clear chord add addPlain)
    (system : Homogeneous.ChordSystem normalize chord) {onCurve : Homogeneous K → Prop}
    (identity : ∀ I P : Homogeneous K, I.Z = 0 → onCurve I →
      chord I P = ⟨0, 0, 0⟩ ∧ chord P I = ⟨0, 0, 0⟩) :
    AddsDifferentPoints val clear normalize onCurve add addPlain := by
  intro b P Q a₁ a₂ q hP hQ same p listed t
  obtain ⟨c, returned, value⟩ := h.returns same listed t
  refine ⟨c, returned, ?_⟩
  simp only [value]
  refine ⟨⟨fun represents => ?_, fun different => ?_⟩, ?_, ?_, ?_⟩
  · by_contra exceptional
    have collapsed := Homogeneous.chord_collapses system hP hQ (by tauto)
    exact collapsed.2 represents
  · exact Homogeneous.chord_represents system hP hQ different.1 different.2.1 different.2.2
  · rintro rfl
    exact Homogeneous.chord_self system hP hQ
  · intro infinite
    exact (Homogeneous.chord_collapses system hP hQ (by tauto)).1
  · rintro (⟨rfl, on⟩ | ⟨rfl, on⟩)
    · exact (identity _ _ hP.1 on).1
    · exact (identity _ _ hQ.1 on).2

end Chord

theorem Lawful.coordinatesAgree (L : Lawful op (fun t k => val t = k) clear) :
    CoordinatesAgree op val clear :=
  ⟨L.computesJac.agreesWithAffine Jacobian.system L, L.computesJac.agreesWithAffine Jacobian.system L,
    L.computesProj.agreesWithAffine Projective.system L,
    L.computesProj.agreesWithAffine Projective.system L⟩

variable [DecidableEq K]

theorem Lawful.affineAddition (L : Lawful op (fun t k => val t = k) clear) :
    AffineAddition op val clear := by
  rintro b P Q hP hQ a₁ a₂ q rfl rfl hq p listed
  have shared := L.addAff_map a₁ a₂
  have plain := L.addPlainAff_map a₁ q
  rw [hq] at plain
  have spec : p.Meets NonzeroInvMask
      (fun c => (a₁.map val).x ≠ (a₂.map val).x ∧ c.map val = (a₁.map val).chord (a₂.map val))
      (fun e => e = .division_by_zero ∧ (a₁.map val).x = (a₂.map val).x) := by
    simp only [List.mem_cons, List.not_mem_nil, or_false] at listed
    rcases listed with rfl | rfl | rfl | rfl
    · exact shared
    · exact shared
    · exact plain
    · exact plain
  apply returnsUnless_of_meets
  refine spec.imp fun c hc => ⟨hc.1, hc.2, ?_, ?_⟩
  · exact Affine.chord_onCurve hc.1 hP hQ
  · exact fun nonsingularP nonsingularQ => Affine.chord_add hc.1 nonsingularP nonsingularQ

theorem Lawful.exceptionalInputs (L : Lawful op (fun t k => val t = k) clear) :
    ExceptionalInputs op val clear := by
  have jac := L.computesJac.addsDifferentPoints Jacobian.system
    fun I P infinite on => Jacobian.chord_identity infinite on P
  have proj := L.computesProj.addsDifferentPoints Projective.system
    fun I P infinite on => Projective.chord_identity infinite on P
  exact ⟨jac, jac, proj, proj⟩

end Proofs

section Prime
variable {p : Nat} [Fact p.Prime] [NeZero n]

theorem add_aff_group_law (alphai : Fin n → ZMod p) :
    AffineAddition (G1Op alphai) val id ∧
    ∀ mod : p % 4 = 3, haveI := Gaussian.irreducible_zmod mod
      AffineAddition (G2Op alphai) Complex.val Complex.clear := by
  refine ⟨G1Op_lawful.affineAddition, fun mod => ?_⟩
  have := Gaussian.irreducible_zmod mod
  exact G2Op_lawful.affineAddition

theorem coordinates_agree (alphai : Fin n → ZMod p) :
    CoordinatesAgree (G1Op alphai) val id ∧
    ∀ mod : p % 4 = 3, haveI := Gaussian.irreducible_zmod mod
      CoordinatesAgree (G2Op alphai) Complex.val Complex.clear := by
  refine ⟨G1Op_lawful.coordinatesAgree, fun mod => ?_⟩
  have := Gaussian.irreducible_zmod mod
  exact G2Op_lawful.coordinatesAgree

theorem exceptional_inputs (alphai : Fin n → ZMod p) :
    ExceptionalInputs (G1Op alphai) val id ∧
    ∀ mod : p % 4 = 3, haveI := Gaussian.irreducible_zmod mod
      ExceptionalInputs (G2Op alphai) Complex.val Complex.clear := by
  refine ⟨G1Op_lawful.exceptionalInputs, fun mod => ?_⟩
  have := Gaussian.irreducible_zmod mod
  exact G2Op_lawful.exceptionalInputs

end Prime

section Small

instance factPrimeSeven : Fact (Nat.Prime 7) := ⟨by norm_num⟩

def smallKey : Fin 2 → ZMod 7 := fun j => (j : Nat) + 1

def shareAff (P : Affine (ZMod 7)) : Affine (Shared 2 (ZMod 7)) := P.map (constant smallKey)

def shareHom (P : Homogeneous (ZMod 7)) : Homogeneous (Shared 2 (ZMod 7)) :=
  P.map (constant smallKey)

theorem shareAff_map (P : Affine (ZMod 7)) : (shareAff P).map val = P := by
  simp [shareAff, Affine.map]

theorem shareHom_map (P : Homogeneous (ZMod 7)) : (shareHom P).map val = P := by
  simp [shareHom, Homogeneous.map]

theorem add_aff_group_law_small :
    ∃ c, (((G1Op smallKey).addAff (shareAff ⟨0, 1⟩) (shareAff ⟨1, 3⟩)).run
        (plainTape smallKey)).result = .ok c ∧ c.map val = ⟨3, 0⟩ := by
  have onP : Affine.OnCurve 1 (⟨0, 1⟩ : Affine (ZMod 7)) := by decide
  have onQ : Affine.OnCurve 1 (⟨1, 3⟩ : Affine (ZMod 7)) := by decide
  have sum : (⟨0, 1⟩ : Affine (ZMod 7)).chord ⟨1, 3⟩ = ⟨3, 0⟩ := by decide +kernel
  obtain ⟨c, returned, value, _⟩ := ((add_aff_group_law smallKey).1 1 _ _ onP onQ
    (shareAff ⟨0, 1⟩) (shareAff ⟨1, 3⟩) ⟨1, 3⟩ (shareAff_map _) (shareAff_map _) rfl
    _ List.mem_cons_self (plainTape smallKey) (plainTape_invMasksNonzero _ _)).2 (by decide)
  exact ⟨c, returned, value.trans sum⟩

theorem coordinates_agree_small :
    ∃ c, (((G1Op smallKey).addJac (shareHom ⟨0, 1, 1⟩) (shareHom ⟨4, 3, 2⟩)).run
        (plainTape smallKey)).result = .ok c ∧ (c.map val).Z ≠ 0 := by
  have finite : ((shareHom ⟨0, 1, 1⟩).map val).Z ≠ 0 := by
    rw [shareHom_map]
    decide
  have finite' : ((shareHom ⟨4, 3, 2⟩).map val).Z ≠ 0 := by
    rw [shareHom_map]
    decide
  have apart : (Jacobian.normalize ((shareHom ⟨0, 1, 1⟩).map val)).x ≠
      (Jacobian.normalize ((shareHom ⟨4, 3, 2⟩).map val)).x := by
    rw [shareHom_map, shareHom_map]
    decide +kernel
  obtain ⟨c, returned, _, sum⟩ := (coordinates_agree smallKey).1.1 _ _
    (shareHom ⟨0, 1, 1⟩) (shareHom ⟨4, 3, 2⟩) ⟨4, 3, 2⟩ finite rfl finite' rfl
    (shareHom_map _).symm _ List.mem_cons_self (plainTape smallKey)
  exact ⟨c, returned, (sum apart).1⟩

theorem smallPoint_nonsingular : (short (1 : ZMod 7)).Nonsingular 0 1 :=
  Affine.nonsingular (P := ⟨0, 1⟩) (by decide) (by decide) (by decide) (by decide)

def smallPoint : (short (1 : ZMod 7)).Point := .some 0 1 smallPoint_nonsingular

theorem smallPoint_jacobian :
    (⟨0, 1, 1⟩ : Homogeneous (ZMod 7)).Represents Jacobian.normalize smallPoint :=
  ⟨by decide, by decide +kernel⟩

theorem exceptional_inputs_small :
    ∃ c, (((G1Op smallKey).addJac (shareHom ⟨0, 1, 1⟩) (shareHom ⟨0, 1, 1⟩)).run
        (plainTape smallKey)).result = .ok c ∧ c.map val = ⟨0, 0, 0⟩ := by
  have represents := smallPoint_jacobian
  rw [← shareHom_map ⟨0, 1, 1⟩] at represents
  obtain ⟨c, returned, _, doubled, _⟩ := (exceptional_inputs smallKey).1.1 1 smallPoint smallPoint
    (shareHom ⟨0, 1, 1⟩) (shareHom ⟨0, 1, 1⟩) ⟨0, 1, 1⟩ represents represents
    (shareHom_map _).symm _ List.mem_cons_self (plainTape smallKey)
  exact ⟨c, returned, doubled rfl⟩

theorem loses_point {p : Online smallKey (Homogeneous (Shared 2 (ZMod 7)))}
    {V : Homogeneous (ZMod 7)} (computes : Returns p fun c => c.map val = V)
    (collapsed : V = ⟨0, 0, 0⟩) (normalize : Homogeneous (ZMod 7) → Affine (ZMod 7))
    (P : (short (1 : ZMod 7)).Point) :
    ∀ t, ∃ c, (p.run t).result = .ok c ∧ ¬(c.map val).Represents normalize P := by
  intro t
  obtain ⟨c, returned, value⟩ := computes t
  refine ⟨c, returned, ?_⟩
  rw [value, collapsed]
  exact Homogeneous.not_represents_zero normalize P

theorem addition_loses_point :
    (∀ t, ∃ c, (((G1Op smallKey).addJac (shareHom ⟨0, 1, 1⟩) (shareHom ⟨0, 1, 1⟩)).run t).result =
        .ok c ∧ ¬(c.map val).Represents Jacobian.normalize (smallPoint + smallPoint)) ∧
    (∀ t, ∃ c, (((G1Op smallKey).addProj (shareHom ⟨0, 1, 1⟩) (shareHom ⟨0, 1, 1⟩)).run t).result =
        .ok c ∧ ¬(c.map val).Represents Projective.normalize (smallPoint + smallPoint)) ∧
    (∀ t, ∃ c, (((G1Op smallKey).addJac (shareHom ⟨1, 1, 0⟩) (shareHom ⟨0, 1, 1⟩)).run t).result =
        .ok c ∧ ¬(c.map val).Represents Jacobian.normalize smallPoint) ∧
    (∀ t, ∃ c, (((G1Op smallKey).addProj (shareHom ⟨0, 1, 0⟩) (shareHom ⟨0, 1, 1⟩)).run t).result =
        .ok c ∧ ¬(c.map val).Represents Projective.normalize smallPoint) := by
  have jac := (G1Op_lawful : Lawful (G1Op smallKey) _ _).computesJac.shared
  have proj := (G1Op_lawful : Lawful (G1Op smallKey) _ _).computesProj.shared
  refine ⟨loses_point (jac _ _) ?_ _ _, loses_point (proj _ _) ?_ _ _, loses_point (jac _ _) ?_ _ _,
    loses_point (proj _ _) ?_ _ _⟩
  all_goals
    simp only [shareHom_map]
    decide

end Small

end ProofOfCustody.GroupOp
