import Mathlib
import ProofOfCustody.Curve.Chord
import ProofOfCustody.OnlineOp.Complex

/-!
# Point additions of `G1Op` and `G2Op`

The two classes of the source run the same steps, `G1Op` on shared values and `G2Op` on shared
complex values. The steps are written once, over the overloads of `OnlineOp` they call.
-/

namespace ProofOfCustody.GroupOp
open Effect Spdz Curve

variable {n : Nat} {F : Type} [Field F] {alphai : Fin n → F} {T C : Type}

/-- What `G1Op` and `G2Op` inherit from `OnlineOp`: its overloads at shared coordinates `T` and
clear coordinates `C`. -/
structure CoordinateOp (alphai : Fin n → F) (T C : Type) where
  addInplace : T → T → T
  add : T → T → T
  sub : T → T → T
  subInplace : T → T → T
  subPlain : T → C → T
  mulPlain : T → C → T
  mul : T → T → Online alphai T
  mulInplace : T → T → Online alphai T
  sqr : T → Online alphai T
  divInplace : T → T → Online alphai T
  mulClear : C → C → C

namespace CoordinateOp
variable (op : CoordinateOp alphai T C)

def addPlainAff (a : Affine T) (b : Affine C) : Online alphai (Affine T) := do
  let m := op.subPlain a.y b.y
  let dx := op.subPlain a.x b.x
  let m ← op.divInplace m dx
  let mm ← op.sqr m
  let mm := op.subInplace mm a.x
  let x := op.subPlain mm b.x
  let y := op.sub a.x x
  let y ← op.mulInplace y m
  let y := op.subInplace y a.y
  return ⟨x, y⟩

def addAff (a b : Affine T) : Online alphai (Affine T) := do
  let m := op.sub a.y b.y
  let dx := op.sub a.x b.x
  let m ← op.divInplace m dx
  let mm ← op.sqr m
  let mm := op.subInplace mm a.x
  let x := op.sub mm b.x
  let y := op.sub a.x x
  let y ← op.mulInplace y m
  let y := op.subInplace y a.y
  return ⟨x, y⟩

/-- The in-place forms compute into a fresh `tmp`, so the destination may also be an operand. -/
def addPlainAffInplace (c : Affine T) (a : Affine C) : Online alphai (Affine T) :=
  op.addPlainAff c a
def addAffInplace (c a : Affine T) : Online alphai (Affine T) := op.addAff c a

/-- The steps from `R = S1 - S2` on, common to both Jacobian additions; `Z` is `Z1 * Z2`, which
each computes between `V` and `c.Z`. -/
def finishJac (S1 S2 U1 U2 : T) (mulZ : Online alphai T) : Online alphai (Homogeneous T) := do
  let R := op.sub S1 S2
  let H := op.sub U1 U2
  let V ← op.sqr H
  let G ← op.mul V H
  let V ← op.mulInplace V U1
  let Z ← mulZ
  let Z ← op.mulInplace Z H
  let tmp ← op.sqr R
  let X := op.add tmp G
  let X := op.subInplace X V
  let X := op.subInplace X V
  let tmp ← op.mul S1 G
  let Y := op.sub V X
  let Y ← op.mulInplace Y R
  let Y := op.subInplace Y tmp
  return ⟨X, Y, Z⟩

def addPlainJac (a : Homogeneous T) (b : Homogeneous C) : Online alphai (Homogeneous T) := do
  let S2 ← op.sqr a.Z
  let bZ3 := op.mulClear b.Z b.Z
  let U2 := op.mulPlain S2 b.X
  let U1 := op.mulPlain a.X bZ3
  let S := op.mulPlain S2 b.Y
  let S2 ← op.mul S a.Z
  let bZ3 := op.mulClear bZ3 b.Z
  let S1 := op.mulPlain a.Y bZ3
  op.finishJac S1 S2 U1 U2 (pure (op.mulPlain a.Z b.Z))

def addJac (a b : Homogeneous T) : Online alphai (Homogeneous T) := do
  let S2 ← op.sqr a.Z
  let S1 ← op.sqr b.Z
  let U2 ← op.mul b.X S2
  let U1 ← op.mul a.X S1
  let S2 ← op.mulInplace S2 b.Y
  let S2 ← op.mulInplace S2 a.Z
  let S1 ← op.mulInplace S1 a.Y
  let S1 ← op.mulInplace S1 b.Z
  op.finishJac S1 S2 U1 U2 (op.mul a.Z b.Z)

def addPlainJacInplace (c : Homogeneous T) (a : Homogeneous C) : Online alphai (Homogeneous T) :=
  op.addPlainJac c a
def addJacInplace (c a : Homogeneous T) : Online alphai (Homogeneous T) := op.addJac c a

def finishProj (S1 S2 U1 U2 : T) (mulZ : Online alphai T) : Online alphai (Homogeneous T) := do
  let R := op.sub S1 S2
  let H := op.sub U1 U2
  let T_ ← mulZ
  let H2 ← op.sqr H
  let V ← op.mul U1 H2
  let G ← op.mul H2 H
  let R2 ← op.sqr R
  let W ← op.mul R2 T_
  let W := op.addInplace W G
  let W := op.subInplace W V
  let W := op.subInplace W V
  let Z ← op.mul T_ G
  let tmp ← op.mul S1 G
  let Y := op.sub V W
  let Y ← op.mulInplace Y R
  let Y := op.subInplace Y tmp
  let X ← op.mul H W
  return ⟨X, Y, Z⟩

def addPlainProj (a : Homogeneous T) (b : Homogeneous C) : Online alphai (Homogeneous T) := do
  let S2 := op.mulPlain a.Z b.Y
  let S1 := op.mulPlain a.Y b.Z
  let U2 := op.mulPlain a.Z b.X
  let U1 := op.mulPlain a.X b.Z
  op.finishProj S1 S2 U1 U2 (pure (op.mulPlain a.Z b.Z))

def addProj (a b : Homogeneous T) : Online alphai (Homogeneous T) := do
  let S2 ← op.mul b.Y a.Z
  let S1 ← op.mul a.Y b.Z
  let U2 ← op.mul b.X a.Z
  let U1 ← op.mul a.X b.Z
  op.finishProj S1 S2 U1 U2 (op.mul a.Z b.Z)

def addPlainProjInplace (c : Homogeneous T) (a : Homogeneous C) : Online alphai (Homogeneous T) :=
  op.addPlainProj c a
def addProjInplace (c a : Homogeneous T) : Online alphai (Homogeneous T) := op.addProj c a

end CoordinateOp

section Instances
variable [DecidableEq F]

def G1Op (alphai : Fin n → F) : CoordinateOp alphai (Shared n F) F where
  addInplace := OnlineOp.addInplace
  add := OnlineOp.add
  sub := OnlineOp.sub
  subInplace := OnlineOp.subInplace
  subPlain := OnlineOp.subPlain alphai
  mulPlain := OnlineOp.mulPlain
  mul := OnlineOp.mul
  mulInplace := OnlineOp.mulInplace
  sqr := OnlineOp.sqr
  divInplace := OnlineOp.divInplace
  mulClear a b := a * b

def G2Op (alphai : Fin n → F) :
    CoordinateOp alphai (OnlineOp.Complex (Shared n F)) (OnlineOp.Complex F) where
  addInplace := OnlineOp.Complex.addInplace
  add := OnlineOp.Complex.add
  sub := OnlineOp.Complex.sub
  subInplace := OnlineOp.Complex.subInplace
  subPlain := OnlineOp.Complex.subPlain alphai
  mulPlain := OnlineOp.Complex.mulPlain
  mul := OnlineOp.Complex.mul
  mulInplace := OnlineOp.Complex.mulInplace
  sqr := OnlineOp.Complex.sqr
  divInplace := OnlineOp.Complex.divInplace
  mulClear := OnlineOp.mulComplexPlain

end Instances

end ProofOfCustody.GroupOp
