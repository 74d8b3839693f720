import Mathlib
import ProofOfCustody.Group.Ops
import ProofOfCustody.Processor.Input

/-!
# Complex operations of one player

What `dstb_sign` needs: complex inputs and the affine addition of `G2Op`.
-/

namespace ProofOfCustody.OnlineOp.Local
open Effect Spdz Network Curve

variable {n : Nat} {F : Type} [Field F] [DecidableEq F]

namespace Complex
variable (K : Seat n F)

def sub (a b : OnlineOp.Complex (Share F)) : OnlineOp.Complex (Share F) :=
  let imag := Local.sub a.imag b.imag
  let real := Local.sub a.real b.real
  ⟨real, imag⟩

def subInplace (c a : OnlineOp.Complex (Share F)) : OnlineOp.Complex (Share F) := sub c a

def mul (a b : OnlineOp.Complex (Share F)) : Local n F (OnlineOp.Complex (Share F)) := do
  let real ← Local.mul K a.real b.real
  let tmp ← Local.mul K a.imag b.imag
  let real := Local.subInplace real tmp
  let imag ← Local.mul K a.real b.imag
  let tmp ← Local.mul K a.imag b.real
  let imag := Local.addInplace imag tmp
  return ⟨real, imag⟩

def mulInplace (c a : OnlineOp.Complex (Share F)) : Local n F (OnlineOp.Complex (Share F)) := mul K c a

def sqr (a : OnlineOp.Complex (Share F)) : Local n F (OnlineOp.Complex (Share F)) := do
  let real ← Local.sqr K a.real
  let imag ← Local.sqr K a.imag
  let real := Local.subInplace real imag
  let imag ← Local.mul K a.real a.imag
  let imag := Local.addInplace imag imag
  return ⟨real, imag⟩

def inv (a : OnlineOp.Complex (Share F)) : Local n F (OnlineOp.Complex (Share F)) := do
  let real ← Local.sqr K a.real
  let imag ← Local.sqr K a.imag
  let real := Local.addInplace real imag
  let rr := real
  let rr ← Local.invInplace K rr
  let real ← Local.mul K a.real rr
  let neg : F := -1
  let rr := neg • rr
  let imag ← Local.mul K a.imag rr
  return ⟨real, imag⟩

def div (a b : OnlineOp.Complex (Share F)) : Local n F (OnlineOp.Complex (Share F)) := do
  let c ← inv K b
  mulInplace K c a

def divInplace (c a : OnlineOp.Complex (Share F)) : Local n F (OnlineOp.Complex (Share F)) := div K c a

def getInputs (party : Fin n) (inputs : OnlineOp.Complex F) :
    Local n F (OnlineOp.Complex (Share F)) := do
  let real ← Processor.getInputs K party inputs.real
  let imag ← Processor.getInputs K party inputs.imag
  return ⟨real, imag⟩

end Complex

def addAff (K : Seat n F) (a b : Affine (OnlineOp.Complex (Share F))) :
    Local n F (Affine (OnlineOp.Complex (Share F))) := do
  let m := Complex.sub a.y b.y
  let dx := Complex.sub a.x b.x
  let m ← Complex.divInplace K m dx
  let mm ← Complex.sqr K m
  let mm := Complex.subInplace mm a.x
  let x := Complex.sub mm b.x
  let y := Complex.sub a.x x
  let y ← Complex.mulInplace K y m
  let y := Complex.subInplace y a.y
  return ⟨x, y⟩

def addAffInplace (K : Seat n F) (c a : Affine (OnlineOp.Complex (Share F))) :
    Local n F (Affine (OnlineOp.Complex (Share F))) := addAff K c a

def ownComplex (i : Fin n) (a : OnlineOp.Complex (Shared n F)) : OnlineOp.Complex (Share F) :=
  ⟨own i a.real, own i a.imag⟩

def ownAffine (i : Fin n) (a : Affine (OnlineOp.Complex (Shared n F))) :
    Affine (OnlineOp.Complex (Share F)) := ⟨ownComplex i a.x, ownComplex i a.y⟩

structure ComplexIn (W : Submodule F (Shared n F)) (a : OnlineOp.Complex (Shared n F)) : Prop where
  real : a.real ∈ W
  imag : a.imag ∈ W

structure AffineIn (W : Submodule F (Shared n F)) (a : Affine (OnlineOp.Complex (Shared n F))) :
    Prop where
  x : ComplexIn W a.x
  y : ComplexIn W a.y

variable {alphai : Fin n → F} {O : Outside F} {T : TreeSum n} {W : Submodule F (Shared n F)}

omit [DecidableEq F] in
theorem ComplexIn.sub {a b : OnlineOp.Complex (Shared n F)} (ha : ComplexIn W a)
    (hb : ComplexIn W b) : ComplexIn W (a.sub b) :=
  ⟨sub_mem ha.real hb.real, sub_mem ha.imag hb.imag⟩

theorem complexGetInputs_localizes (covers : Shared.Authentic alphai ≤ W) (party : Fin n)
    (inputs : Fin n → OnlineOp.Complex F) :
    Localizes O W (ComplexIn W) ownComplex (OnlineOp.Complex.getInputs party inputs : Online alphai _)
      fun i => Complex.getInputs (seat O T alphai i) party (inputs i) :=
  (Processor.getInputs_localizes covers party fun i => (inputs i).real).bind fun _ real =>
    (Processor.getInputs_localizes covers party fun i => (inputs i).imag).bind fun _ imag =>
      .ret ⟨real, imag⟩

section Network
variable {m : Nat} (limits : Limits O T m) (pair : 2 ≤ m) (covers : Shared.Authentic alphai ≤ W)
  {a b : OnlineOp.Complex (Shared n F)}
include limits pair covers

theorem complexMul_localizes (ha : ComplexIn W a) (hb : ComplexIn W b) :
    Localizes O W (ComplexIn W) ownComplex (a.mul b : Online alphai _) fun i =>
      Complex.mul (seat O T alphai i) (ownComplex i a) (ownComplex i b) := by
  refine (mul_localizes limits pair covers ha.real hb.real).bind fun real hreal => ?_
  refine (mul_localizes limits pair covers ha.imag hb.imag).bind fun tmp htmp => ?_
  refine (mul_localizes limits pair covers ha.real hb.imag).bind fun imag himag => ?_
  refine (mul_localizes limits pair covers ha.imag hb.real).bind fun tmp' htmp' => ?_
  exact .ret_of ⟨sub_mem hreal htmp, add_mem himag htmp'⟩ fun i => rfl

theorem complexSqr_localizes (ha : ComplexIn W a) :
    Localizes O W (ComplexIn W) ownComplex (a.sqr : Online alphai _) fun i =>
      Complex.sqr (seat O T alphai i) (ownComplex i a) := by
  refine (sqr_localizes limits pair covers ha.real).bind fun real hreal => ?_
  refine (sqr_localizes limits pair covers ha.imag).bind fun imag himag => ?_
  refine (mul_localizes limits pair covers ha.real ha.imag).bind fun tmp htmp => ?_
  exact .ret_of ⟨sub_mem hreal himag, add_mem htmp htmp⟩ fun i => rfl

theorem complexInv_localizes (ha : ComplexIn W a) :
    Localizes O W (ComplexIn W) ownComplex (a.inv : Online alphai _) fun i =>
      Complex.inv (seat O T alphai i) (ownComplex i a) := by
  refine (sqr_localizes limits pair covers ha.real).bind fun real hreal => ?_
  refine (sqr_localizes limits pair covers ha.imag).bind fun imag himag => ?_
  refine (inv_localizes limits pair covers (add_mem hreal himag)).bind fun rr hrr => ?_
  refine (mul_localizes limits pair covers ha.real hrr).bind fun re hre => ?_
  refine (mul_localizes limits pair covers ha.imag (W.smul_mem (-1) hrr)).bind
    fun im him => ?_
  exact .ret_of ⟨hre, him⟩ fun i => rfl

theorem complexDiv_localizes (ha : ComplexIn W a) (hb : ComplexIn W b) :
    Localizes O W (ComplexIn W) ownComplex (a.div b : Online alphai _) fun i =>
      Complex.div (seat O T alphai i) (ownComplex i a) (ownComplex i b) :=
  (complexInv_localizes limits pair covers hb).bind fun _ hc =>
    complexMul_localizes limits pair covers hc ha

theorem addAff_localizes {a b : Affine (OnlineOp.Complex (Shared n F))} (ha : AffineIn W a)
    (hb : AffineIn W b) :
    Localizes O W (AffineIn W) ownAffine ((GroupOp.G2Op alphai).addAff a b) fun i =>
      addAff (seat O T alphai i) (ownAffine i a) (ownAffine i b) := by
  refine (complexDiv_localizes limits pair covers (ha.y.sub hb.y) (ha.x.sub hb.x)).bind
    fun m hm => ?_
  refine (complexSqr_localizes limits pair covers hm).bind fun mm hmm => ?_
  have hx := (hmm.sub ha.x).sub hb.x
  refine (complexMul_localizes limits pair covers (ha.x.sub hx) hm).bind fun y hy => ?_
  exact .ret_of ⟨hx, hy.sub ha.y⟩ fun i => rfl

end Network

end ProofOfCustody.OnlineOp.Local
