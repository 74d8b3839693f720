import Mathlib
import ProofOfCustody.OnlineOp.Inputs

/-!
# Complex operations of `OnlineOp`

`Complex T` holds two shared values and `Complex_Plain T` two clear ones; both are the same pair
here. An in-place operation of the source computes into a fresh `tmp` from the old destination and
copies it, so it is the operation itself with the old destination as the first operand.
-/

namespace ProofOfCustody.OnlineOp
open Effect Spdz Shared

variable {n : Nat} {F : Type} [Field F] {alphai : Fin n → F}

@[ext]
structure Complex (T : Type) where
  real : T
  imag : T
  deriving DecidableEq

namespace Complex

def add (a b : Complex (Shared n F)) : Complex (Shared n F) :=
  let real := OnlineOp.add a.real b.real
  let imag := OnlineOp.add a.imag b.imag
  ⟨real, imag⟩

def addPlain (alphai : Fin n → F) (a : Complex (Shared n F)) (b : Complex F) :
    Complex (Shared n F) :=
  let real := OnlineOp.addPlain alphai a.real b.real
  let imag := OnlineOp.addPlain alphai a.imag b.imag
  ⟨real, imag⟩

def addInplace (c a : Complex (Shared n F)) : Complex (Shared n F) := add c a

def sub (a b : Complex (Shared n F)) : Complex (Shared n F) :=
  let imag := OnlineOp.sub a.imag b.imag
  let real := OnlineOp.sub a.real b.real
  ⟨real, imag⟩

def subPlain (alphai : Fin n → F) (a : Complex (Shared n F)) (b : Complex F) :
    Complex (Shared n F) :=
  let imag := OnlineOp.subPlain alphai a.imag b.imag
  let real := OnlineOp.subPlain alphai a.real b.real
  ⟨real, imag⟩

def subInplace (c a : Complex (Shared n F)) : Complex (Shared n F) := sub c a

def mulPlain (a : Complex (Shared n F)) (b : Complex F) : Complex (Shared n F) :=
  let tmpreal := OnlineOp.mulPlain a.real b.real
  let tmpimag := OnlineOp.mulPlain a.imag b.imag
  let creal := OnlineOp.sub tmpreal tmpimag
  let tmpreal := OnlineOp.mulPlain a.real b.imag
  let tmpimag := OnlineOp.mulPlain a.imag b.real
  let imag := OnlineOp.add tmpreal tmpimag
  ⟨creal, imag⟩

def mul (a b : Complex (Shared n F)) : Online alphai (Complex (Shared n F)) := do
  let real ← OnlineOp.mul a.real b.real
  let tmp ← OnlineOp.mul a.imag b.imag
  let real := OnlineOp.subInplace real tmp
  let imag ← OnlineOp.mul a.real b.imag
  let tmp ← OnlineOp.mul a.imag b.real
  let imag := OnlineOp.addInplace imag tmp
  return ⟨real, imag⟩

def mulInplace (c a : Complex (Shared n F)) : Online alphai (Complex (Shared n F)) := mul c a

def sqr (a : Complex (Shared n F)) : Online alphai (Complex (Shared n F)) := do
  let real ← OnlineOp.sqr a.real
  let imag ← OnlineOp.sqr a.imag
  let real := OnlineOp.subInplace real imag
  let imag ← OnlineOp.mul a.real a.imag
  let imag := OnlineOp.addInplace imag imag
  return ⟨real, imag⟩

def sqrInplace (a : Complex (Shared n F)) : Online alphai (Complex (Shared n F)) := sqr a

variable [DecidableEq F]

def inv (a : Complex (Shared n F)) : Online alphai (Complex (Shared n F)) := do
  let real ← OnlineOp.sqr a.real
  let imag ← OnlineOp.sqr a.imag
  let real := OnlineOp.addInplace real imag
  let rr := real
  let rr ← OnlineOp.invInplace rr
  let real ← OnlineOp.mul a.real rr
  let neg : F := -1
  let rr := neg • rr
  let imag ← OnlineOp.mul a.imag rr
  return ⟨real, imag⟩

def invInplace (a : Complex (Shared n F)) : Online alphai (Complex (Shared n F)) := inv a

def div (a b : Complex (Shared n F)) : Online alphai (Complex (Shared n F)) := do
  let c ← inv b
  mulInplace c a

def divInplace (c a : Complex (Shared n F)) : Online alphai (Complex (Shared n F)) := div c a

end Complex

namespace Complex

def getInputs (party : Fin n) (inputs : Fin n → Complex F) :
    Online alphai (Complex (Shared n F)) := do
  let real ← OnlineOp.getInputs party fun player => (inputs player).real
  let imag ← OnlineOp.getInputs party fun player => (inputs player).imag
  return ⟨real, imag⟩

end Complex

def mulComplexPlain (a b : Complex F) : Complex F :=
  let r2 := a.real * b.real
  let i2 := a.imag * b.imag
  let real := r2 - i2
  let r2 := a.real * b.imag
  let i2 := a.imag * b.real
  let imag := r2 + i2
  ⟨real, imag⟩

def mulComplexPlainInplace (c a : Complex F) : Complex F := mulComplexPlain c a

end ProofOfCustody.OnlineOp
