import Mathlib
import ProofOfCustody.Effect.Signals
import ProofOfCustody.OnlineOp.ArithSpec

/-!
# Straight-line programs

The operations of `OnlineOp` write to share registers, and a destination may be one of the operands.
The shared run of a sequence of operations follows the same sequence on clear registers.
-/

namespace ProofOfCustody.OnlineOp
open Effect Spdz Shared

variable {n : Nat} {F : Type} [Field F] {alphai : Fin n → F} {α : Type}

/-- Variables of type `T` and of type `vector<T>`. -/
structure Registers (α : Type) where
  reg : Nat → α
  vec : Nat → List α

namespace Registers

def set (R : Registers α) (c : Nat) (a : α) : Registers α :=
  { R with reg := Function.update R.reg c a }

def setVec (R : Registers α) (c : Nat) (a : List α) : Registers α :=
  { R with vec := Function.update R.vec c a }

/-- `c.resize(a.size())` -/
def fit [Zero α] (R : Registers α) (c a : Nat) : Registers α :=
  R.setVec c (resize (R.vec c) (R.vec a).length)

@[simp] theorem set_reg (R : Registers α) (c : Nat) (a : α) : (R.set c a).reg c = a :=
  Function.update_self _ _ _

theorem set_reg_of_ne (R : Registers α) {c i : Nat} (other : i ≠ c) (a : α) :
    (R.set c a).reg i = R.reg i :=
  Function.update_of_ne other _ _

@[simp] theorem set_set (R : Registers α) (c : Nat) (a a' : α) : (R.set c a).set c a' = R.set c a' := by
  simp [set]

end Registers

inductive Family
  | add | sub | mul
  deriving DecidableEq

namespace Family

def shared : Family → Shared n F → Shared n F → Online alphai (Shared n F)
  | .add, a, b => return OnlineOp.add a b
  | .sub, a, b => return OnlineOp.sub a b
  | .mul, a, b => OnlineOp.mul a b

def sharedVec : Family → List (Shared n F) → List (Shared n F) → List (Shared n F) →
    Online alphai (List (Shared n F))
  | .add, _ => addVec
  | .sub, _ => subVec
  | .mul, c => mulVec c

def plain (alphai : Fin n → F) : Family → Shared n F → F → Shared n F
  | .add => addPlain alphai
  | .sub => subPlain alphai
  | .mul => mulPlain

def plainVec : Family → List (Shared n F) → List F → Online alphai (List (Shared n F))
  | .add => addPlainVec
  | .sub => subPlainVec
  | .mul => mulPlainVec

def inplace : Family → Shared n F → Shared n F → Online alphai (Shared n F)
  | .add, c, a => return addInplace c a
  | .sub, c, a => return subInplace c a
  | .mul, c, a => mulInplace c a

def inplaceVec : Family → List (Shared n F) → List (Shared n F) → Online alphai (List (Shared n F))
  | .add, c, a => return addInplaceVec c a
  | .sub, c, a => return subInplaceVec c a
  | .mul, c, a => mulInplaceVec c a

def plainInplace (alphai : Fin n → F) : Family → Shared n F → F → Shared n F
  | .add => addPlainInplace alphai
  | .sub => subPlainInplace alphai
  | .mul => mulPlainInplace

def plainInplaceVec (alphai : Fin n → F) : Family → List (Shared n F) → List F → List (Shared n F)
  | .add => addPlainInplaceVec alphai
  | .sub => subPlainInplaceVec alphai
  | .mul => mulPlainInplaceVec

def inClear : Family → F → F → F
  | .add => (· + ·)
  | .sub => (· - ·)
  | .mul => (· * ·)

end Family

/-- One call: the destination first, registers by number, plain operands by value. -/
inductive Op (F : Type)
  | binary (f : Family) (c a b : Nat)
  | binaryVec (f : Family) (c a b : Nat)
  | plain (f : Family) (c a : Nat) (b : F)
  | plainVec (f : Family) (c a : Nat) (b : List F)
  | inplace (f : Family) (c a : Nat)
  | inplaceVec (f : Family) (c a : Nat)
  | plainInplace (f : Family) (c : Nat) (a : F)
  | plainInplaceVec (f : Family) (c : Nat) (a : List F)
  | sqr (aa a : Nat)
  | sqrInplace (a : Nat)
  | inv (ia a : Nat)
  | invInplace (a : Nat)
  | div (c a b : Nat)
  | divInplace (c a : Nat)
  | dotprod (a b c : Nat)

namespace Op
variable [DecidableEq F]

def exec : Op F → Registers (Shared n F) → Online alphai (Registers (Shared n F))
  | .binary f c a b, R => do
      let r ← f.shared (R.reg a) (R.reg b)
      return R.set c r
  -- the destination is resized first, and may be the second operand
  | .binaryVec f c a b, R => do
      let fitted := R.fit c a
      let r ← f.sharedVec (fitted.vec c) (fitted.vec a) (fitted.vec b)
      return R.setVec c r
  | .plain f c a b, R => return R.set c (f.plain alphai (R.reg a) b)
  | .plainVec f c a b, R => do
      let r ← f.plainVec (R.vec a) b
      return R.setVec c r
  | .inplace f c a, R => do
      let r ← f.inplace (R.reg c) (R.reg a)
      return R.set c r
  | .inplaceVec f c a, R => do
      let r ← f.inplaceVec (R.vec c) (R.vec a)
      return R.setVec c r
  | .plainInplace f c a, R => return R.set c (f.plainInplace alphai (R.reg c) a)
  | .plainInplaceVec f c a, R => return R.setVec c (f.plainInplaceVec alphai (R.vec c) a)
  | .sqr aa a, R => do
      let r ← OnlineOp.sqr (R.reg a)
      return R.set aa r
  | .sqrInplace a, R => do
      let tmp ← OnlineOp.sqr (R.reg a)
      return R.set a tmp
  | .inv ia a, R => do
      let r ← OnlineOp.inv (R.reg a)
      return R.set ia r
  | .invInplace a, R => do
      let tmp ← OnlineOp.inv (R.reg a)
      return R.set a tmp
  -- the inverse is in the destination before the numerator is read
  | .div c a b, R => do
      let ib ← OnlineOp.inv (R.reg b)
      let R := R.set c ib
      let r ← OnlineOp.mulInplace (R.reg c) (R.reg a)
      return R.set c r
  | .divInplace c a, R => do
      let tmp ← OnlineOp.divInplace (R.reg c) (R.reg a)
      return R.set c tmp
  | .dotprod a b c, R => do
      let r ← OnlineOp.dotprod (R.vec a) (R.vec b)
      return R.set c r

def inClear : Op F → Registers F → Option (Registers F)
  | .binary f c a b, x => some (x.set c (f.inClear (x.reg a) (x.reg b)))
  | .binaryVec f c a b, x => some (x.setVec c (List.zipWith f.inClear (x.vec a) (x.vec b)))
  | .plain f c a b, x => some (x.set c (f.inClear (x.reg a) b))
  | .plainVec f c a b, x => some (x.setVec c (List.zipWith f.inClear (x.vec a) b))
  | .inplace f c a, x => some (x.set c (f.inClear (x.reg c) (x.reg a)))
  | .inplaceVec f c a, x => some (x.setVec c (List.zipWith f.inClear (x.vec c) (x.vec a)))
  | .plainInplace f c a, x => some (x.set c (f.inClear (x.reg c) a))
  | .plainInplaceVec f c a, x => some (x.setVec c (List.zipWith f.inClear (x.vec c) a))
  | .sqr aa a, x => some (x.set aa (x.reg a * x.reg a))
  | .sqrInplace a, x => some (x.set a (x.reg a * x.reg a))
  | .inv ia a, x => if x.reg a = 0 then none else some (x.set ia (x.reg a)⁻¹)
  | .invInplace a, x => if x.reg a = 0 then none else some (x.set a (x.reg a)⁻¹)
  | .div c a b, x => if x.reg b = 0 then none else some (x.set c (x.reg a / x.reg b))
  | .divInplace c a, x => if x.reg a = 0 then none else some (x.set c (x.reg c / x.reg a))
  | .dotprod a b c, x => some (x.set c (List.zipWith (· * ·) (x.vec a) (x.vec b)).sum)

def EqualLength : Op F → Registers F → Prop
  | .binaryVec _ _ a b, x => (x.vec a).length = (x.vec b).length
  | .plainVec _ _ a b, x => (x.vec a).length = b.length
  | .inplaceVec _ c a, x => (x.vec c).length = (x.vec a).length
  | .plainInplaceVec _ c a, x => (x.vec c).length = a.length
  | .dotprod a b _, x => (x.vec a).length = (x.vec b).length
  | _, _ => True

/-- The products are counted by an `int`, as is the length of a dot product. -/
def Counted : Op F → Registers F → Prop
  | .binaryVec f _ a _, x => f = .mul → (x.vec a).length ≤ 2 ^ 31
  | .dotprod a _ _, x => (x.vec a).length < 2 ^ 31
  | _, _ => True

/-- A division does not overwrite its numerator, unless no one can tell from the quotient. -/
def KeepsNumerator : Op F → Registers F → Prop
  | .div c a b, x => c = a → x.reg b = 0 ∨ x.reg a * x.reg b = 1
  | _, _ => True

end Op

def execute [DecidableEq F] (ops : List (Op F)) (R : Registers (Shared n F)) :
    Online alphai (Registers (Shared n F)) :=
  ops.foldlM (fun R op => op.exec R) R

def evaluate [DecidableEq F] (ops : List (Op F)) (x : Registers F) : Option (Registers F) :=
  ops.foldlM (fun x op => op.inClear x) x

def Along [DecidableEq F] (P : Op F → Registers F → Prop) : List (Op F) → Registers F → Prop
  | [], _ => True
  | op :: ops, x => P op x ∧ ∀ y, op.inClear x = some y → Along P ops y

def Represents (alphai : Fin n → F) (s : Shared n F) (v : F) : Prop :=
  val s = v ∧ macSum s = (∑ j, alphai j) * v

structure Refines (alphai : Fin n → F) (R : Registers (Shared n F)) (x : Registers F) : Prop where
  reg : ∀ i, Represents alphai (R.reg i) (x.reg i)
  vec : ∀ i, List.Forall₂ (Represents alphai) (R.vec i) (x.vec i)

end ProofOfCustody.OnlineOp
