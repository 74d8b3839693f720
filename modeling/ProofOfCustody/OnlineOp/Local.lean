import Mathlib
import ProofOfCustody.OnlineOp.Hash
import ProofOfCustody.OnlineOp.StraightLine
import ProofOfCustody.Spdz.Local

/-!
# `OnlineOp` of one player

The same operations as in the joint execution, on the shares of one player.
-/

namespace ProofOfCustody.OnlineOp.Local
open Effect Spdz Binary

variable {n : Nat} {F : Type} [Field F] {α β : Type}

def zipVec (op : Share F → β → Share F) (a : List (Share F)) (b : List β) :
    Local n F (List (Share F)) :=
  if b.length < a.length then Local.throw .undefined else return List.zipWith op a b

def zipVecInplace (op : Share F → β → Share F) (c : List (Share F)) (a : List β) :
    List (Share F) :=
  List.zipWith op (resize c a.length) a

section Linear
variable (K : Seat n F)

def constant (b : F) : Share F := Share.constant b K.my_num K.alphai

def add (a b : Share F) : Share F := a + b
def addPlain (a : Share F) (b : F) : Share F :=
  let sb := constant K b
  a + sb
def addInplace (c a : Share F) : Share F := c + a
def addPlainInplace (c : Share F) (a : F) : Share F :=
  let sa := constant K a
  c + sa

def sub (a b : Share F) : Share F := a - b
def subPlain (a : Share F) (b : F) : Share F :=
  let sb := constant K b
  a - sb
def subInplace (c a : Share F) : Share F := c - a
def subPlainInplace (c : Share F) (a : F) : Share F :=
  let sa := constant K a
  c - sa

def mulPlain (a : Share F) (b : F) : Share F := b • a
def mulPlainInplace (c : Share F) (a : F) : Share F := a • c

end Linear

structure Beaver (F : Type) where
  shares : List (Share F)
  opened : List F
  triples : List (Share F × Share F × Share F)

namespace Beaver

def initMul : Beaver F := ⟨[], [], []⟩

def prepareMul (B : Beaver F) (x y : Share F) : Local n F (Beaver F) := do
  let triple ← Local.getTriple
  return { B with
    triples := B.triples ++ [triple]
    shares := B.shares ++ [x - triple.1, y - triple.2.1] }

def exchange [DecidableEq F] (K : Seat n F) (B : Beaver F) : Local n F (Beaver F) := do
  let opened ← Local.reveal K B.shares
  return { B with opened }

def finalizeMul (K : Seat n F) (B : Beaver F) : Local n F (Share F × Beaver F) :=
  match B.opened, B.triples with
  | masked₀ :: masked₁ :: it, triple :: rest =>
      let tmp := triple.2.2 + masked₀ • triple.2.1
      let tmp := tmp + masked₁ • triple.1
      let tmp := tmp + constant K (masked₀ * masked₁)
      return (tmp, { B with opened := it, triples := rest })
  | _, _ => Local.throw .undefined

end Beaver

section Products
variable [DecidableEq F] (K : Seat n F)

def mulVec (c a b : List (Share F)) : Local n F (List (Share F)) := do
  if b.length < a.length then Local.throw .undefined
  else
    let c := resize c a.length
    let B ← (a.zip b).foldlM (fun B xy => B.prepareMul xy.1 xy.2) Beaver.initMul
    let B ← B.exchange K
    let (products, _) ← Local.forRange (fun _ (c, B) => do
      let (ci, B) ← Beaver.finalizeMul K B
      return (c ++ [ci], B)) 0 (intRounds a.length) ([], B)
    return products ++ c.drop (intRounds a.length)

def dotprod (a b : List (Share F)) : Local n F (Share F) := do
  if b.length < a.length then Local.throw .undefined
  else
    let B ← (a.zip b).foldlM (fun B xy => B.prepareMul xy.1 xy.2) Beaver.initMul
    let B ← B.exchange K
    let (res, _) ← Local.forRange (fun _ (res, B) => do
      let (ci, B) ← Beaver.finalizeMul K B
      return (res + ci, B)) 0 (toInt32 a.length).toNat (0, B)
    return res

def mul (a b : Share F) : Local n F (Share F) := do
  let vc ← mulVec K [] [a] [b]
  Local.index vc 0

def mulInplace (c a : Share F) : Local n F (Share F) := mul K a c
def mulInplaceVec (c a : List (Share F)) : Local n F (List (Share F)) :=
  ((resize c a.length).zip a).mapM fun ca => mulInplace K ca.1 ca.2

def sqr (a : Share F) : Local n F (Share F) := do
  let sp ← Local.getTwo
  let epsilon := a - sp.1
  let vc ← Local.reveal K [epsilon]
  let vc₀ ← Local.index vc 0
  let tmp := mulPlain sp.1 vc₀
  let sp₁ := addInplace sp.2 tmp
  let sp₁ := addInplace sp₁ tmp
  let cp₀ := vc₀ * vc₀
  return addPlain K sp₁ cp₀

def sqrInplace (a : Share F) : Local n F (Share F) := sqr K a

def inv (a : Share F) : Local n F (Share F) := do
  let tmp ← Local.getTwo
  let rshare := tmp.1
  let c ← mul K rshare a
  let ra ← Local.reveal K [c]
  let ra₀ ← Local.index ra 0
  if ra₀ = 0 then Local.throw .division_by_zero
  else
    let ira := ra₀⁻¹
    return mulPlain rshare ira

def invInplace (a : Share F) : Local n F (Share F) := inv K a

def div (a b : Share F) : Local n F (Share F) := do
  let c ← inv K b
  mulInplace K c a

def divInplace (c a : Share F) : Local n F (Share F) := div K c a

end Products

section Legendre
variable {p : Nat} [Fact p.Prime] (K : Seat n (ZMod p))

def legendre (input : Share (ZMod p)) : Local n (ZMod p) Int := do
  let s ← Local.getTwo
  let s₁ ← mulInplace K s.2 input
  let c ← Local.reveal K [s₁]
  let c₀ ← Local.index c 0
  let bn : Int := c₀.val
  return legendreSym p bn

def legendrePrf (key input : Share (ZMod p)) : Local n (ZMod p) Int := do
  let tmp := add key input
  let res ← legendre K tmp
  return prfBit res

end Legendre

section StraightLine
variable [DecidableEq F] (K : Seat n F)

def shared : Family → Share F → Share F → Local n F (Share F)
  | .add, a, b => return add a b
  | .sub, a, b => return sub a b
  | .mul, a, b => mul K a b

def sharedVec : Family → List (Share F) → List (Share F) → List (Share F) →
    Local n F (List (Share F))
  | .add, _, a, b => zipVec add a b
  | .sub, _, a, b => zipVec sub a b
  | .mul, c, a, b => mulVec K c a b

def plain : Family → Share F → F → Share F
  | .add => addPlain K
  | .sub => subPlain K
  | .mul => mulPlain

def plainVec (f : Family) (a : List (Share F)) (b : List F) : Local n F (List (Share F)) :=
  zipVec (plain K f) a b

def inplace : Family → Share F → Share F → Local n F (Share F)
  | .add, c, a => return addInplace c a
  | .sub, c, a => return subInplace c a
  | .mul, c, a => mulInplace K c a

def inplaceVec : Family → List (Share F) → List (Share F) → Local n F (List (Share F))
  | .add, c, a => return zipVecInplace addInplace c a
  | .sub, c, a => return zipVecInplace subInplace c a
  | .mul, c, a => mulInplaceVec K c a

def plainInplace : Family → Share F → F → Share F
  | .add => addPlainInplace K
  | .sub => subPlainInplace K
  | .mul => mulPlainInplace

def plainInplaceVec (f : Family) (c : List (Share F)) (a : List F) : List (Share F) :=
  zipVecInplace (plainInplace K f) c a

def exec : Op F → Registers (Share F) → Local n F (Registers (Share F))
  | .binary f c a b, R => do
      let r ← shared K f (R.reg a) (R.reg b)
      return R.set c r
  | .binaryVec f c a b, R => do
      let fitted := R.fit c a
      let r ← sharedVec K f (fitted.vec c) (fitted.vec a) (fitted.vec b)
      return R.setVec c r
  | .plain f c a b, R => return R.set c (plain K f (R.reg a) b)
  | .plainVec f c a b, R => do
      let r ← plainVec K f (R.vec a) b
      return R.setVec c r
  | .inplace f c a, R => do
      let r ← inplace K f (R.reg c) (R.reg a)
      return R.set c r
  | .inplaceVec f c a, R => do
      let r ← inplaceVec K f (R.vec c) (R.vec a)
      return R.setVec c r
  | .plainInplace f c a, R => return R.set c (plainInplace K f (R.reg c) a)
  | .plainInplaceVec f c a, R => return R.setVec c (plainInplaceVec K f (R.vec c) a)
  | .sqr aa a, R => do
      let r ← sqr K (R.reg a)
      return R.set aa r
  | .sqrInplace a, R => do
      let tmp ← sqr K (R.reg a)
      return R.set a tmp
  | .inv ia a, R => do
      let r ← inv K (R.reg a)
      return R.set ia r
  | .invInplace a, R => do
      let tmp ← inv K (R.reg a)
      return R.set a tmp
  | .div c a b, R => do
      let ib ← inv K (R.reg b)
      let R := R.set c ib
      let r ← mulInplace K (R.reg c) (R.reg a)
      return R.set c r
  | .divInplace c a, R => do
      let tmp ← divInplace K (R.reg c) (R.reg a)
      return R.set c tmp
  | .dotprod a b c, R => do
      let r ← dotprod K (R.vec a) (R.vec b)
      return R.set c r

def execute (ops : List (Op F)) (R : Registers (Share F)) : Local n F (Registers (Share F)) :=
  ops.foldlM (fun R op => exec K op R) R

end StraightLine

end ProofOfCustody.OnlineOp.Local
