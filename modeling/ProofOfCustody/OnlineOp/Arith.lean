import Mathlib
import ProofOfCustody.OnlineOp.Loops
import ProofOfCustody.Spdz.Online

/-!
# Arithmetic of `OnlineOp`

An output parameter of the source is the returned value here; an operation that keeps some of what
its destination held takes the old value as the first argument. The `k` parameter of the vector
overloads is left out where the source ignores it.
-/

namespace ProofOfCustody.OnlineOp
open Effect Spdz Shared Binary

variable {n : Nat} {F : Type} [Field F] {alphai : Fin n → F} {α β : Type}

def power (a : F) (exp : Nat) : F :=
  let a := if exp = 0 then 0 else a
  let tmp := a
  (List.range' 1 (exp - 1)).foldl (fun a _ => a * tmp) a

def resize [Zero α] (c : List α) (k : Nat) : List α := c.take k ++ List.replicate (k - c.length) 0

/-- The operation on every entry of `a`. The release build leaves out the `assert` of equal sizes and
reads past the end of a shorter `b`. -/
def zipVec (op : Shared n F → β → Shared n F) (a : List (Shared n F)) (b : List β) :
    Online alphai (List (Shared n F)) :=
  if b.length < a.length then Online.throw .undefined else return List.zipWith op a b

/-- `c.resize(a.size())`, then the in-place operation entry by entry. -/
def zipVecInplace (op : Shared n F → β → Shared n F) (c : List (Shared n F)) (a : List β) :
    List (Shared n F) :=
  List.zipWith op (resize c a.length) a

def add (a b : Shared n F) : Shared n F := a + b
def addVec (a b : List (Shared n F)) : Online alphai (List (Shared n F)) := zipVec add a b
def addPlain (alphai : Fin n → F) (a : Shared n F) (b : F) : Shared n F :=
  let sb := constant alphai b
  a + sb
def addPlainVec (a : List (Shared n F)) (b : List F) : Online alphai (List (Shared n F)) :=
  zipVec (addPlain alphai) a b
def addInplace (c a : Shared n F) : Shared n F := c + a
def addInplaceVec (c a : List (Shared n F)) : List (Shared n F) := zipVecInplace addInplace c a
def addPlainInplace (alphai : Fin n → F) (c : Shared n F) (a : F) : Shared n F :=
  let sa := constant alphai a
  c + sa
def addPlainInplaceVec (alphai : Fin n → F) (c : List (Shared n F)) (a : List F) :
    List (Shared n F) :=
  zipVecInplace (addPlainInplace alphai) c a

def sub (a b : Shared n F) : Shared n F := a - b
def subVec (a b : List (Shared n F)) : Online alphai (List (Shared n F)) := zipVec sub a b
def subPlain (alphai : Fin n → F) (a : Shared n F) (b : F) : Shared n F :=
  let sb := constant alphai b
  a - sb
def subPlainVec (a : List (Shared n F)) (b : List F) : Online alphai (List (Shared n F)) :=
  zipVec (subPlain alphai) a b
def subInplace (c a : Shared n F) : Shared n F := c - a
def subInplaceVec (c a : List (Shared n F)) : List (Shared n F) := zipVecInplace subInplace c a
def subPlainInplace (alphai : Fin n → F) (c : Shared n F) (a : F) : Shared n F :=
  let sa := constant alphai a
  c - sa
def subPlainInplaceVec (alphai : Fin n → F) (c : List (Shared n F)) (a : List F) :
    List (Shared n F) :=
  zipVecInplace (subPlainInplace alphai) c a

/-- All products are queued, opened in one exchange and read back in order, which an `int` counts. -/
def mulVec (c a b : List (Shared n F)) : Online alphai (List (Shared n F)) := do
  if b.length < a.length then Online.throw .undefined
  else
    let c := resize c a.length
    let B ← (a.zip b).foldlM (fun B xy => B.prepareMul xy.1 xy.2) Beaver.initMul
    let B ← B.exchange
    let (products, _) ← Program.forRange (fun _ (c, B) => do
      let (ci, B) ← B.finalizeMul
      return (c ++ [ci], B)) 0 (intRounds a.length) ([], B)
    return products ++ c.drop (intRounds a.length)

/-- `next_dotprod` does nothing for Beaver multiplication; `finalize_dotprod` takes the length as an
`int`. -/
def dotprod (a b : List (Shared n F)) : Online alphai (Shared n F) := do
  if b.length < a.length then Online.throw .undefined
  else
    let B ← (a.zip b).foldlM (fun B xy => B.prepareMul xy.1 xy.2) Beaver.initMul
    let B ← B.exchange
    let (res, _) ← Program.forRange (fun _ (res, B) => do
      let (ci, B) ← B.finalizeMul
      return (res + ci, B)) 0 (toInt32 a.length).toNat (0, B)
    return res

def mul (a b : Shared n F) : Online alphai (Shared n F) := do
  let vc ← mulVec [] [a] [b]
  Online.index vc 0

def mulPlain (a : Shared n F) (b : F) : Shared n F := b • a
def mulPlainVec (a : List (Shared n F)) (b : List F) : Online alphai (List (Shared n F)) :=
  zipVec mulPlain a b

def mulInplace (c a : Shared n F) : Online alphai (Shared n F) := mul a c
def mulInplaceVec (c a : List (Shared n F)) : Online alphai (List (Shared n F)) :=
  ((resize c a.length).zip a).mapM fun ca => mulInplace ca.1 ca.2
def mulPlainInplace (c : Shared n F) (a : F) : Shared n F := a • c
def mulPlainInplaceVec (c : List (Shared n F)) (a : List F) : List (Shared n F) :=
  zipVecInplace mulPlainInplace c a

def sqr (a : Shared n F) : Online alphai (Shared n F) := do
  let sp ← Online.getTwo .sqr
  let epsilon := a - sp.a
  let vc ← Online.reveal .sqr [epsilon]
  let vc₀ ← Online.index vc 0
  let tmp := mulPlain sp.a vc₀
  let sp₁ := addInplace sp.aa tmp
  let sp₁ := addInplace sp₁ tmp
  let cp₀ := vc₀ * vc₀
  return addPlain alphai sp₁ cp₀

def sqrInplace (a : Shared n F) : Online alphai (Shared n F) := sqr a

def inv [DecidableEq F] (a : Shared n F) : Online alphai (Shared n F) := do
  let tmp ← Online.getTwo .inv
  let rshare := tmp.a
  let c ← mul rshare a
  let ra ← Online.reveal .inv [c]
  let ra₀ ← Online.index ra 0
  if ra₀ = 0 then Online.throw .division_by_zero
  else
    let ira := ra₀⁻¹
    return mulPlain rshare ira

def invInplace [DecidableEq F] (a : Shared n F) : Online alphai (Shared n F) := inv a

/-- The source writes the inverse to the destination before it reads `a`. -/
def div [DecidableEq F] (a b : Shared n F) : Online alphai (Shared n F) := do
  let c ← inv b
  mulInplace c a

def divInplace [DecidableEq F] (c a : Shared n F) : Online alphai (Shared n F) := div c a

end ProofOfCustody.OnlineOp
