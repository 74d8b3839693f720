import Mathlib
import ProofOfCustody.Curve.Chord
import ProofOfCustody.Curve.Gaussian
import ProofOfCustody.OnlineOp.ComplexSpec

/-!
# The pairing library and the conversion of its points

The libraries are not part of the source: the groups, the hash, the pairing, the printer and the
constructor of big integers are parameters, and `Mcl.Documented` lists what the code relies on.
-/

namespace ProofOfCustody.Bls
open Spdz OnlineOp Curve

structure Mcl (G1 G2 GT : Type) where
  basePointG1 : G1
  hashAndMapTo : String → G2
  pairing : G1 → G2 → GT
  /-- `mclBnG2_getStr` to base 10; the buffer of 512 characters holds every point. -/
  getStr : G2 → List Char
  /-- `mpz_class(str, 10)` -/
  mpzClass : List Char → Except Err Int

def decimal {p : Nat} (x : ZMod p) : List Char := Nat.toDigits 10 x.val

def printed {p : Nat} (x y : Gaussian (ZMod p)) : List Char :=
  '1' :: ' ' :: decimal x.re ++ ' ' :: decimal x.im ++ ' ' :: decimal y.re ++ ' ' :: decimal y.im

section Documented
variable {p r : Nat} [Fact p.Prime] [Gaussian.Irreducible (ZMod p)] [Fact r.Prime]
  {G1 G2 GT : Type} [AddCommGroup G1] [Module (ZMod r) G1] [AddCommGroup G2] [Module (ZMod r) G2]
  [CommGroup GT]

/-- `G1` and `G2` have order `r`, and `point` reads an element of `G2` on the twisted curve. -/
structure Mcl.Documented (mcl : Mcl G1 G2 GT) {b : Gaussian (ZMod p)}
    (point : G2 →+ (short b).Point) : Prop where
  point_injective : Function.Injective point
  pairing_add_left : ∀ P P' Q, mcl.pairing (P + P') Q = mcl.pairing P Q * mcl.pairing P' Q
  pairing_add_right : ∀ P Q Q', mcl.pairing P (Q + Q') = mcl.pairing P Q * mcl.pairing P Q'
  nondegenerate : ∀ Q, mcl.pairing mcl.basePointG1 Q = 1 → Q = 0
  getStr_finite : ∀ P x y h, point P = .some x y h → mcl.getStr P = printed x y
  mpzClass_digits : ∀ a : Nat, mcl.mpzClass (Nat.toDigits 10 a) = .ok a

namespace Mcl.Documented
variable {mcl : Mcl G1 G2 GT} {b : Gaussian (ZMod p)} {point : G2 →+ (short b).Point}
  (documented : mcl.Documented point)
include documented

theorem pairing_zero_left (Q : G2) : mcl.pairing 0 Q = 1 := by
  have twice := documented.pairing_add_left 0 0 Q
  rw [add_zero] at twice
  exact left_eq_mul.1 twice

theorem pairing_zero_right (P : G1) : mcl.pairing P 0 = 1 := by
  have twice := documented.pairing_add_right P 0 0
  rw [add_zero] at twice
  exact left_eq_mul.1 twice

theorem pairing_nsmul (k : Nat) (P : G1) (Q : G2) :
    mcl.pairing (k • P) Q = mcl.pairing P (k • Q) := by
  induction k with
  | zero =>
      rw [zero_smul, zero_smul, documented.pairing_zero_left, documented.pairing_zero_right]
  | succ k ih =>
      rw [succ_nsmul, succ_nsmul, documented.pairing_add_left, documented.pairing_add_right, ih]

theorem pairing_smul (k : ZMod r) (P : G1) (Q : G2) :
    mcl.pairing (k • P) Q = mcl.pairing P (k • Q) := by
  have := documented.pairing_nsmul k.val P Q
  rwa [← Nat.cast_smul_eq_nsmul (ZMod r) k.val P, ← Nat.cast_smul_eq_nsmul (ZMod r) k.val Q,
    ZMod.natCast_zmod_val] at this

theorem pairing_injective {Q Q' : G2}
    (same : mcl.pairing mcl.basePointG1 Q = mcl.pairing mcl.basePointG1 Q') : Q = Q' := by
  have split := documented.pairing_add_right mcl.basePointG1 (Q - Q') Q'
  rw [sub_add_cancel, same] at split
  exact sub_eq_zero.1 (documented.nondegenerate _ (right_eq_mul.1 split))

end Mcl.Documented

end Documented

/-- `l = str.find(" ")`, then `str.substr(0, l)` and `str.substr(l + 1)`. Without a blank `l` is
`-1` and both are the whole string. -/
def splitBlank (str : List Char) : List Char × List Char :=
  match str.findIdx? (· = ' ') with
  | some l => (str.take l, str.drop (l + 1))
  | none => (str, str)

/-- The text after the first two characters, cut at the first three blanks. -/
def mclBnG2ToStr (buf : List Char) : Except Err (List (List Char)) :=
  if buf.length < 2 then throw .undefined
  else
    let str := buf.drop 2
    let (out₀, str) := splitBlank str
    let (out₁, str) := splitBlank str
    let (out₂, str) := splitBlank str
    return [out₀, out₁, out₂, str]

variable {p r : Nat} [Fact p.Prime] {G1 G2 GT : Type}

def mclBnG2ToGfp (mcl : Mcl G1 G2 GT) (buf : List Char) : Except Err (List (ZMod p)) := do
  let str ← mclBnG2ToStr buf
  str.mapM fun s => do
    let bn ← mcl.mpzClass s
    return (bn : ZMod p)

def mclBnG2ToComplexPlain (mcl : Mcl G1 G2 GT) (buf : List Char) :
    Except Err (OnlineOp.Complex (ZMod p) × OnlineOp.Complex (ZMod p)) := do
  match ← mclBnG2ToGfp mcl buf with
  | [vg₀, vg₁, vg₂, vg₃] => return (⟨vg₀, vg₁⟩, ⟨vg₂, vg₃⟩)
  | _ => throw .undefined

theorem not_blank_of_isDigit {c : Char} (digit : c.isDigit) : c ≠ ' ' := by
  rintro rfl
  cases digit

section
omit [Fact p.Prime]

theorem isDigit_of_mem_decimal {x : ZMod p} {c : Char} (mem : c ∈ decimal x) : c.isDigit :=
  Nat.isDigit_of_mem_toDigits (by decide) (by decide) mem

theorem splitBlank_decimal (x : ZMod p) (rest : List Char) :
    splitBlank (decimal x ++ ' ' :: rest) = (decimal x, rest) := by
  have first : (decimal x ++ ' ' :: rest).findIdx? (· = ' ') = some (decimal x).length := by
    rw [List.findIdx?_append, List.findIdx?_eq_none_iff.2]
    · simp [List.findIdx?_cons]
    · intro c mem
      simpa using not_blank_of_isDigit (isDigit_of_mem_decimal mem)
  rw [splitBlank, first]
  simp

end

theorem mclBnG2ToStr_printed (x y : Gaussian (ZMod p)) :
    mclBnG2ToStr (printed x y) = .ok [decimal x.re, decimal x.im, decimal y.re, decimal y.im] := by
  have long : ¬(printed x y).length < 2 := by simp [printed]
  have rest : (printed x y).drop 2 =
      decimal x.re ++ ' ' :: (decimal x.im ++ ' ' :: (decimal y.re ++ ' ' :: decimal y.im)) := by
    simp [printed]
  rw [mclBnG2ToStr, if_neg long, rest]
  simp only [splitBlank_decimal]
  rfl

variable [Fact r.Prime] [Gaussian.Irreducible (ZMod p)] [AddCommGroup G1] [AddCommGroup G2]
  [Module (ZMod r) G2] [CommGroup GT] {mcl : Mcl G1 G2 GT} {b : Gaussian (ZMod p)}
  {point : G2 →+ (short b).Point}

theorem mclBnG2ToComplexPlain_printed (documented : mcl.Documented point) (x y : Gaussian (ZMod p)) :
    mclBnG2ToComplexPlain mcl (printed x y) = .ok (⟨x.re, x.im⟩, ⟨y.re, y.im⟩) := by
  have read (z : ZMod p) : mcl.mpzClass (decimal z) = .ok (z.val : Int) :=
    documented.mpzClass_digits z.val
  have parsed (z : ZMod p) : ((z.val : Int) : ZMod p) = z := by
    rw [Int.cast_natCast, ZMod.natCast_zmod_val]
  have numbers : (mclBnG2ToGfp mcl (printed x y) : Except Err (List (ZMod p))) =
      .ok [x.re, x.im, y.re, y.im] := by
    rw [mclBnG2ToGfp, mclBnG2ToStr_printed]
    simp only [bind, Except.bind, pure, Except.pure, List.mapM_cons, List.mapM_nil, read, parsed]
  rw [mclBnG2ToComplexPlain, numbers]
  rfl

end ProofOfCustody.Bls
