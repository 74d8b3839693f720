import Mathlib

/-!
# SPDZ shares and shared values

A party's `Share` is its additive share of a value together with its share of the value's MAC. A
`Shared` value is what the `n` parties hold jointly. Its value and its MAC are linear functions of
the shares, and the values that pass the MAC check form a submodule.
-/

namespace ProofOfCustody.Spdz

@[ext]
structure Share (F : Type) where
  share : F
  mac : F
  deriving DecidableEq

namespace Share
variable {F : Type} [Field F]

instance : Zero (Share F) := ⟨⟨0, 0⟩⟩
instance : Add (Share F) := ⟨fun S₁ S₂ => ⟨S₁.share + S₂.share, S₁.mac + S₂.mac⟩⟩
instance : Sub (Share F) := ⟨fun S₁ S₂ => ⟨S₁.share - S₂.share, S₁.mac - S₂.mac⟩⟩
instance : Neg (Share F) := ⟨fun S => ⟨-S.share, -S.mac⟩⟩
instance {R : Type} [SMul R F] : SMul R (Share F) := ⟨fun aa S => ⟨aa • S.share, aa • S.mac⟩⟩

@[simp] theorem zero_share : (0 : Share F).share = 0 := rfl
@[simp] theorem zero_mac : (0 : Share F).mac = 0 := rfl
@[simp] theorem add_share (x y : Share F) : (x + y).share = x.share + y.share := rfl
@[simp] theorem add_mac (x y : Share F) : (x + y).mac = x.mac + y.mac := rfl
@[simp] theorem sub_share (x y : Share F) : (x - y).share = x.share - y.share := rfl
@[simp] theorem sub_mac (x y : Share F) : (x - y).mac = x.mac - y.mac := rfl
@[simp] theorem smul_share (aa : F) (x : Share F) : (aa • x).share = aa * x.share := rfl
@[simp] theorem smul_mac (aa : F) (x : Share F) : (aa • x).mac = aa * x.mac := rfl

def toProd (x : Share F) : F × F := (x.share, x.mac)

omit [Field F] in
theorem toProd_injective : Function.Injective (toProd (F := F)) :=
  fun _ _ h => Share.ext (congrArg Prod.fst h) (congrArg Prod.snd h)

instance : AddCommGroup (Share F) :=
  toProd_injective.addCommGroup toProd rfl (fun _ _ => rfl) (fun _ => rfl) (fun _ _ => rfl)
    (fun _ _ => rfl) (fun _ _ => rfl)

instance : Module F (Share F) :=
  toProd_injective.module F ⟨⟨toProd, rfl⟩, fun _ _ => rfl⟩ fun _ _ => rfl

/-- A public constant: player 0 adds it to its share, every player adds it to its MAC share. -/
def constant (aa : F) (my_num : Nat) (alphai : F) : Share F :=
  ⟨if my_num = 0 then aa else 0, aa * alphai⟩

end Share

abbrev Shared (n : Nat) (F : Type) := Fin n → Share F

namespace Shared
variable {n : Nat} {F : Type} [Field F]

def val : Shared n F →ₗ[F] F where
  toFun x := ∑ j, (x j).share
  map_add' x y := by simp [Finset.sum_add_distrib]
  map_smul' c x := by simp [Finset.mul_sum]

def macSum : Shared n F →ₗ[F] F where
  toFun x := ∑ j, (x j).mac
  map_add' x y := by simp [Finset.sum_add_distrib]
  map_smul' c x := by simp [Finset.mul_sum]

theorem val_apply (x : Shared n F) : val x = ∑ j, (x j).share := rfl
theorem macSum_apply (x : Shared n F) : macSum x = ∑ j, (x j).mac := rfl

@[simp] theorem val_smul (c : F) (x : Shared n F) : val (c • x) = c * val x := map_smul val c x

def constant (alphai : Fin n → F) (aa : F) : Shared n F :=
  fun j => Share.constant aa j (alphai j)

section Constant
variable (alphai : Fin n → F)

@[simp] theorem val_constant [NeZero n] (aa : F) : val (constant alphai aa) = aa := by
  rw [val_apply, Finset.sum_eq_single 0]
  · simp [constant, Share.constant]
  · intro j _ hj
    simp [constant, Share.constant, Fin.val_eq_zero_iff, hj]
  · simp

theorem smul_constant (c a : F) : c • constant alphai a = constant alphai (c * a) := by
  funext j
  refine Share.ext ?_ (mul_assoc _ _ _).symm
  simp only [constant, Share.constant, Pi.smul_apply, Share.smul_share]
  split <;> simp

theorem constant_neg (a : F) : constant alphai (-a) = -constant alphai a := by
  rw [← neg_one_mul, ← smul_constant, neg_one_smul]

@[simp] theorem constant_zero : constant alphai (0 : F) = 0 := by
  rw [← zero_mul (0 : F), ← smul_constant, zero_smul]

def Authentic : Submodule F (Shared n F) :=
  LinearMap.ker (macSum - (∑ j, alphai j) • val)

theorem mem_authentic {x : Shared n F} :
    x ∈ Authentic alphai ↔ macSum x = (∑ j, alphai j) * val x := by
  rw [Authentic, LinearMap.mem_ker, LinearMap.sub_apply, LinearMap.smul_apply, smul_eq_mul,
    sub_eq_zero]

theorem constant_authentic [NeZero n] (aa : F) : constant alphai aa ∈ Authentic alphai := by
  rw [mem_authentic, val_constant, macSum_apply, Finset.sum_mul]
  exact Finset.sum_congr rfl fun j _ => mul_comm _ _

end Constant

end Shared

end ProofOfCustody.Spdz
