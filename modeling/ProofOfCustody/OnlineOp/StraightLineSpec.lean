import Mathlib
import ProofOfCustody.OnlineOp.BitsSpec
import ProofOfCustody.OnlineOp.StraightLine
import ProofOfCustody.Spdz.Plain

/-!
# The shared run refines the clear run

Every operation keeps the refinement, and it throws in exactly the runs that open a zero product in
an inversion.
-/

namespace ProofOfCustody.OnlineOp
open Effect Spdz Shared

variable {n : Nat} {F : Type} [Field F] {alphai : Fin n → F} {α β γ δ : Type}

theorem represents_iff {s : Shared n F} {v : F} :
    Represents alphai s v ↔ val s = v ∧ s ∈ Authentic alphai := by
  rw [Represents, mem_authentic]
  constructor
  · rintro ⟨rfl, mac⟩
    exact ⟨rfl, mac⟩
  · rintro ⟨rfl, mac⟩
    exact ⟨rfl, mac⟩

theorem Represents.val_eq {s : Shared n F} {v : F} (h : Represents alphai s v) : val s = v := h.1

theorem Represents.add {a b : Shared n F} {x y : F} (ha : Represents alphai a x)
    (hb : Represents alphai b y) : Represents alphai (OnlineOp.add a b) (x + y) := by
  rw [represents_iff] at ha hb ⊢
  exact ⟨(map_add val a b).trans (congrArg₂ _ ha.1 hb.1), add_mem ha.2 hb.2⟩

theorem Represents.sub {a b : Shared n F} {x y : F} (ha : Represents alphai a x)
    (hb : Represents alphai b y) : Represents alphai (OnlineOp.sub a b) (x - y) := by
  rw [represents_iff] at ha hb ⊢
  exact ⟨(map_sub val a b).trans (congrArg₂ _ ha.1 hb.1), sub_mem ha.2 hb.2⟩

theorem forall₂_represents {c : List (Shared n F)} {ys : List F} (values : c.map val = ys)
    (authentic : ∀ s ∈ c, s ∈ Authentic alphai) : List.Forall₂ (Represents alphai) c ys := by
  subst values
  induction c with
  | nil => exact .nil
  | cons s c ih =>
      exact .cons (represents_iff.2 ⟨rfl, authentic s (by simp)⟩)
        (ih fun s hs => authentic s (by simp [hs]))

theorem forall₂_map_val {c : List (Shared n F)} {ys : List F}
    (h : List.Forall₂ (Represents alphai) c ys) : c.map val = ys := by
  induction h with
  | nil => rfl
  | cons head _ ih => rw [List.map_cons, head.val_eq, ih]

theorem forall₂_zipWith {R : α → β → Prop} {T : γ → δ → Prop} {ε ζ : Type} {Q : ε → ζ → Prop}
    {g : α → γ → ε} {g' : β → δ → ζ} (step : ∀ {a b c d}, R a b → T c d → Q (g a c) (g' b d))
    {as : List α} {bs : List β} {cs : List γ} {ds : List δ} (h : List.Forall₂ R as bs)
    (h' : List.Forall₂ T cs ds) : List.Forall₂ Q (List.zipWith g as cs) (List.zipWith g' bs ds) := by
  induction h generalizing cs ds with
  | nil => exact .nil
  | cons head _ ih =>
      cases h' with
      | nil => exact .nil
      | cons head' tail' => exact .cons (step head head') (ih tail')

theorem Refines.same_length {R : Registers (Shared n F)} {x : Registers F}
    (h : Refines alphai R x) {i j : Nat} (equal : (x.vec i).length = (x.vec j).length) :
    (R.vec i).length = (R.vec j).length := by
  rw [(h.vec i).length_eq, (h.vec j).length_eq, equal]

namespace Registers

theorem fit_first [Zero α] (R : Registers α) (c a : Nat) : (R.fit c a).vec a = R.vec a := by
  rw [fit, setVec]
  by_cases same : a = c
  · subst same
    exact (Function.update_self ..).trans (resize_length rfl)
  · exact Function.update_of_ne same _ _

theorem fit_second [Zero α] {R : Registers α} {a b : Nat} (c : Nat)
    (equal : (R.vec a).length = (R.vec b).length) : (R.fit c a).vec b = R.vec b := by
  rw [fit, setVec]
  by_cases same : b = c
  · subst same
    exact (Function.update_self ..).trans (resize_length equal.symm)
  · exact Function.update_of_ne same _ _

theorem update_represents {R : Registers (Shared n F)} {x : Registers F}
    (h : Refines alphai R x) (c : Nat) {s : Shared n F} {v : F} (new : Represents alphai s v) :
    Refines alphai (R.set c s) (x.set c v) := by
  refine ⟨fun i => ?_, h.vec⟩
  by_cases same : i = c
  · subst same
    rw [set_reg, set_reg]
    exact new
  · rw [set_reg_of_ne _ same, set_reg_of_ne _ same]
    exact h.reg i

theorem update_forall₂ {R : Registers (Shared n F)} {x : Registers F} (h : Refines alphai R x)
    (c : Nat) {ss : List (Shared n F)} {vs : List F}
    (new : List.Forall₂ (Represents alphai) ss vs) :
    Refines alphai (R.setVec c ss) (x.setVec c vs) := by
  refine ⟨h.reg, fun i => ?_⟩
  by_cases same : i = c
  · subst same
    simpa [setVec] using new
  · simpa [setVec, same] using h.vec i

end Registers

section Values
variable [NeZero n] {A : Draw (spdz alphai) → Prop} {E : Err → Prop} {a b : Shared n F} {v w : F}

namespace Family

theorem plain_represents (f : Family) (h : Represents alphai a v) (b : F) :
    Represents alphai (f.plain alphai a b) (f.inClear v b) := by
  rw [represents_iff] at h ⊢
  obtain ⟨rfl, authentic⟩ := h
  cases f with
  | add => exact ⟨by simp [plain, addPlain, inClear], add_mem authentic (constant_authentic _ _)⟩
  | sub => exact ⟨by simp [plain, subPlain, inClear], sub_mem authentic (constant_authentic _ _)⟩
  | mul =>
      exact ⟨by simp [plain, mulPlain, inClear, mul_comm], Submodule.smul_mem _ _ authentic⟩

omit [NeZero n] in
theorem plainInplace_eq (f : Family) (c : Shared n F) (a : F) :
    f.plainInplace alphai c a = f.plain alphai c a := by
  cases f <;> rfl

theorem shared_spec (f : Family) (ha : Represents alphai a v) (hb : Represents alphai b w) :
    Program.Meets A (Represents alphai · (f.inClear v w)) E (f.shared a b : Online alphai _) := by
  cases f with
  | add => exact ha.add hb
  | sub => exact ha.sub hb
  | mul =>
      refine (mul_spec a b).imp fun c h => represents_iff.2 ?_
      rwa [ha.val_eq, hb.val_eq] at h

theorem inplace_spec (f : Family) (hc : Represents alphai a v) (ha : Represents alphai b w) :
    Program.Meets A (Represents alphai · (f.inClear v w)) E (f.inplace a b : Online alphai _) := by
  cases f with
  | add => exact shared_spec .add hc ha
  | sub => exact shared_spec .sub hc ha
  | mul =>
      refine (mulInplace_spec a b).imp fun c h => represents_iff.2 ?_
      rwa [hc.val_eq, ha.val_eq] at h

variable {as bs : List (Shared n F)} {xs ys : List F}

omit [NeZero n] in
theorem zipVec_spec {op : Shared n F → β → Shared n F} {g : F → β → F}
    (step : ∀ a x b, Represents alphai a x → Represents alphai (op a b) (g x b))
    (h : List.Forall₂ (Represents alphai) as xs) {bs : List β} (same : as.length = bs.length) :
    Program.Meets A (List.Forall₂ (Represents alphai) · (List.zipWith g xs bs)) E
      (zipVec op as bs : Online alphai _) := by
  rw [zipVec_eq same]
  refine forall₂_zipWith (T := Eq) (fun {a x b b'} ha hb => ?_) h (List.forall₂_refl bs)
  subst hb
  exact step a x b ha

theorem plainVec_spec (f : Family) (h : List.Forall₂ (Represents alphai) as xs)
    (same : as.length = ys.length) :
    Program.Meets A (List.Forall₂ (Represents alphai) · (List.zipWith f.inClear xs ys)) E
      (f.plainVec as ys : Online alphai _) := by
  have step (a x b) (ha : Represents alphai a x) := plain_represents f ha b
  cases f <;> exact zipVec_spec step h same

theorem plainInplaceVec_represents (f : Family) (h : List.Forall₂ (Represents alphai) as xs)
    (same : as.length = ys.length) :
    List.Forall₂ (Represents alphai) (f.plainInplaceVec alphai as ys)
      (List.zipWith f.inClear xs ys) := by
  have zip : f.plainInplaceVec alphai as ys = List.zipWith (f.plain alphai) as ys := by
    cases f <;> exact congrArg (List.zipWith _ · ys) (resize_length same)
  rw [zip]
  refine forall₂_zipWith (T := Eq) (fun {a x b b'} ha hb => ?_) h (List.forall₂_refl ys)
  subst hb
  exact plain_represents f ha b

theorem sharedVec_spec (f : Family) (cs : List (Shared n F))
    (ha : List.Forall₂ (Represents alphai) as xs) (hb : List.Forall₂ (Represents alphai) bs ys)
    (same : as.length = bs.length) (counted : f = .mul → as.length ≤ 2 ^ 31) :
    Program.Meets A (List.Forall₂ (Represents alphai) · (List.zipWith f.inClear xs ys)) E
      (f.sharedVec cs as bs : Online alphai _) := by
  cases f with
  | add =>
      rw [sharedVec, addVec, zipVec_eq same]
      exact forall₂_zipWith Represents.add ha hb
  | sub =>
      rw [sharedVec, subVec, zipVec_eq same]
      exact forall₂_zipWith Represents.sub ha hb
  | mul =>
      refine (mulVec_spec cs same (counted rfl)).imp fun c h => forall₂_represents ?_ h.2
      rw [h.1, forall₂_map_val ha, forall₂_map_val hb]
      rfl

theorem mulInplaces_spec (hc : List.Forall₂ (Represents alphai) as xs)
    (ha : List.Forall₂ (Represents alphai) bs ys) :
    Program.Meets A (List.Forall₂ (Represents alphai) · (List.zipWith (· * ·) xs ys)) E
      ((as.zip bs).mapM fun ca => mulInplace ca.1 ca.2 : Online alphai _) := by
  induction hc generalizing bs ys with
  | nil => exact .nil
  | cons head _ ih =>
      cases ha with
      | nil => exact .nil
      | cons head' tail' =>
          rw [List.zip_cons_cons, List.mapM_cons]
          exact (inplace_spec .mul head head').bind fun c hc =>
            (ih tail').bind fun cs hcs => List.Forall₂.cons hc hcs

theorem inplaceVec_spec (f : Family) (hc : List.Forall₂ (Represents alphai) as xs)
    (ha : List.Forall₂ (Represents alphai) bs ys) (same : as.length = bs.length) :
    Program.Meets A (List.Forall₂ (Represents alphai) · (List.zipWith f.inClear xs ys)) E
      (f.inplaceVec as bs : Online alphai _) := by
  cases f with
  | add =>
      rw [inplaceVec, addInplaceVec, zipVecInplace, resize_length same]
      exact forall₂_zipWith Represents.add hc ha
  | sub =>
      rw [inplaceVec, subInplaceVec, zipVecInplace, resize_length same]
      exact forall₂_zipWith Represents.sub hc ha
  | mul =>
      rw [inplaceVec, mulInplaceVec, resize_length same]
      exact mulInplaces_spec hc ha

end Family

variable [DecidableEq F] {R : Registers (Shared n F)} {x : Registers F}

def Follows (alphai : Fin n → F) (o : Option (Registers F)) (R : Registers (Shared n F)) : Prop :=
  ∃ y, o = some y ∧ Refines alphai R y

omit [NeZero n] [DecidableEq F] in
theorem Refines.written {o : Option (Registers F)} (h : Refines alphai R x) {c : Nat} {v : F}
    (clear : o = some (x.set c v)) {p : Online alphai (Shared n F)}
    (meets : p.Meets A (Represents alphai · v) E) :
    Program.Meets A (Follows alphai o) E (p >>= fun r => return R.set c r) :=
  meets.bind fun _ new => ⟨_, clear, Registers.update_represents h c new⟩

omit [NeZero n] [DecidableEq F] in
theorem Refines.writtenVec {o : Option (Registers F)} (h : Refines alphai R x) {c : Nat}
    {vs : List F} (clear : o = some (x.setVec c vs)) {p : Online alphai (List (Shared n F))}
    (meets : p.Meets A (List.Forall₂ (Represents alphai) · vs) E) :
    Program.Meets A (Follows alphai o) E (p >>= fun r => return R.setVec c r) :=
  meets.bind fun _ new => ⟨_, clear, Registers.update_forall₂ h c new⟩

omit [DecidableEq F] in
theorem sqr_represents (h : Represents alphai a v) :
    Program.Meets A (Represents alphai · (v * v)) E (sqr a : Online alphai _) := by
  refine (sqr_spec a).imp fun c hc => represents_iff.2 ?_
  rwa [h.val_eq] at hc

omit [DecidableEq F] in
theorem dotprod_represents {as bs : List (Shared n F)} {xs ys : List F}
    (ha : List.Forall₂ (Represents alphai) as xs) (hb : List.Forall₂ (Represents alphai) bs ys)
    (same : as.length = bs.length) (counted : as.length < 2 ^ 31) :
    Program.Meets A (Represents alphai · (List.zipWith (· * ·) xs ys).sum) E
      (dotprod as bs : Online alphai _) := by
  refine (dotprod_spec same counted).imp fun c hc => represents_iff.2 ?_
  rwa [forall₂_map_val ha, forall₂_map_val hb] at hc

theorem inv_represents (h : Represents alphai a v) :
    Program.Meets A (fun c => v ≠ 0 ∧ Represents alphai c v⁻¹) (· = .division_by_zero)
      (inv a : Online alphai _) := by
  refine (inv_spec a).mono (fun _ h => h) (fun c hc => ?_) fun e he => he.1
  rw [h.val_eq] at hc
  exact ⟨hc.1, represents_iff.2 hc.2⟩

theorem divInplace_represents (ha : Represents alphai a v) (hb : Represents alphai b w) :
    Program.Meets A (fun c => w ≠ 0 ∧ Represents alphai c (v / w)) (· = .division_by_zero)
      (divInplace a b : Online alphai _) := by
  refine (div_spec a b).mono (fun _ h => h) (fun c hc => ?_) fun e he => he.1
  rw [ha.val_eq, hb.val_eq, ← div_eq_mul_inv] at hc
  exact ⟨hc.1, represents_iff.2 hc.2⟩

theorem div_follows (h : Refines alphai R x) (c a b : Nat) :
    Program.Meets A (fun R' => x.reg b ≠ 0 ∧
        Refines alphai R' (x.set c ((x.reg b)⁻¹ * (x.set c (x.reg b)⁻¹).reg a)))
      (· = .division_by_zero) ((Op.div c a b).exec R : Online alphai _) := by
  refine (inv_represents (h.reg b)).bind fun ib hib => ?_
  have first := Registers.update_represents h c hib.2
  have factor := first.reg c
  rw [Registers.set_reg x] at factor
  refine (Family.inplace_spec .mul factor (first.reg a)).bind fun r hr => ⟨hib.1, ?_⟩
  have second := Registers.update_represents first c hr
  rw [Registers.set_set x] at second
  exact second

omit [DecidableEq F] in
theorem quotient_eq {x : Registers F} {c a b : Nat} (nonzero : x.reg b ≠ 0) :
    (x.reg b)⁻¹ * (x.set c (x.reg b)⁻¹).reg a = x.reg a / x.reg b ↔
      (Op.div c a b).KeepsNumerator x := by
  rw [div_eq_mul_inv, mul_comm]
  by_cases same : c = a
  · subst same
    rw [Registers.set_reg, mul_left_inj' (inv_ne_zero nonzero)]
    constructor
    · intro inverse _
      exact .inr (by rw [← inverse, inv_mul_cancel₀ nonzero])
    · intro keeps
      exact (eq_inv_of_mul_eq_one_left ((keeps rfl).resolve_left nonzero)).symm
  · rw [Registers.set_reg_of_ne _ (Ne.symm same)]
    exact ⟨fun _ eq => absurd eq same, fun _ => rfl⟩

theorem exec_spec (op : Op F) (h : Refines alphai R x) (equal : op.EqualLength x)
    (counted : op.Counted x) (keeps : op.KeepsNumerator x) :
    Program.Meets A (Follows alphai (op.inClear x)) (· = .division_by_zero)
      (op.exec R : Online alphai _) := by
  cases op with
  | binary f c a b => exact h.written rfl (f.shared_spec (h.reg a) (h.reg b))
  | binaryVec f c a b =>
      have same := h.same_length equal
      refine h.writtenVec rfl ?_
      rw [Registers.fit_first, Registers.fit_second c same]
      exact f.sharedVec_spec _ (h.vec a) (h.vec b) same fun mul =>
        (h.vec a).length_eq.trans_le (counted mul)
  | plain f c a b => exact ⟨_, rfl, Registers.update_represents h c (f.plain_represents (h.reg a) b)⟩
  | plainVec f c a b =>
      exact h.writtenVec rfl (f.plainVec_spec (h.vec a) ((h.vec a).length_eq.trans equal))
  | inplace f c a => exact h.written rfl (f.inplace_spec (h.reg c) (h.reg a))
  | inplaceVec f c a =>
      exact h.writtenVec rfl (f.inplaceVec_spec (h.vec c) (h.vec a) (h.same_length equal))
  | plainInplace f c a =>
      refine ⟨_, rfl, Registers.update_represents h c ?_⟩
      rw [f.plainInplace_eq]
      exact f.plain_represents (h.reg c) a
  | plainInplaceVec f c a =>
      exact ⟨_, rfl, Registers.update_forall₂ h c
        (f.plainInplaceVec_represents (h.vec c) ((h.vec c).length_eq.trans equal))⟩
  | sqr aa a => exact h.written rfl (sqr_represents (h.reg a))
  | sqrInplace a => exact h.written rfl (sqr_represents (h.reg a))
  | inv ia a =>
      refine (inv_represents (h.reg a)).bind fun r hr => ?_
      exact ⟨_, if_neg hr.1, Registers.update_represents h ia hr.2⟩
  | invInplace a =>
      refine (inv_represents (h.reg a)).bind fun r hr => ?_
      exact ⟨_, if_neg hr.1, Registers.update_represents h a hr.2⟩
  | div c a b =>
      refine (div_follows h c a b).imp fun R' hR => ?_
      rw [(quotient_eq hR.1).2 keeps] at hR
      exact ⟨_, if_neg hR.1, hR.2⟩
  | divInplace c a =>
      refine (divInplace_represents (h.reg c) (h.reg a)).bind fun r hr => ?_
      exact ⟨_, if_neg hr.1, Registers.update_represents h c hr.2⟩
  | dotprod a b c =>
      exact h.written rfl (dotprod_represents (h.vec a) (h.vec b) (h.same_length equal)
        ((h.vec a).length_eq.trans_lt counted))

theorem exec_exact (op : Op F) (h : Refines alphai R x) (equal : op.EqualLength x)
    (counted : op.Counted x) (t : Tape (spdz alphai)) {R' : Registers (Shared n F)}
    (returned : ((op.exec R).run t).result = .ok R') :
    Follows alphai (op.inClear x) R' ↔ op.KeepsNumerator x := by
  constructor
  · rintro ⟨y, clear, refines⟩
    cases op with
    | div c a b =>
        obtain ⟨nonzero, left⟩ := (div_follows h c a b).returned (fun _ _ => trivial) returned
        rw [Op.inClear, if_neg nonzero] at clear
        cases clear
        rw [← quotient_eq nonzero]
        have eq := (left.reg c).val_eq.symm.trans (refines.reg c).val_eq
        rwa [Registers.set_reg, Registers.set_reg] at eq
    | _ => trivial
  · intro keeps
    exact (exec_spec op h equal counted keeps).returned (fun _ _ => trivial) returned

def ZeroProduct (v : Opening n F) : Prop := v = ⟨.inv, 0⟩

omit [NeZero n] [DecidableEq F] in
theorem beaver_silent (shares : List (Shared n F)) :
    ∀ v ∈ shares.map fun s => (⟨.beaver, val s⟩ : Opening n F), ¬ZeroProduct v := by
  intro v opened
  obtain ⟨s, _, rfl⟩ := List.mem_map.1 opened
  nofun

omit [NeZero n] [DecidableEq F] in
theorem mulVec_signals (c : List (Shared n F)) {a b : List (Shared n F)}
    (same : a.length = b.length) (short : a.length ≤ 2 ^ 31) :
    Program.Signals ZeroProduct (mulVec c a b : Online alphai _) := by
  rw [mulVec_eq c same short]
  exact Program.signals_drawAll fun v =>
    Program.signals_emitAll (beaver_silent _) (Program.signals_ret _)

omit [NeZero n] [DecidableEq F] in
theorem dotprod_signals {a b : List (Shared n F)} (same : a.length = b.length)
    (short : a.length < 2 ^ 31) :
    Program.Signals ZeroProduct (dotprod a b : Online alphai _) := by
  rw [dotprod_eq same short]
  exact Program.signals_drawAll fun v =>
    Program.signals_emitAll (beaver_silent _) (Program.signals_ret _)

omit [DecidableEq F] in
theorem mul_signals (a b : Shared n F) : Program.Signals ZeroProduct (mul a b : Online alphai _) := by
  have one : ([a] : List (Shared n F)).length = [b].length := rfl
  refine (mulVec_signals [] one (by simp)).bind_meets (E := fun _ => False)
    (mulVec_spec [] one (by simp)) fun c hc => ?_
  have size : c.length = 1 := by simpa using congrArg List.length hc.1
  rw [Online.index_of_lt (by omega)]
  exact Program.signals_ret _

omit [DecidableEq F] in
theorem mulInplace_signals (c a : Shared n F) :
    Program.Signals ZeroProduct (mulInplace c a : Online alphai _) :=
  mul_signals a c

omit [NeZero n] [DecidableEq F] in
theorem sqr_signals (a : Shared n F) : Program.Signals ZeroProduct (sqr a : Online alphai _) :=
  Program.signals_draw (S := spdz alphai) (s := Site.square .sqr) fun _ =>
    Program.signals_emit nofun (Program.signals_ret _)

theorem inv_signals (a : Shared n F) : Program.Signals ZeroProduct (inv a : Online alphai _) := by
  refine Program.signals_draw (S := spdz alphai) (s := Site.square .inv) fun tmp => ?_
  refine (mul_signals tmp.a a).bind fun c => ?_
  refine Program.signals_check (S := spdz alphai) (v := ⟨.inv, val c⟩) ?_ _ _
  simp [ZeroProduct]

namespace Family

omit [DecidableEq F] in
theorem shared_signals (f : Family) (a b : Shared n F) :
    Program.Signals ZeroProduct (f.shared a b : Online alphai _) := by
  cases f with
  | add => exact Program.signals_ret _
  | sub => exact Program.signals_ret _
  | mul => exact mul_signals a b

omit [DecidableEq F] in
theorem inplace_signals (f : Family) (c a : Shared n F) :
    Program.Signals ZeroProduct (f.inplace c a : Online alphai _) := by
  cases f with
  | add => exact Program.signals_ret _
  | sub => exact Program.signals_ret _
  | mul => exact mulInplace_signals c a

omit [NeZero n] [DecidableEq F] in
theorem zipVec_signals {op : Shared n F → β → Shared n F} {as : List (Shared n F)} {bs : List β}
    (same : as.length = bs.length) :
    Program.Signals ZeroProduct (zipVec op as bs : Online alphai _) := by
  rw [zipVec_eq same]
  exact Program.signals_ret _

omit [NeZero n] [DecidableEq F] in
theorem sharedVec_signals (f : Family) (cs : List (Shared n F)) {as bs : List (Shared n F)}
    (same : as.length = bs.length) (counted : f = .mul → as.length ≤ 2 ^ 31) :
    Program.Signals ZeroProduct (f.sharedVec cs as bs : Online alphai _) := by
  cases f with
  | add => exact zipVec_signals same
  | sub => exact zipVec_signals same
  | mul => exact mulVec_signals cs same (counted rfl)

omit [NeZero n] [DecidableEq F] in
theorem plainVec_signals (f : Family) {as : List (Shared n F)} {bs : List F}
    (same : as.length = bs.length) :
    Program.Signals ZeroProduct (f.plainVec as bs : Online alphai _) := by
  cases f <;> exact zipVec_signals same

omit [DecidableEq F] in
theorem inplaceVec_signals (f : Family) (cs as : List (Shared n F)) :
    Program.Signals ZeroProduct (f.inplaceVec cs as : Online alphai _) := by
  cases f with
  | add => exact Program.signals_ret _
  | sub => exact Program.signals_ret _
  | mul => exact Program.signals_mapM _ fun ca => mulInplace_signals ca.1 ca.2

end Family

theorem divInplace_signals (c a : Shared n F) :
    Program.Signals ZeroProduct (divInplace c a : Online alphai _) :=
  (inv_signals a).bind fun ia => mulInplace_signals ia c

theorem exec_signals (op : Op F) (h : Refines alphai R x) (equal : op.EqualLength x)
    (counted : op.Counted x) :
    Program.Signals ZeroProduct (op.exec R : Online alphai _) := by
  have written {β : Type} {p : Online alphai β} {f : β → Registers (Shared n F)}
      (signals : Program.Signals ZeroProduct p) :
      Program.Signals ZeroProduct (p >>= fun r => return f r) :=
    signals.bind fun _ => Program.signals_ret _
  cases op with
  | binary f c a b => exact written (f.shared_signals _ _)
  | binaryVec f c a b =>
      have same := h.same_length equal
      refine written ?_
      rw [Registers.fit_first, Registers.fit_second c same]
      exact f.sharedVec_signals _ same fun mul => (h.vec a).length_eq.trans_le (counted mul)
  | plain f c a b => exact Program.signals_ret _
  | plainVec f c a b => exact written (f.plainVec_signals ((h.vec a).length_eq.trans equal))
  | inplace f c a => exact written (f.inplace_signals _ _)
  | inplaceVec f c a => exact written (f.inplaceVec_signals _ _)
  | plainInplace f c a => exact Program.signals_ret _
  | plainInplaceVec f c a => exact Program.signals_ret _
  | sqr aa a => exact written (sqr_signals _)
  | sqrInplace a => exact written (sqr_signals _)
  | inv ia a => exact written (inv_signals _)
  | invInplace a => exact written (inv_signals _)
  | div c a b => exact (inv_signals _).bind fun ib => written (mulInplace_signals _ _)
  | divInplace c a => exact written (divInplace_signals _ _)
  | dotprod a b c =>
      exact written (dotprod_signals (h.same_length equal) ((h.vec a).length_eq.trans_lt counted))

/-! ## Runs -/

omit [NeZero n] in
theorem execute_cons (op : Op F) (ops : List (Op F)) (R : Registers (Shared n F)) :
    (execute (op :: ops) R : Online alphai _) = op.exec R >>= execute ops :=
  List.foldlM_cons

theorem evaluate_cons {op : Op F} {y : Registers F} (clear : op.inClear x = some y)
    (ops : List (Op F)) : evaluate (op :: ops) x = evaluate ops y := by
  rw [evaluate, List.foldlM_cons, clear]
  rfl

theorem Along.take {P : Op F → Registers F → Prop} {ops : List (Op F)} (h : Along P ops x)
    (k : Nat) : Along P (ops.take k) x := by
  induction ops generalizing x k with
  | nil => rwa [List.take_nil]
  | cons op ops ih =>
      cases k with
      | zero => trivial
      | succ k => exact ⟨h.1, fun y clear => ih (h.2 y clear) k⟩

theorem execute_spec {ops : List (Op F)} (h : Refines alphai R x)
    (equal : Along Op.EqualLength ops x) (counted : Along Op.Counted ops x)
    (keeps : Along Op.KeepsNumerator ops x) :
    Program.Meets A (Follows alphai (evaluate ops x)) (· = .division_by_zero)
      (execute ops R : Online alphai _) := by
  induction ops generalizing R x with
  | nil => exact ⟨x, rfl, h⟩
  | cons op ops ih =>
      rw [execute_cons]
      refine (exec_spec op h equal.1 counted.1 keeps.1).bind fun R' follows => ?_
      obtain ⟨y, clear, refines⟩ := follows
      rw [evaluate_cons clear]
      exact ih refines (equal.2 y clear) (counted.2 y clear) (keeps.2 y clear)

theorem execute_signals {ops : List (Op F)} (h : Refines alphai R x)
    (equal : Along Op.EqualLength ops x) (counted : Along Op.Counted ops x)
    (keeps : Along Op.KeepsNumerator ops x) :
    Program.Signals ZeroProduct (execute ops R : Online alphai _) := by
  induction ops generalizing R x with
  | nil => exact Program.signals_ret _
  | cons op ops ih =>
      rw [execute_cons]
      refine (exec_signals op h equal.1 counted.1).bind_meets
        (exec_spec op h equal.1 counted.1 keeps.1) ?_
      rintro R' ⟨y, clear, refines⟩
      exact ih refines (equal.2 y clear) (counted.2 y clear) (keeps.2 y clear)

end Values

end ProofOfCustody.OnlineOp
