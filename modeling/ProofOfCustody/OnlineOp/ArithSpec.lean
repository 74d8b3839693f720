import Mathlib
import ProofOfCustody.OnlineOp.Arith
import ProofOfCustody.Spdz.Rerandomize

/-!
# What the arithmetic of `OnlineOp` computes and what it opens

Every operation has one specification of the value of its result, whatever material is drawn, and
the multiplications and squarings are coupled with themselves on any other operands.
-/

namespace ProofOfCustody.OnlineOp
open Effect Spdz Shared Binary

variable {n : Nat} {F : Type} [Field F] {alphai : Fin n → F} {α β : Type}

def beaverProduct (t : Triple alphai) (xy : Shared n F × Shared n F) : Shared n F :=
  let masked₀ := val (xy.1 - t.a)
  let masked₁ := val (xy.2 - t.b)
  t.c + masked₀ • t.b + masked₁ • t.a + constant alphai (masked₀ * masked₁)

def beaverOpenings : List (Shared n F × Shared n F) → List (Triple alphai) → List (Shared n F)
  | xy :: xys, t :: ts => (xy.1 - t.a) :: (xy.2 - t.b) :: beaverOpenings xys ts
  | _, _ => []

theorem prepareMul_bind (B : Beaver alphai) (x y : Shared n F)
    (f : Beaver alphai → Online alphai α) :
    B.prepareMul x y >>= f = Program.draw (S := spdz alphai) Site.triple fun t : Triple alphai =>
      f { B with triples := B.triples ++ [t], shares := B.shares ++ [x - t.a, y - t.b] } :=
  rfl

theorem queue_eq (xys : List (Shared n F × Shared n F)) (B : Beaver alphai) :
    xys.foldlM (fun B xy => B.prepareMul xy.1 xy.2) B =
      Program.drawAll (S := spdz alphai) Site.triple xys.length fun (v : Fin _ → Triple alphai) =>
        .ret { B with
          triples := B.triples ++ List.ofFn v
          shares := B.shares ++ beaverOpenings xys (List.ofFn v) } := by
  induction xys generalizing B with
  | nil => simp [Program.drawAll, beaverOpenings]
  | cons xy xys ih =>
      rw [List.foldlM_cons, prepareMul_bind, List.length_cons, Program.drawAll]
      refine congrArg (Program.draw _) (funext fun m => ?_)
      rw [ih]
      congr 1
      funext v
      simp [List.ofFn_succ, beaverOpenings]

theorem finalize_eq (f : α → Shared n F → α) (xys : List (Shared n F × Shared n F))
    (ts : List (Triple alphai)) (same : ts.length = xys.length) (lo : Nat) (c : α)
    (shares : List (Shared n F)) :
    ∃ B, Program.forRange (fun _ (c, B) => do
        let (ci, B) ← B.finalizeMul
        return (f c ci, B)) lo xys.length
          (c, (⟨shares, (beaverOpenings xys ts).map val, ts⟩ : Beaver alphai)) =
      (.ret ((List.zipWith beaverProduct ts xys).foldl f c, B) : Online alphai (α × Beaver alphai)) := by
  induction xys generalizing ts lo c with
  | nil => exact ⟨_, by simp [Program.forRange]; rfl⟩
  | cons xy xys ih =>
      cases ts with
      | nil => simp at same
      | cons t ts =>
          obtain ⟨B, h⟩ := ih ts (by simpa using same) (lo + 1) (f c (beaverProduct t xy))
          refine ⟨B, ?_⟩
          rw [List.length_cons, Program.forRange]
          simp only [Beaver.finalizeMul, beaverOpenings, List.map_cons]
          exact h

theorem foldl_push (xs c : List α) : xs.foldl (fun c ci => c ++ [ci]) c = c ++ xs := by
  induction xs generalizing c with
  | nil => simp
  | cons x xs ih => simp [ih]

theorem beaver_eq (f : α → Shared n F → α) (c : α) {a b : List (Shared n F)}
    (same : a.length = b.length) :
    (do
      let B ← (a.zip b).foldlM (fun B xy => B.prepareMul xy.1 xy.2) Beaver.initMul
      let B ← B.exchange
      let (c, _) ← Program.forRange (fun _ (c, B) => do
        let (ci, B) ← B.finalizeMul
        return (f c ci, B)) 0 a.length (c, B)
      return c : Online alphai α) =
      Program.drawAll (S := spdz alphai) Site.triple a.length fun (v : Fin _ → Triple alphai) =>
        .emitAll ((beaverOpenings (a.zip b) (List.ofFn v)).map fun s => ⟨.beaver, val s⟩)
          (.ret ((List.zipWith beaverProduct (List.ofFn v) (a.zip b)).foldl f c)) := by
  have length : a.length = (a.zip b).length := by simp [same]
  rw [queue_eq, Program.drawAll_bind, length]
  congr 1
  funext v
  obtain ⟨B, h⟩ := finalize_eq f (a.zip b) (List.ofFn v) (by simp) 0 c
    (beaverOpenings (a.zip b) (List.ofFn v))
  simp only [Program.ret_bind, Beaver.exchange, Beaver.initMul, Online.reveal, List.nil_append,
    Program.emitAll_bind, Program.pure_eq] at h ⊢
  rw [h]
  rfl

@[simp] theorem length_resize [Zero α] (c : List α) (k : Nat) : (resize c k).length = k := by
  rw [resize, List.length_append, List.length_take, List.length_replicate]
  omega

theorem resize_drop [Zero α] (c : List α) (k : Nat) : (resize c k).drop k = [] :=
  List.drop_eq_nil_of_le (length_resize c k).le

theorem resize_tail [Zero α] (c : List α) (k : Nat) : ((resize c (k + 1)).drop k).dropLast = [] := by
  rw [← List.length_eq_zero_iff, List.length_dropLast, List.length_drop, length_resize]
  omega

theorem mulVec_eq (c : List (Shared n F)) {a b : List (Shared n F)} (same : a.length = b.length)
    (short : a.length ≤ 2 ^ 31) :
    (mulVec c a b : Online alphai _) =
      Program.drawAll (S := spdz alphai) Site.triple a.length fun (v : Fin _ → Triple alphai) =>
        .emitAll ((beaverOpenings (a.zip b) (List.ofFn v)).map fun s => ⟨.beaver, val s⟩)
          (.ret (List.zipWith beaverProduct (List.ofFn v) (a.zip b))) := by
  rw [mulVec, if_neg (by omega)]
  simp only [intRounds_eq short, resize_drop, List.append_nil]
  refine (beaver_eq (fun c ci => c ++ [ci]) [] same).trans ?_
  simp only [foldl_push, List.nil_append]

theorem dotprod_eq {a b : List (Shared n F)} (same : a.length = b.length)
    (short : a.length < 2 ^ 31) :
    (dotprod a b : Online alphai _) =
      Program.drawAll (S := spdz alphai) Site.triple a.length fun (v : Fin _ → Triple alphai) =>
        .emitAll ((beaverOpenings (a.zip b) (List.ofFn v)).map fun s => ⟨.beaver, val s⟩)
          (.ret (List.zipWith beaverProduct (List.ofFn v) (a.zip b)).sum) := by
  rw [dotprod, if_neg (by omega), toInt32_natCast short, Int.toNat_natCast, beaver_eq (· + ·) 0 same]
  simp [List.sum_eq_foldl]

section Values
variable [NeZero n] {A : Draw (spdz alphai) → Prop} {E : Err → Prop}

theorem beaverProduct_val (t : Triple alphai) (xy : Shared n F × Shared n F) :
    val (beaverProduct t xy) = val xy.1 * val xy.2 := by
  simp only [beaverProduct, map_add, map_sub, val_smul, val_constant, t.product]
  ring

theorem beaverProduct_authentic (t : Triple alphai) (xy : Shared n F × Shared n F) :
    beaverProduct t xy ∈ Authentic alphai := by
  have := t.authentic
  exact add_mem (add_mem (add_mem this.2.2 (Submodule.smul_mem _ _ this.2.1))
    (Submodule.smul_mem _ _ this.1)) (constant_authentic alphai _)

theorem beaverProducts_val (xys : List (Shared n F × Shared n F)) (ts : List (Triple alphai))
    (same : ts.length = xys.length) :
    (List.zipWith beaverProduct ts xys).map val = xys.map fun xy => val xy.1 * val xy.2 := by
  induction xys generalizing ts with
  | nil => simp
  | cons xy xys ih =>
      cases ts with
      | nil => simp at same
      | cons t ts => simp [beaverProduct_val, ih ts (by simpa using same)]

theorem beaverProducts_authentic (xys : List (Shared n F × Shared n F)) (ts : List (Triple alphai)) :
    ∀ c ∈ List.zipWith beaverProduct ts xys, c ∈ Authentic alphai := by
  intro c hc
  obtain ⟨i, _, rfl⟩ := List.getElem_of_mem hc
  rw [List.getElem_zipWith]
  exact beaverProduct_authentic _ _

theorem mulVec_spec (c : List (Shared n F)) {a b : List (Shared n F)} (same : a.length = b.length)
    (short : a.length ≤ 2 ^ 31) :
    Program.Meets A
      (fun c => c.map val = List.zipWith (· * ·) (a.map val) (b.map val) ∧
        ∀ x ∈ c, x ∈ Authentic alphai) E (mulVec c a b : Online alphai _) := by
  rw [mulVec_eq c same short, Program.meets_drawAll]
  intro v _
  rw [Program.meets_emitAll, Program.meets_ret, beaverProducts_val _ _ (by simp [same]),
    List.zipWith_map, ← List.map_uncurry_zip_eq_zipWith]
  exact ⟨rfl, beaverProducts_authentic _ _⟩

theorem mul_spec (a b : Shared n F) :
    Program.Meets A (fun c => val c = val a * val b ∧ c ∈ Authentic alphai) E
      (mul a b : Online alphai _) := by
  refine (mulVec_spec [] (a := [a]) (b := [b]) rfl (by simp)).bind fun c hc => ?_
  obtain ⟨c₀, rfl, value⟩ : ∃ c₀, c = [c₀] ∧ val c₀ = val a * val b := by
    simpa [List.map_eq_cons_iff] using hc.1
  exact ⟨value, hc.2 c₀ (by simp)⟩

theorem mulInplace_spec (c a : Shared n F) :
    Program.Meets A (fun c' => val c' = val c * val a ∧ c' ∈ Authentic alphai) E
      (mulInplace c a : Online alphai _) :=
  (mul_spec a c).imp fun _ h => ⟨h.1.trans (mul_comm _ _), h.2⟩

theorem dotprod_spec {a b : List (Shared n F)} (same : a.length = b.length)
    (short : a.length < 2 ^ 31) :
    Program.Meets A
      (fun c => val c = (List.zipWith (· * ·) (a.map val) (b.map val)).sum ∧
        c ∈ Authentic alphai) E (dotprod a b : Online alphai _) := by
  rw [dotprod_eq same short, Program.meets_drawAll]
  intro v _
  rw [Program.meets_emitAll, Program.meets_ret, map_list_sum,
    beaverProducts_val _ _ (by simp [same]), List.zipWith_map, ← List.map_uncurry_zip_eq_zipWith]
  exact ⟨rfl, list_sum_mem (beaverProducts_authentic _ _)⟩

theorem sqr_spec (a : Shared n F) :
    Program.Meets A (fun aa => val aa = val a * val a ∧ aa ∈ Authentic alphai) E
      (sqr a : Online alphai _) := by
  intro sp _
  refine ⟨?_, ?_⟩
  · simp only [addPlain, addInplace, mulPlain, map_add, map_sub, val_smul, val_constant, sp.square]
    ring
  · have smul := Submodule.smul_mem (Authentic alphai) (val (a - sp.a)) sp.authentic.1
    exact add_mem (add_mem (add_mem sp.authentic.2 smul) smul) (constant_authentic alphai _)

variable [DecidableEq F]

theorem inv_spec (a : Shared n F) :
    Program.Meets A (fun ia => val a ≠ 0 ∧ val ia = (val a)⁻¹ ∧ ia ∈ Authentic alphai)
      (fun e => e = .division_by_zero ∧
        (val a = 0 ∨ ∃ m : Square alphai, A ⟨Site.square .inv, m⟩ ∧ val m.a = 0))
      (inv a : Online alphai _) := by
  intro tmp admitted
  refine (mul_spec tmp.a a).bind fun c hc => ?_
  simp only [Online.meets_reveal, List.map_cons, List.map_nil, Online.index_zero, hc.1]
  change Program.Meets _ _ _ (if _ then _ else _)
  split
  · rename_i zero
    rcases mul_eq_zero.1 zero with masked | value
    · exact ⟨rfl, .inr ⟨tmp, admitted, masked⟩⟩
    · exact ⟨rfl, .inl value⟩
  · rename_i nonzero
    have value : val a ≠ 0 := right_ne_zero_of_mul nonzero
    refine ⟨value, ?_, Submodule.smul_mem _ _ tmp.authentic.1⟩
    rw [mulPlain, val_smul, mul_inv_rev, mul_assoc,
      inv_mul_cancel₀ (left_ne_zero_of_mul nonzero), mul_one]

theorem div_spec (a b : Shared n F) :
    Program.Meets A (fun c => val b ≠ 0 ∧ val c = val a * (val b)⁻¹ ∧ c ∈ Authentic alphai)
      (fun e => e = .division_by_zero ∧
        (val b = 0 ∨ ∃ m : Square alphai, A ⟨Site.square .inv, m⟩ ∧ val m.a = 0))
      (div a b : Online alphai _) := by
  refine (inv_spec b).bind fun c hc => (mulInplace_spec c a).imp fun c' hc' => ?_
  exact ⟨hc.1, by rw [hc'.1, hc.2.1, mul_comm], hc'.2⟩

end Values

section Openings

def Sized (k : Nat) (c c' : List (Shared n F)) : Prop := c.length = k ∧ c'.length = k

theorem beaverOpenings_congr (xys xys' : List (Shared n F × Shared n F))
    (ts ts' : List (Triple alphai)) (same : xys.length = xys'.length)
    (triples : ts.length = xys.length) (triples' : ts'.length = xys.length)
    (masked : ∀ (i : Nat) (h : i < xys.length),
      val (xys[i].1 - ts[i].a) = val (xys'[i].1 - ts'[i].a) ∧
      val (xys[i].2 - ts[i].b) = val (xys'[i].2 - ts'[i].b)) :
    (beaverOpenings xys ts).map val = (beaverOpenings xys' ts').map val := by
  induction xys generalizing xys' ts ts' with
  | nil =>
      obtain rfl : xys' = [] := List.length_eq_zero_iff.1 same.symm
      rfl
  | cons xy xys ih =>
      obtain ⟨xy', xys', rfl⟩ := List.exists_cons_of_length_eq_add_one same.symm
      obtain ⟨t, ts, rfl⟩ := List.exists_cons_of_length_eq_add_one triples
      obtain ⟨t', ts', rfl⟩ := List.exists_cons_of_length_eq_add_one triples'
      have head := masked 0 (by simp)
      have tail := ih xys' ts ts' (by simpa using same) (by simpa using triples)
        (by simpa using triples') fun i h => masked (i + 1) (by simpa using h)
      simp only [List.getElem_cons_zero] at head
      simp only [beaverOpenings, List.map_cons, head.1, head.2, tail]

variable [NeZero n] {sim : Similarity (spdz alphai)}

theorem mulVec_coupled (free : ∀ t t' : Triple alphai, sim Site.triple t t')
    (c : List (Shared n F)) {a b a' b' : List (Shared n F)} (same : a.length = b.length)
    (same' : a'.length = b'.length) (size : a.length = a'.length) (short : a.length ≤ 2 ^ 31) :
    Coupled sim
      (fun c c' => c.map val = List.zipWith (· * ·) (a.map val) (b.map val) ∧
        c'.map val = List.zipWith (· * ·) (a'.map val) (b'.map val))
      (mulVec c a b : Online alphai _) (mulVec c a' b') := by
  have short' := size ▸ short
  have shape : Coupled sim (fun _ _ => True) (mulVec c a b : Online alphai _) (mulVec c a' b') := by
    rw [mulVec_eq c same short, mulVec_eq c same' short', ← size]
    have bound (i : Fin a.length) : i.val < b.length ∧ i.val < a'.length ∧ i.val < b'.length := by
      omega
    refine .draws (S := spdz alphai) Site.triple a.length
      (Equiv.piCongrRight fun i => Triple.shiftEquiv
        (val (a'.get ⟨i, (bound i).2.1⟩) - val (a.get i))
        (val (b'.get ⟨i, (bound i).2.2⟩) - val (b.get ⟨i, (bound i).1⟩)))
      (fun v i => free _ _) fun v => ?_
    have opened := congrArg (List.map (Opening.mk (n := n) .beaver))
      (beaverOpenings_congr (a.zip b) (a'.zip b') (List.ofFn v)
        (List.ofFn fun i => Triple.shiftEquiv
          (val (a'.get ⟨i, (bound i).2.1⟩) - val (a.get i))
          (val (b'.get ⟨i, (bound i).2.2⟩) - val (b.get ⟨i, (bound i).1⟩)) (v i))
        (by simp [← same, ← same', size]) (by simp [same]) (by simp [same]) fun i h => by
          simp only [List.getElem_zip, List.getElem_ofFn, map_sub, Triple.val_shiftEquiv_a,
            Triple.val_shiftEquiv_b, List.get_eq_getElem]
          constructor <;> ring)
    rw [List.map_map, List.map_map] at opened
    exact .emitAll opened (.ret trivial)
  refine (shape.and_meets (E := fun _ => False) (mulVec_spec c same short)
    (mulVec_spec c same' short')).imp fun c c' h => ⟨h.2.1.1, h.2.2.1⟩

theorem mul_coupled (free : ∀ t t' : Triple alphai, sim Site.triple t t') (a b a' b' : Shared n F) :
    Coupled sim (fun c c' => val c = val a * val b ∧ val c' = val a' * val b')
      (mul a b : Online alphai _) (mul a' b') := by
  have same {x y : Shared n F} : [x].length = [y].length := rfl
  refine (mulVec_coupled free [] (same : [a].length = [b].length)
    (same : [a'].length = [b'].length) same (by simp)).bind ?_
  rintro c c' ⟨hc, hc'⟩
  obtain ⟨c₀, rfl, value⟩ : ∃ c₀, c = [c₀] ∧ val c₀ = val a * val b := by
    simpa [List.map_eq_cons_iff] using hc
  obtain ⟨c₀', rfl, value'⟩ : ∃ c₀', c' = [c₀'] ∧ val c₀' = val a' * val b' := by
    simpa [List.map_eq_cons_iff] using hc'
  exact .ret ⟨value, value'⟩

theorem sqr_coupled (free : ∀ t t' : Square alphai, sim (Site.square .sqr) t t')
    (a a' : Shared n F) :
    Coupled sim (fun aa aa' => val aa = val a * val a ∧ val aa' = val a' * val a')
      (sqr a : Online alphai _) (sqr a') := by
  have shape : Coupled sim (fun _ _ => True) (sqr a : Online alphai _) (sqr a') := by
    refine .draw (S := spdz alphai) (Site.square .sqr) (Square.shiftEquiv (val a' - val a))
      (fun t => free _ _) fun t => ?_
    refine (Online.reveal_one_coupled .sqr ?_).bind ?_
    · simp only [map_sub, Square.val_shiftEquiv_a]
      ring
    · rintro r r' ⟨rfl, rfl⟩
      exact .ret trivial
  exact (shape.and_meets (E := fun _ => False) (sqr_spec a) (sqr_spec a')).imp
    fun aa aa' h => ⟨h.2.1.1, h.2.2.1⟩

end Openings

end ProofOfCustody.OnlineOp
