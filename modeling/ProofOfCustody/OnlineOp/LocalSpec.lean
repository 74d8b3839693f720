import Mathlib
import ProofOfCustody.OnlineOp.Local
import ProofOfCustody.OnlineOp.StraightLineSpec

/-!
# The players compute what the joint execution computes

Every operation on the shares of the players localizes the operation on shared values.
-/

namespace ProofOfCustody.OnlineOp.Local
open Effect Spdz Network Networking Binary

variable {n : Nat} {F : Type} [Field F] {alphai : Fin n → F} {α β : Type}

abbrev own (i : Fin n) (s : Shared n F) : Share F := s i
abbrev ownVec (i : Fin n) (s : List (Shared n F)) : List (Share F) := s.map (own i)

abbrev seat (O : Outside F) (T : TreeSum n) (alphai : Fin n → F) (i : Fin n) : Seat n F :=
  ⟨O, T, i, alphai i⟩

variable [DecidableEq F] {O : Outside F} {T : TreeSum n} {W : Submodule F (Shared n F)}

omit [DecidableEq F] in
theorem constant_mem (covers : Shared.Authentic alphai ≤ W) (a : F) :
    Shared.constant alphai a ∈ W := by
  cases n with
  | zero =>
      rw [Subsingleton.elim (Shared.constant alphai a) 0]
      exact zero_mem W
  | succ n => exact covers (Shared.constant_authentic alphai a)

def Beaver.part (i : Fin n) (B : Spdz.Beaver alphai) : Beaver F :=
  ⟨ownVec i B.shares, B.opened, B.triples.map (Kind.part i .triple)⟩

structure Beaver.Queued (W : Submodule F (Shared n F)) (k : Nat) (B : Spdz.Beaver alphai) : Prop where
  length : B.shares.length = 2 * k
  inside : ∀ s ∈ B.shares, s ∈ W

omit [DecidableEq F] in
theorem own_resize (i : Fin n) (c : List (Shared n F)) (k : Nat) :
    resize (ownVec i c) k = ownVec i (resize c k) := by
  simp only [resize, ownVec, List.length_map, List.map_append, List.map_take, List.map_replicate]
  rfl

omit [DecidableEq F] in
theorem resize_mem {c : List (Shared n F)} (inside : ∀ s ∈ c, s ∈ W) (k : Nat) :
    ∀ s ∈ resize c k, s ∈ W := by
  intro s member
  rw [resize, List.mem_append] at member
  rcases member with kept | new
  · exact inside s (List.mem_of_mem_take kept)
  · rw [List.eq_of_mem_replicate new]
    exact zero_mem W

section Network
variable {m : Nat} (limits : Limits O T m) (pair : 2 ≤ m)
  (covers : Shared.Authentic alphai ≤ W)

section Queue
include covers

theorem prepareMul_localizes {k : Nat} {B : Spdz.Beaver alphai} (queued : Beaver.Queued W k B)
    {x y : Shared n F} (hx : x ∈ W) (hy : y ∈ W) :
    Localizes O W (Beaver.Queued W (k + 1)) Beaver.part (B.prepareMul x y) fun i =>
      (Beaver.part i B).prepareMul (x i) (y i) := by
  refine (Localizes.take Site.triple).bind fun t _ => .ret_of ⟨?_, ?_⟩ fun i => ?_
  · rw [List.length_append, queued.length]
    rfl
  · have := t.authentic
    simp only [List.forall_mem_append, List.forall_mem_cons]
    exact ⟨queued.inside, sub_mem hx (covers this.1), sub_mem hy (covers this.2.1), nofun⟩
  · simp only [Beaver.part, ownVec, List.map_append]
    rfl

theorem finalizeMul_localizes (B : Spdz.Beaver alphai) :
    Localizes O W (fun r => r.1 ∈ W) (fun i r => (own i r.1, Beaver.part i r.2)) B.finalizeMul
      fun i => Beaver.finalizeMul (seat O T alphai i) (Beaver.part i B) := by
  obtain ⟨shares, opened, triples⟩ := B
  cases opened with
  | nil => exact .throw .undefined
  | cons masked₀ opened =>
      cases opened with
      | nil => exact .throw .undefined
      | cons masked₁ it =>
          cases triples with
          | nil => exact .throw .undefined
          | cons triple rest =>
              have := triple.authentic
              refine .ret_of ?_ fun i => rfl
              exact add_mem (add_mem (add_mem (covers this.2.2) (W.smul_mem _ (covers this.2.1)))
                (W.smul_mem _ (covers this.1))) (constant_mem covers _)

end Queue

include limits

theorem exchange_localizes {k : Nat} {B : Spdz.Beaver alphai} (queued : Beaver.Queued W k B)
    (short : 2 * k ≤ m) :
    Localizes O W (fun _ => True) Beaver.part B.exchange fun i =>
      (Beaver.part i B).exchange (seat O T alphai i) :=
  (Localizes.reveal limits rfl queued.inside (queued.length ▸ short)).bind fun _ _ =>
    .ret_of trivial fun _ => rfl

include covers

theorem products_localizes {γ δ : Type} (Q : Nat → γ → Prop) (f : γ → Shared n F → γ)
    (f' : δ → Share F → δ) (part : Fin n → γ → δ) (keeps : ∀ l c, ∀ x ∈ W, Q l c → Q (l + 1) (f c x))
    (own_f : ∀ i c x, f' (part i c) (own i x) = part i (f c x)) {c : γ} (start : Q 0 c)
    {a b : List (Shared n F)} (short : 2 * a.length ≤ m) (ha : ∀ s ∈ a, s ∈ W) (hb : ∀ s ∈ b, s ∈ W)
    (rounds : Nat) :
    Localizes O W (Q rounds) part
      (do
        let B ← (a.zip b).foldlM (fun B xy => B.prepareMul xy.1 xy.2) Spdz.Beaver.initMul
        let B ← B.exchange
        let (c, _) ← Program.forRange (fun _ (c, B) => do
          let (ci, B) ← B.finalizeMul
          return (f c ci, B)) 0 rounds (c, B)
        return c : Online alphai γ)
      fun i => do
        let B ← ((ownVec i a).zip (ownVec i b)).foldlM (fun B xy => B.prepareMul xy.1 xy.2)
          Beaver.initMul
        let B ← B.exchange (seat O T alphai i)
        let (c, _) ← Local.forRange (fun _ (c, B) => do
          let (ci, B) ← Beaver.finalizeMul (seat O T alphai i) B
          return (f' c ci, B)) 0 rounds (part i c, B)
        return c := by
  have queued : Localizes O W (Beaver.Queued W (0 + (a.zip b).length)) Beaver.part
      ((a.zip b).foldlM (fun B xy => B.prepareMul xy.1 xy.2) Spdz.Beaver.initMul :
        Online alphai (Spdz.Beaver alphai)) fun i =>
        ((ownVec i a).zip (ownVec i b)).foldlM (fun B xy => B.prepareMul xy.1 xy.2)
          Beaver.initMul := by
    refine (Localizes.foldlM (f := fun i xy => (own i xy.1, own i xy.2))
      (g := fun i B xy => B.prepareMul xy.1 xy.2) (Beaver.Queued W) ?_
      fun k B xy member queued => ?_).congr fun i => ?_
    · exact ⟨rfl, fun s member => absurd member List.not_mem_nil⟩
    · exact prepareMul_localizes covers queued (ha _ (List.of_mem_zip member).1)
        (hb _ (List.of_mem_zip member).2)
    · rw [List.zip_map]
      rfl
  have few : 2 * (0 + (a.zip b).length) ≤ m := by
    rw [List.length_zip]
    omega
  refine queued.bind fun B queued => (exchange_localizes limits queued few).bind fun B _ => ?_
  let read (i : Fin n) (r : γ × Spdz.Beaver alphai) : δ × Beaver F :=
    (part i r.1, Beaver.part i r.2)
  refine Localizes.bind (Q := fun r => Q rounds r.1) (f := fun r => pure r.1)
    (g := fun _ r => pure r.1) (?_ : Localizes O W _ read _ _) fun r holds => .ret holds
  let body (i : Fin n) (_ : Nat) (r : δ × Beaver F) : Local n F (δ × Beaver F) :=
    Beaver.finalizeMul (seat O T alphai i) r.2 >>= fun s => pure (f' r.1 s.1, s.2)
  refine Localizes.imp (Q := fun r => Q (0 + rounds) r.1) ?_ fun r holds => Nat.zero_add rounds ▸ holds
  refine Localizes.forRange (fun l r => Q l r.1) (a := (c, B)) (g := body) start fun l r _ _ holds => ?_
  refine (finalizeMul_localizes covers r.2).bind fun s inside => ?_
  exact .ret_of (keeps l _ _ inside holds) fun i => by rw [own_f]

/-- Nothing is left of the old content of the destination. -/
theorem mulVec_localizes (c : List (Shared n F)) {a b : List (Shared n F)} (short : 2 * a.length ≤ m)
    (ha : ∀ s ∈ a, s ∈ W) (hb : ∀ s ∈ b, s ∈ W) :
    Localizes O W (fun c => c.length = a.length ∧ ∀ s ∈ c, s ∈ W) ownVec
      (OnlineOp.mulVec c a b : Online alphai _) fun i =>
        mulVec (seat O T alphai i) (ownVec i c) (ownVec i a) (ownVec i b) := by
  have all : intRounds a.length = a.length := by
    have := limits.count
    exact intRounds_eq (by omega)
  refine Localizes.throwIf (fun i => by simp) .undefined fun _ => ?_
  have products := products_localizes limits covers
    (fun l (c : List (Shared n F)) => c.length = l ∧ ∀ s ∈ c, s ∈ W) (fun c ci => c ++ [ci])
    (fun c ci => c ++ [ci]) ownVec (fun l c x inside ⟨length, all⟩ => ⟨by simp [length], by
      simp only [List.forall_mem_append, List.forall_mem_cons]
      exact ⟨all, inside, fun s member => absurd member List.not_mem_nil⟩⟩)
    (fun i c x => by simp [ownVec]) ⟨rfl, fun s member => absurd member List.not_mem_nil⟩ short ha hb
    a.length
  simp only [List.length_map, all, resize_drop, List.append_nil]
  exact products

theorem dotprod_localizes {a b : List (Shared n F)} (short : 2 * a.length ≤ m) (ha : ∀ s ∈ a, s ∈ W)
    (hb : ∀ s ∈ b, s ∈ W) :
    Localizes O W (· ∈ W) own (OnlineOp.dotprod a b : Online alphai _) fun i =>
      dotprod (seat O T alphai i) (ownVec i a) (ownVec i b) := by
  refine Localizes.throwIf (fun i => by simp) .undefined fun _ => ?_
  simp only [List.length_map]
  exact products_localizes limits covers (fun _ => (· ∈ W)) (· + ·) (· + ·) own
    (fun l c x inside holds => add_mem holds inside) (fun i c x => rfl) (zero_mem W) short ha hb _

include pair

theorem mul_localizes {a b : Shared n F} (ha : a ∈ W) (hb : b ∈ W) :
    Localizes O W (· ∈ W) own (OnlineOp.mul a b : Online alphai _) fun i =>
      mul (seat O T alphai i) (a i) (b i) :=
  (mulVec_localizes limits covers [] (a := [a]) (b := [b]) pair (by simpa using ha)
    (by simpa using hb)).bind fun _ ⟨_, all⟩ => .index all 0

theorem mulInplace_localizes {c a : Shared n F} (hc : c ∈ W) (ha : a ∈ W) :
    Localizes O W (· ∈ W) own (OnlineOp.mulInplace c a : Online alphai _) fun i =>
      mulInplace (seat O T alphai i) (c i) (a i) :=
  mul_localizes limits pair covers ha hc

theorem mulInplaceVec_localizes {c a : List (Shared n F)} (hc : ∀ s ∈ c, s ∈ W)
    (ha : ∀ s ∈ a, s ∈ W) :
    Localizes O W (fun c => c.length = a.length ∧ ∀ s ∈ c, s ∈ W) ownVec
      (OnlineOp.mulInplaceVec c a : Online alphai _) fun i =>
        mulInplaceVec (seat O T alphai i) (ownVec i c) (ownVec i a) := by
  have resized := resize_mem hc a.length
  let body (i : Fin n) (ca : Share F × Share F) : Local n F (Share F) :=
    mulInplace (seat O T alphai i) ca.1 ca.2
  have each : ∀ ca ∈ (resize c a.length).zip a, Localizes O W (· ∈ W) own
      (OnlineOp.mulInplace ca.1 ca.2 : Online alphai _) fun i => body i (own i ca.1, own i ca.2) :=
    fun ca member => mulInplace_localizes limits pair covers
      (resized _ (List.of_mem_zip member).1) (ha _ (List.of_mem_zip member).2)
  have all := Localizes.mapM (f := fun i (ca : Shared n F × Shared n F) => (own i ca.1, own i ca.2))
    each
  have length : ((resize c a.length).zip a).length = a.length := by simp
  rw [length] at all
  refine all.congr fun i => ?_
  have zipped : ((resize c a.length).zip a).map (fun ca => (own i ca.1, own i ca.2)) =
      (resize (ownVec i c) (ownVec i a).length).zip (ownVec i a) := by
    rw [List.length_map, own_resize, List.zip_map]
    rfl
  rw [zipped, mulInplaceVec]

theorem sqr_localizes {a : Shared n F} (ha : a ∈ W) :
    Localizes O W (· ∈ W) own (OnlineOp.sqr a : Online alphai _) fun i =>
      sqr (seat O T alphai i) (a i) := by
  refine (Localizes.take (.square .sqr)).bind fun sp _ => ?_
  have hsp := sp.authentic
  refine (Localizes.reveal limits rfl (a := [a - sp.a]) ?_ (Nat.le_of_succ_le pair)).bind
    fun vc _ => ?_
  · simpa using sub_mem ha (covers hsp.1)
  refine (Localizes.indexClear vc 0).bind fun vc₀ _ => .ret_of ?_ fun i => rfl
  have tmp := W.smul_mem vc₀ (covers hsp.1)
  exact add_mem (add_mem (add_mem (covers hsp.2) tmp) tmp) (constant_mem covers _)

theorem inv_localizes {a : Shared n F} (ha : a ∈ W) :
    Localizes O W (· ∈ W) own (OnlineOp.inv a : Online alphai _) fun i =>
      inv (seat O T alphai i) (a i) := by
  refine (Localizes.take (.square .inv)).bind fun tmp _ => ?_
  have rshare := covers tmp.authentic.1
  refine (mul_localizes limits pair covers rshare ha).bind fun c hc => ?_
  refine (Localizes.reveal limits rfl (a := [c]) (by simpa using hc) (Nat.le_of_succ_le pair)).bind
    fun ra _ => ?_
  refine (Localizes.indexClear ra 0).bind fun ra₀ _ => ?_
  refine Localizes.throwIf (fun _ => Iff.rfl) .division_by_zero fun _ => ?_
  exact .ret_of (W.smul_mem _ rshare) fun i => rfl

theorem div_localizes {a b : Shared n F} (ha : a ∈ W) (hb : b ∈ W) :
    Localizes O W (· ∈ W) own (OnlineOp.div a b : Online alphai _) fun i =>
      div (seat O T alphai i) (a i) (b i) :=
  (inv_localizes limits pair covers hb).bind fun _ hc =>
    mulInplace_localizes limits pair covers hc ha

end Network

section Legendre
variable {p : Nat} [Fact p.Prime] {alphai : Fin n → ZMod p} {O : Outside (ZMod p)} {T : TreeSum n}
  {W : Submodule (ZMod p) (Shared n (ZMod p))} {m : Nat}
  (limits : Limits O T m) (pair : 2 ≤ m) (covers : Shared.Authentic alphai ≤ W)
include limits pair covers

theorem legendre_localizes {input : Shared n (ZMod p)} (hinput : input ∈ W) :
    Localizes O W (fun _ => True) (fun _ res => res) (OnlineOp.legendre input : Online alphai _)
      fun i => legendre (seat O T alphai i) (input i) := by
  refine (Localizes.take (.square .legendre)).bind fun s _ => ?_
  refine (mulInplace_localizes limits pair covers (covers s.authentic.2) hinput).bind
    fun s₁ hs₁ => ?_
  refine (Localizes.reveal limits rfl (a := [s₁]) (by simpa using hs₁)
    (Nat.le_of_succ_le pair)).bind fun c _ => ?_
  exact (Localizes.indexClear c 0).bind fun c₀ _ => .ret_of trivial fun i => rfl

theorem legendrePrf_localizes {key input : Shared n (ZMod p)} (hkey : key ∈ W) (hinput : input ∈ W) :
    Localizes O W (fun _ => True) (fun _ res => res)
      (OnlineOp.legendrePrf key input : Online alphai _) fun i =>
        legendrePrf (seat O T alphai i) (key i) (input i) :=
  (legendre_localizes limits pair covers (add_mem hkey hinput)).bind fun _ _ =>
    .ret_of trivial fun _ => rfl

end Legendre

section Vectors
variable {γ : Type} {op : Shared n F → β → Shared n F} {a c : List (Shared n F)} {b : List β}

omit [DecidableEq F] in
theorem zipWith_mem (inside : ∀ x ∈ a, ∀ y ∈ b, op x y ∈ W) : ∀ s ∈ List.zipWith op a b, s ∈ W := by
  induction a generalizing b with
  | nil => exact fun s member => absurd member List.not_mem_nil
  | cons x a ih =>
      cases b with
      | nil => exact fun s member => absurd member List.not_mem_nil
      | cons y b =>
          rw [List.zipWith_cons_cons, List.forall_mem_cons]
          exact ⟨inside x (by simp) y (by simp),
            ih fun x hx y hy => inside x (by simp [hx]) y (by simp [hy])⟩

variable (op) (op' : Fin n → Share F → γ → Share F) (f : Fin n → β → γ)

section
variable (own_op : ∀ i x y, op' i (own i x) (f i y) = own i (op x y))
include own_op

omit [Field F] [DecidableEq F] in
theorem own_zipWith (i : Fin n) (a : List (Shared n F)) (b : List β) :
    List.zipWith (op' i) (ownVec i a) (b.map (f i)) = ownVec i (List.zipWith op a b) := by
  rw [List.zipWith_map, ownVec, List.map_zipWith]
  simp only [own_op]

theorem zipVec_localizes (inside : ∀ x ∈ a, ∀ y ∈ b, op x y ∈ W) :
    Localizes O W (fun c => c.length = a.length ∧ ∀ s ∈ c, s ∈ W) ownVec
      (OnlineOp.zipVec op a b : Online alphai _) fun i =>
        zipVec (op' i) (ownVec i a) (b.map (f i)) := by
  refine Localizes.throwIf (fun i => by simp) .undefined fun enough => ?_
  refine .ret_of ⟨?_, zipWith_mem inside⟩ fun i => own_zipWith op op' f own_op i a b
  rw [List.length_zipWith]
  omega

omit [DecidableEq F] in
theorem own_zipVecInplace (i : Fin n) (c : List (Shared n F)) (a : List β) :
    zipVecInplace (op' i) (ownVec i c) (a.map (f i)) = ownVec i (OnlineOp.zipVecInplace op c a) := by
  rw [zipVecInplace, List.length_map, own_resize, own_zipWith op op' f own_op]
  rfl

end

end Vectors

/-! ## Straight-line programs -/

section Families
variable {m : Nat} (limits : Limits O T m) (pair : 2 ≤ m)
  (covers : Shared.Authentic alphai ≤ W) (f : Family)

omit [DecidableEq F] in
theorem own_plain (i : Fin n) (a : Shared n F) (b : F) :
    plain (seat O T alphai i) f (own i a) b = own i (f.plain alphai a b) := by
  cases f <;> rfl

omit [DecidableEq F] in
include covers in
theorem plain_mem {a : Shared n F} (ha : a ∈ W) (b : F) : f.plain alphai a b ∈ W := by
  cases f with
  | add => exact add_mem ha (constant_mem covers b)
  | sub => exact sub_mem ha (constant_mem covers b)
  | mul => exact W.smul_mem b ha

omit [DecidableEq F] in
theorem own_plainInplace (i : Fin n) (c : Shared n F) (a : F) :
    plainInplace (seat O T alphai i) f (own i c) a = own i (f.plainInplace alphai c a) := by
  cases f <;> rfl

omit [DecidableEq F] in
include covers in
theorem plainInplace_mem {c : Shared n F} (hc : c ∈ W) (a : F) : f.plainInplace alphai c a ∈ W := by
  rw [Family.plainInplace_eq]
  exact plain_mem covers f hc a

omit [DecidableEq F] in
theorem plainInplaceVec_eq (c : List (Shared n F)) (a : List F) : f.plainInplaceVec alphai c a =
    OnlineOp.zipVecInplace (f.plainInplace alphai) c a := by
  cases f <;> rfl

omit [DecidableEq F] in
theorem own_plainInplaceVec (i : Fin n) (c : List (Shared n F)) (a : List F) :
    plainInplaceVec (seat O T alphai i) f (ownVec i c) a =
      ownVec i (f.plainInplaceVec alphai c a) := by
  have vectors := own_zipVecInplace (f.plainInplace alphai)
    (fun i => plainInplace (seat O T alphai i) f) (fun _ y => y)
    (fun i x y => own_plainInplace f i x y) i c a
  rw [List.map_id'] at vectors
  rw [plainInplaceVec_eq, ← vectors]
  rfl

omit [DecidableEq F] in
include covers in
theorem plainInplaceVec_mem {c : List (Shared n F)} (hc : ∀ s ∈ c, s ∈ W) (a : List F) :
    ∀ s ∈ f.plainInplaceVec alphai c a, s ∈ W := by
  rw [plainInplaceVec_eq]
  exact zipWith_mem fun x hx y _ => plainInplace_mem covers f (resize_mem hc _ x hx) y

include covers in
theorem plainVec_localizes {a : List (Shared n F)} (ha : ∀ s ∈ a, s ∈ W) (b : List F) :
    Localizes O W (fun c => c.length = a.length ∧ ∀ s ∈ c, s ∈ W) ownVec
      (f.plainVec a b : Online alphai _) fun i => plainVec (seat O T alphai i) f (ownVec i a) b := by
  have vectors : Localizes O W _ ownVec (OnlineOp.zipVec (f.plain alphai) a b : Online alphai _) _ :=
    zipVec_localizes (f.plain alphai) (fun i => plain (seat O T alphai i) f) (fun _ y => y)
      (fun i x y => own_plain f i x y) fun x hx y _ => plain_mem covers f (ha x hx) y
  simp only [List.map_id'] at vectors
  cases f <;> exact vectors

include limits covers

theorem sharedVec_localizes (c : List (Shared n F)) {a b : List (Shared n F)}
    (short : 2 * a.length ≤ m) (ha : ∀ s ∈ a, s ∈ W) (hb : ∀ s ∈ b, s ∈ W) :
    Localizes O W (fun c => c.length = a.length ∧ ∀ s ∈ c, s ∈ W) ownVec
      (f.sharedVec c a b : Online alphai _) fun i =>
        sharedVec (seat O T alphai i) f (ownVec i c) (ownVec i a) (ownVec i b) := by
  cases f with
  | add =>
      exact zipVec_localizes OnlineOp.add (fun _ => add) own (fun _ _ _ => rfl) fun x hx y hy =>
        add_mem (ha x hx) (hb y hy)
  | sub =>
      exact zipVec_localizes OnlineOp.sub (fun _ => sub) own (fun _ _ _ => rfl) fun x hx y hy =>
        sub_mem (ha x hx) (hb y hy)
  | mul => exact mulVec_localizes limits covers c short ha hb

include pair

theorem shared_localizes {a b : Shared n F} (ha : a ∈ W) (hb : b ∈ W) :
    Localizes O W (· ∈ W) own (f.shared a b : Online alphai _) fun i =>
      shared (seat O T alphai i) f (a i) (b i) := by
  cases f with
  | add => exact .ret_of (add_mem ha hb) fun i => rfl
  | sub => exact .ret_of (sub_mem ha hb) fun i => rfl
  | mul => exact mul_localizes limits pair covers ha hb

theorem inplace_localizes {c a : Shared n F} (hc : c ∈ W) (ha : a ∈ W) :
    Localizes O W (· ∈ W) own (f.inplace c a : Online alphai _) fun i =>
      inplace (seat O T alphai i) f (c i) (a i) := by
  cases f with
  | add => exact .ret_of (add_mem hc ha) fun i => rfl
  | sub => exact .ret_of (sub_mem hc ha) fun i => rfl
  | mul => exact mulInplace_localizes limits pair covers hc ha

theorem inplaceVec_localizes {c a : List (Shared n F)} (hc : ∀ s ∈ c, s ∈ W)
    (ha : ∀ s ∈ a, s ∈ W) :
    Localizes O W (fun c => c.length = a.length ∧ ∀ s ∈ c, s ∈ W) ownVec
      (f.inplaceVec c a : Online alphai _) fun i =>
        inplaceVec (seat O T alphai i) f (ownVec i c) (ownVec i a) := by
  have resized := resize_mem hc a.length
  have length (op : Shared n F → Shared n F → Shared n F) :
      (OnlineOp.zipVecInplace op c a).length = a.length := by simp [OnlineOp.zipVecInplace]
  cases f with
  | add =>
      refine .ret_of ⟨length _, zipWith_mem fun x hx y hy => ?_⟩ fun i =>
        own_zipVecInplace OnlineOp.addInplace (fun _ => addInplace) own (fun _ _ _ => rfl) i c a
      exact add_mem (resized x hx) (ha y hy)
  | sub =>
      refine .ret_of ⟨length _, zipWith_mem fun x hx y hy => ?_⟩ fun i =>
        own_zipVecInplace OnlineOp.subInplace (fun _ => subInplace) own (fun _ _ _ => rfl) i c a
      exact sub_mem (resized x hx) (ha y hy)
  | mul => exact mulInplaceVec_localizes limits pair covers hc ha

end Families

def ownRegisters (i : Fin n) (R : Registers (Shared n F)) : Registers (Share F) :=
  ⟨fun c => own i (R.reg c), fun c => ownVec i (R.vec c)⟩

def Shorter {α : Type} (L : Nat) (R : Registers α) : Prop := ∀ c, (R.vec c).length < L

/-- A vector that is given by its value has fewer than `L` entries, when it sets a length. -/
def ShortOperand (L : Nat) : Op F → Prop
  | .plainInplaceVec _ _ a => a.length < L
  | _ => True

structure Registers.Inside (W : Submodule F (Shared n F)) (L : Nat) (R : Registers (Shared n F)) :
    Prop where
  reg : ∀ c, R.reg c ∈ W
  vec : ∀ c, ∀ s ∈ R.vec c, s ∈ W
  short : Shorter L R

section Programs
variable {R : Registers (Shared n F)}

omit [Field F] [DecidableEq F] in
theorem own_set (i : Fin n) (c : Nat) (s : Shared n F) :
    (ownRegisters i R).set c (own i s) = ownRegisters i (R.set c s) := by
  simp only [ownRegisters, OnlineOp.Registers.set, Registers.mk.injEq, and_true]
  funext d
  by_cases same : d = c
  · rw [same, Function.update_self, Function.update_self]
  · rw [Function.update_of_ne same, Function.update_of_ne same]

omit [Field F] [DecidableEq F] in
theorem own_setVec (i : Fin n) (c : Nat) (s : List (Shared n F)) :
    (ownRegisters i R).setVec c (ownVec i s) = ownRegisters i (R.setVec c s) := by
  simp only [ownRegisters, OnlineOp.Registers.setVec, Registers.mk.injEq, true_and]
  funext d
  by_cases same : d = c
  · rw [same, Function.update_self, Function.update_self]
  · rw [Function.update_of_ne same, Function.update_of_ne same]

omit [DecidableEq F] in
theorem own_fit (i : Fin n) (c a : Nat) :
    (ownRegisters i R).fit c a = ownRegisters i (R.fit c a) := by
  rw [Registers.fit, Registers.fit, ← own_setVec, ← own_resize]
  simp only [ownRegisters, List.length_map]

variable {L : Nat}

omit [DecidableEq F] in
theorem Registers.Inside.set (inside : Registers.Inside W L R) (c : Nat) {s : Shared n F}
    (hs : s ∈ W) : Registers.Inside W L (R.set c s) := by
  refine ⟨fun d => ?_, inside.vec, inside.short⟩
  by_cases same : d = c
  · rwa [same, OnlineOp.Registers.set_reg]
  · rw [OnlineOp.Registers.set_reg_of_ne _ same]
    exact inside.reg d

omit [DecidableEq F] in
theorem Registers.Inside.setVec (inside : Registers.Inside W L R) (c : Nat) {s : List (Shared n F)}
    (length : s.length < L) (hs : ∀ x ∈ s, x ∈ W) : Registers.Inside W L (R.setVec c s) := by
  have each (d : Nat) : (∀ x ∈ Function.update R.vec c s d, x ∈ W) ∧
      (Function.update R.vec c s d).length < L := by
    by_cases same : d = c
    · rw [same, Function.update_self]
      exact ⟨hs, length⟩
    · rw [Function.update_of_ne same]
      exact ⟨inside.vec d, inside.short d⟩
  exact ⟨inside.reg, fun d => (each d).1, fun d => (each d).2⟩

omit [DecidableEq F] in
theorem Registers.Inside.fit (inside : Registers.Inside W L R) (c a : Nat) :
    Registers.Inside W L (R.fit c a) :=
  inside.setVec c ((length_resize _ _).trans_lt (inside.short a)) (resize_mem (inside.vec c) _)

omit [DecidableEq F] in
theorem Registers.Inside.pair (inside : Registers.Inside W L R) : 2 ≤ 2 * L := by
  have := inside.short 0
  omega

theorem Registers.Inside.written (inside : Registers.Inside W L R) {p : Online alphai (Shared n F)}
    {l : Fin n → Local n F (Share F)} (localizes : Localizes O W (· ∈ W) own p l) (c : Nat) :
    Localizes O W (Registers.Inside W L) ownRegisters (p >>= fun r => return R.set c r) fun i =>
      l i >>= fun r => return (ownRegisters i R).set c r :=
  localizes.bind fun _ hr => .ret_of (inside.set c hr) fun i => own_set i c _

theorem Registers.Inside.writtenVec (inside : Registers.Inside W L R)
    {p : Online alphai (List (Shared n F))} {l : Fin n → Local n F (List (Share F))} {k : Nat}
    (short : k < L) (localizes : Localizes O W (fun c => c.length = k ∧ ∀ s ∈ c, s ∈ W) ownVec p l)
    (c : Nat) :
    Localizes O W (Registers.Inside W L) ownRegisters (p >>= fun r => return R.setVec c r) fun i =>
      l i >>= fun r => return (ownRegisters i R).setVec c r :=
  localizes.bind fun _ ⟨length, hr⟩ =>
    .ret_of (inside.setVec c (length ▸ short) hr) fun i => own_setVec i c _

variable (limits : Limits O T (2 * L)) (covers : Shared.Authentic alphai ≤ W)
include limits covers

theorem exec_localizes (inside : Registers.Inside W L R) (op : Op F) (operand : ShortOperand L op) :
    Localizes O W (Registers.Inside W L) ownRegisters (op.exec R : Online alphai _) fun i =>
      exec (seat O T alphai i) op (ownRegisters i R) := by
  have pair := inside.pair
  have double (a : Nat) : 2 * (R.vec a).length ≤ 2 * L := Nat.mul_le_mul_left 2 (inside.short a).le
  cases op with
  | binary f c a b =>
      exact inside.written (shared_localizes limits pair covers f (inside.reg a)
        (inside.reg b)) c
  | binaryVec f c a b =>
      have fitted := inside.fit c a
      have product := sharedVec_localizes limits covers f ((R.fit c a).vec c)
        (Nat.mul_le_mul_left 2 (fitted.short a).le) (fitted.vec a) (fitted.vec b)
      refine (inside.writtenVec (fitted.short a) product c).congr fun i => ?_
      rw [exec, own_fit]
      rfl
  | plain f c a b =>
      refine .ret_of (inside.set c (plain_mem covers f (inside.reg a) b)) fun i => ?_
      rw [← own_set, ← own_plain]
      rfl
  | plainVec f c a b =>
      exact inside.writtenVec (inside.short a) (plainVec_localizes covers f (inside.vec a) b) c
  | inplace f c a =>
      exact inside.written (inplace_localizes limits pair covers f (inside.reg c)
        (inside.reg a)) c
  | inplaceVec f c a =>
      exact inside.writtenVec (inside.short a) (inplaceVec_localizes limits pair covers f
        (inside.vec c) (inside.vec a)) c
  | plainInplace f c a =>
      refine .ret_of (inside.set c (plainInplace_mem covers f (inside.reg c) a)) fun i => ?_
      rw [← own_set, ← own_plainInplace]
      rfl
  | plainInplaceVec f c a =>
      have length : (f.plainInplaceVec alphai (R.vec c) a).length < L := by
        rw [plainInplaceVec_eq, OnlineOp.zipVecInplace, List.length_zipWith, length_resize, min_self]
        exact operand
      refine .ret_of (inside.setVec c length (plainInplaceVec_mem covers f (inside.vec c) a))
        fun i => ?_
      rw [← own_setVec, ← own_plainInplaceVec]
      rfl
  | sqr aa a => exact inside.written (sqr_localizes limits pair covers (inside.reg a)) aa
  | sqrInplace a => exact inside.written (sqr_localizes limits pair covers (inside.reg a)) a
  | inv ia a => exact inside.written (inv_localizes limits pair covers (inside.reg a)) ia
  | invInplace a => exact inside.written (inv_localizes limits pair covers (inside.reg a)) a
  | div c a b =>
      refine (inv_localizes limits pair covers (inside.reg b)).bind fun ib hib => ?_
      have first := inside.set c hib
      refine (first.written (mulInplace_localizes limits pair covers (first.reg c)
        (first.reg a)) c).congr fun i => ?_
      rw [own_set]
      rfl
  | divInplace c a =>
      exact inside.written (div_localizes limits pair covers (inside.reg c)
        (inside.reg a)) c
  | dotprod a b c =>
      exact inside.written (dotprod_localizes limits covers (double a) (inside.vec a)
        (inside.vec b)) c

theorem execute_localizes (inside : Registers.Inside W L R) {ops : List (Op F)}
    (operands : ∀ op ∈ ops, ShortOperand L op) :
    Localizes O W (Registers.Inside W L) ownRegisters (OnlineOp.execute ops R : Online alphai _)
      fun i => execute (seat O T alphai i) ops (ownRegisters i R) :=
  .foldlMClear inside fun _ op member inside =>
    exec_localizes limits covers inside op (operands op member)

end Programs

theorem shorter_inClear {L : Nat} {op : Op F} {x y : Registers F} (short : Shorter L x)
    (clear : op.inClear x = some y) : Shorter L y := by
  have cut {β : Type} (f : F → β → F) (c a : Nat) (b : List β) :
      Shorter L (x.setVec c (List.zipWith f (x.vec a) b)) := by
    intro d
    change (Function.update x.vec c _ d).length < L
    by_cases same : d = c
    · rw [same, Function.update_self, List.length_zipWith]
      exact (min_le_left _ _).trans_lt (short a)
    · rw [Function.update_of_ne same]
      exact short d
  cases op with
  | binaryVec f c a b => exact Option.some.inj clear ▸ cut _ c a _
  | plainVec f c a b => exact Option.some.inj clear ▸ cut _ c a b
  | inplaceVec f c a => exact Option.some.inj clear ▸ cut _ c c _
  | plainInplaceVec f c a => exact Option.some.inj clear ▸ cut _ c c a
  | inv ia a | invInplace a | div c a b | divInplace c a =>
      rw [Op.inClear] at clear
      split at clear
      · cases clear
      · exact Option.some.inj clear ▸ short
  | _ => exact Option.some.inj clear ▸ short

theorem counted_of_shorter {L : Nat} (small : L ≤ 2 ^ 31) (ops : List (Op F)) {x : Registers F}
    (short : Shorter L x) : Along Op.Counted ops x := by
  induction ops generalizing x with
  | nil => trivial
  | cons op ops ih =>
      refine ⟨?_, fun y clear => ih (shorter_inClear short clear)⟩
      cases op with
      | binaryVec f c a b => exact fun _ => (short a).le.trans small
      | dotprod a b c => exact (short a).trans_le small
      | _ => trivial

/-! ## Over the network -/

section Runs
variable {L : Nat} (limits : Limits O T (2 * L)) {ops : List (Op F)}
  (operands : ∀ op ∈ ops, ShortOperand L op) {R : Registers (Shared n F)} (short : Shorter L R)
include limits operands short

/-- Whatever the registers hold, the players all end with their shares of what the joint execution
computes, or with its error, or all of them find a wrong MAC. -/
theorem execute_network (t : Tape (spdz alphai)) (random : Fin n → Nat → UInt8) :
    ∃ b, Settles (fun i => (Local.session O T
        (fun i => execute (seat O T alphai i) ops (ownRegisters i R)) t random i).run.run) b ∧
      ((b = fun _ => .error .mac_fail) ∨ ∃ b', (b = fun i => .ok (b' i)) ∧
        Concludes ((OnlineOp.execute ops R).run t) ownRegisters b') :=
  (execute_localizes limits (le_top : Shared.Authentic alphai ≤ ⊤)
    ⟨fun _ => trivial, fun _ _ _ => trivial, short⟩ operands).all_or_none limits.players.le t random

/-- When the registers are sharings of clear registers, the players end with their shares of
registers that the same operations compute in the clear, unless they have opened a zero product. -/
theorem execute_network_refines [NeZero n] {x : Registers F} (start : Refines alphai R x)
    (equal : Along Op.EqualLength ops x) (keeps : Along Op.KeepsNumerator ops x) (t : Tape (spdz alphai))
    (random : Fin n → Nat → UInt8) :
    ∃ b, Settles (fun i => (Local.session O T
        (fun i => execute (seat O T alphai i) ops (ownRegisters i R)) t random i).run.run)
        (fun i => .ok (b i)) ∧
      (((⟨.inv, 0⟩ : Opening n F) ∈ ((OnlineOp.execute ops R).run t).events ∧
          b = fun _ => .error .division_by_zero) ∨
        ∃ R' y, evaluate ops x = some y ∧ Refines alphai R' y ∧ ∃ M : Fin n → Members n F,
          (b = fun i => .ok (ownRegisters i R', M i)) ∧ ∀ i, (M i).output.waitingForCheck = 0) := by
  have counted : Along Op.Counted ops x := by
    have := limits.count
    exact counted_of_shorter (by omega) ops fun c => (start.vec c).length_eq ▸ short c
  have inside : Registers.Inside (Shared.Authentic alphai) L R := by
    refine ⟨fun c => (represents_iff.1 (start.reg c)).2, fun c s member => ?_, short⟩
    obtain ⟨l, bound, rfl⟩ := List.getElem_of_mem member
    exact (represents_iff.1 ((List.forall₂_iff_get.1 (start.vec c)).2 l bound
      ((start.vec c).length_eq ▸ bound))).2
  obtain ⟨b, settles, concludes⟩ := (execute_localizes limits le_rfl inside operands).settles (T := T)
    limits.players.le t random
  refine ⟨b, settles, ?_⟩
  rcases (execute_spec (A := fun _ => True) start equal counted keeps).run t fun _ _ => trivial with
    ⟨R', returned, y, clear, refines⟩ | ⟨e, failed, rfl⟩
  · rw [Concludes, returned] at concludes
    exact .inr ⟨R', y, clear, refines, concludes⟩
  · rw [Concludes, failed] at concludes
    obtain ⟨v, opened, rfl⟩ := (execute_signals start equal counted keeps t).2 ⟨_, failed⟩
    exact .inl ⟨opened, concludes⟩

end Runs

/-- Four players divide `1` by `2` and add `1`. -/
def divideAndAdd : List (Op (ZMod 3)) := [.div 2 0 1, .plainInplace .add 2 1]

def counting : Registers (Shared 4 (ZMod 3)) :=
  ⟨fun c => Shared.constant (fun _ => 1) (c + 1), fun _ => []⟩

theorem execute_network_four :
    ∃ b, Settles (fun i => (Local.session MacCheck.plainOutside ⟨2, 2, 2⟩
        (fun i => execute (seat MacCheck.plainOutside ⟨2, 2, 2⟩ (fun _ => 1) i) divideAndAdd
          (ownRegisters i counting)) (plainTape fun _ => 1) (fun _ _ => 0) i).run.run) b ∧
      ((b = fun _ => .error .mac_fail) ∨ ∃ b', (b = fun i => .ok (b' i)) ∧
        Concludes ((OnlineOp.execute divideAndAdd counting).run (plainTape fun _ => 1))
          ownRegisters b') :=
  execute_network MacCheck.plainLimits (by simp [divideAndAdd, ShortOperand])
    (fun _ => Nat.zero_lt_one) _ _

theorem execute_network_refines_four :
    ∃ b, Settles (fun i => (Local.session MacCheck.plainOutside ⟨2, 2, 2⟩
        (fun i => execute (seat MacCheck.plainOutside ⟨2, 2, 2⟩ (fun _ => 1) i) divideAndAdd
          (ownRegisters i counting)) (plainTape fun _ => 1) (fun _ _ => 0) i).run.run)
        (fun i => .ok (b i)) ∧
      (((⟨.inv, 0⟩ : Opening 4 (ZMod 3)) ∈
          ((OnlineOp.execute divideAndAdd counting).run (plainTape fun _ => 1)).events ∧
          b = fun _ => .error .division_by_zero) ∨
        ∃ R' y, evaluate divideAndAdd ⟨fun c => c + 1, fun _ => []⟩ = some y ∧
          Refines (fun _ => 1) R' y ∧ ∃ M : Fin 4 → Members 4 (ZMod 3),
          (b = fun i => .ok (ownRegisters i R', M i)) ∧
            ∀ i, (M i).output.waitingForCheck = 0) := by
  refine execute_network_refines (R := counting) MacCheck.plainLimits
    (by simp [divideAndAdd, ShortOperand]) (fun _ => Nat.zero_lt_one)
    ⟨fun c => represents_iff.2 ⟨?_, ?_⟩, fun c => .nil⟩ ?_ ?_ _ _
  · exact Shared.val_constant _ _
  · exact Shared.constant_authentic _ _
  · exact ⟨trivial, fun _ _ => ⟨trivial, fun _ _ => trivial⟩⟩
  · refine ⟨fun same => ?_, fun _ _ => ⟨trivial, fun _ _ => trivial⟩⟩
    cases same

end ProofOfCustody.OnlineOp.Local
