import Mathlib
import ProofOfCustody.OnlineOp.LocalBits
import ProofOfCustody.OnlineOp.LocalSpec

/-!
# The players compute the bits of the joint execution

Every bit operation on the shares of the players localizes the operation on shared values.
-/

namespace ProofOfCustody.OnlineOp.Local
open Effect Spdz Network Networking Binary

variable {n : Nat} {F : Type} [Field F] [DecidableEq F] {alphai : Fin n → F} {O : Outside F}
  {T : TreeSum n} {W : Submodule F (Shared n F)}

omit [DecidableEq F] in
theorem own_getD (i : Fin n) (a : List (Shared n F)) (k : Nat) :
    (ownVec i a).getD k 0 = own i (a.getD k 0) := by
  rw [ownVec, List.getD_eq_getElem?_getD, List.getD_eq_getElem?_getD, List.getElem?_map]
  cases a[k]? with
  | none => rfl
  | some s => rfl

omit [DecidableEq F] in
theorem getD_mem {a : List (Shared n F)} (ha : ∀ s ∈ a, s ∈ W) (k : Nat) : a.getD k 0 ∈ W := by
  by_cases inside : k < a.length
  · rw [List.getD_eq_getElem _ _ inside]
    exact ha _ (List.getElem_mem inside)
  · rw [List.getD_eq_default _ _ (Nat.le_of_not_lt inside)]
    exact zero_mem W

omit [DecidableEq F] in
theorem own_subInplaceVec (i : Fin n) (c a : List (Shared n F)) :
    subInplaceVec (ownVec i c) (ownVec i a) = ownVec i (OnlineOp.subInplaceVec c a) :=
  own_zipVecInplace OnlineOp.subInplace (fun _ => subInplace) own (fun _ _ _ => rfl) i c a

omit [DecidableEq F] in
theorem subInplaceVec_mem {c a : List (Shared n F)} (hc : ∀ s ∈ c, s ∈ W) (ha : ∀ s ∈ a, s ∈ W) :
    ∀ s ∈ OnlineOp.subInplaceVec c a, s ∈ W :=
  zipWith_mem fun x hx y hy => sub_mem (resize_mem hc _ x hx) (ha y hy)

omit [DecidableEq F] in
theorem own_XORPlain (i : Fin n) (a : Shared n F) (b : F) :
    XORPlain (seat O T alphai i) (own i a) b = own i (OnlineOp.XORPlain alphai a b) := rfl

omit [DecidableEq F] in
theorem XORPlain_mem (covers : Shared.Authentic alphai ≤ W) {a : Shared n F} (ha : a ∈ W) (b : F) :
    OnlineOp.XORPlain alphai a b ∈ W := by
  have tmp := W.smul_mem b ha
  exact sub_mem (sub_mem (add_mem ha (constant_mem covers b)) tmp) tmp

theorem splitPairs_localizes {a : List (Shared n F)} (ha : ∀ s ∈ a, s ∈ W) (k : Nat) :
    Localizes O W (fun half => (∀ s ∈ half.1, s ∈ W) ∧ ∀ s ∈ half.2, s ∈ W)
      (fun i half => (ownVec i half.1, ownVec i half.2))
      (Online.defined (splitPairs a k) : Online alphai _) fun i =>
        Local.defined (splitPairs (ownVec i a) k) := by
  refine .defined (fun half found => ?_) fun i => splitPairs_map (own i) a k
  exact ⟨fun s member => ha s ((mem_of_splitPairs found).1 s member),
    fun s member => ha s ((mem_of_splitPairs found).2 s member)⟩

theorem differences_localizes {d : List (Shared n F)} (hd : ∀ s ∈ d, s ∈ W) (k : Nat) :
    Localizes O W (fun e => ∀ s ∈ e, s ∈ W) ownVec
      (Online.defined (differences OnlineOp.sub d k) : Online alphai _) fun i =>
        Local.defined (differences sub (ownVec i d) k) :=
  .defined (fun _ found => differences_keeps (P := (· ∈ W)) (fun _ _ => sub_mem) hd found)
    fun i => differences_map (f := own i) (fun _ _ => rfl) d k

theorem sumEntries_localizes {tmp : List (Shared n F)} (htmp : ∀ s ∈ tmp, s ∈ W) (k : Nat) :
    Localizes O W (· ∈ W) own
      (Online.defined (sumEntries OnlineOp.addInplace tmp k) : Online alphai _) fun i =>
        Local.defined (sumEntries addInplace (ownVec i tmp) k) :=
  .defined (fun _ found => sumEntries_keeps (P := (· ∈ W)) (fun _ _ => add_mem) htmp found)
    fun i => sumEntries_map (f := own i) (fun _ _ => rfl) tmp k

theorem B2A_localizes {bits : List (Shared n F)} (hbits : ∀ s ∈ bits, s ∈ W) (k : Nat) :
    Localizes O W (· ∈ W) own (Online.defined (OnlineOp.B2A bits k) : Online alphai _) fun i =>
      Local.defined (B2A (ownVec i bits) k) :=
  .defined (fun _ found => sumPowers_keeps (P := (· ∈ W)) (fun _ _ => W.smul_mem _)
      (fun _ _ => add_mem) hbits found)
    fun i => by
      refine sumPowers_map (f := own i) (fun _ _ => ?_) (fun _ _ => rfl) bits k
      rw [one_add_one_eq_two]
      rfl

section Network
variable {m : Nat} (limits : Limits O T m) (pair : 2 ≤ m) (covers : Shared.Authentic alphai ≤ W)

section
include covers

theorem XORPlainVec_localizes {a : List (Shared n F)} (ha : ∀ s ∈ a, s ∈ W) (b : List F) (k : Nat) :
    Localizes O W (fun c => ∀ s ∈ c, s ∈ W) ownVec (OnlineOp.XORPlainVec a b k : Online alphai _)
      fun i => XORPlainVec (seat O T alphai i) (ownVec i a) b k := by
  refine Localizes.throwIf (fun i => by simp) .invalid_length fun _ => ?_
  refine (plainVec_localizes (T := T) covers .add ha b).bind fun c ⟨_, hc⟩ => ?_
  refine (plainVec_localizes (T := T) covers .mul ha b).bind fun tmp ⟨_, htmp⟩ => ?_
  refine .ret_of (subInplaceVec_mem (subInplaceVec_mem hc htmp) htmp) fun i => ?_
  rw [own_subInplaceVec, own_subInplaceVec]

end

section Vectors
include limits covers

theorem XORVec_localizes {a b : List (Shared n F)} (ha : ∀ s ∈ a, s ∈ W) (hb : ∀ s ∈ b, s ∈ W)
    {k : Nat} (short : 2 * k ≤ m) :
    Localizes O W (fun c => ∀ s ∈ c, s ∈ W) ownVec (OnlineOp.XORVec a b k : Online alphai _)
      fun i => XORVec (seat O T alphai i) (ownVec i a) (ownVec i b) k := by
  refine Localizes.throwIf (fun i => by simp) .invalid_length fun sizes => ?_
  have few : 2 * a.length ≤ m := by omega
  refine (sharedVec_localizes limits covers .add [] few ha hb).bind fun c ⟨_, hc⟩ => ?_
  refine (mulVec_localizes limits covers [] few ha hb).bind fun tmp ⟨_, htmp⟩ => ?_
  refine .ret_of (subInplaceVec_mem (subInplaceVec_mem hc htmp) htmp) fun i => ?_
  rw [own_subInplaceVec, own_subInplaceVec]

theorem XORInplaceVec_localizes {c a : List (Shared n F)} (hc : ∀ s ∈ c, s ∈ W)
    (ha : ∀ s ∈ a, s ∈ W) {k : Nat} (short : 2 * k ≤ m) :
    Localizes O W (fun c => ∀ s ∈ c, s ∈ W) ownVec (OnlineOp.XORInplaceVec c a k : Online alphai _)
      fun i => XORInplaceVec (seat O T alphai i) (ownVec i c) (ownVec i a) k :=
  (XORVec_localizes limits covers (resize_mem hc k) ha short).congr fun i => by
    rw [XORInplaceVec, own_resize]

theorem ORVec_localizes {a b : List (Shared n F)} (ha : ∀ s ∈ a, s ∈ W) (hb : ∀ s ∈ b, s ∈ W)
    {k : Nat} (short : 2 * k ≤ m) :
    Localizes O W (fun c => ∀ s ∈ c, s ∈ W) ownVec (OnlineOp.ORVec a b k : Online alphai _)
      fun i => ORVec (seat O T alphai i) (ownVec i a) (ownVec i b) k := by
  refine Localizes.throwIf (fun i => by simp) .invalid_length fun sizes => ?_
  have few : 2 * a.length ≤ m := by omega
  refine (sharedVec_localizes limits covers .add [] few ha hb).bind fun c ⟨_, hc⟩ => ?_
  refine (mulVec_localizes limits covers [] few ha hb).bind fun tmp ⟨_, htmp⟩ => ?_
  exact .ret_of (subInplaceVec_mem hc htmp) fun i => own_subInplaceVec i c tmp

theorem KXOR_localizes {a : List (Shared n F)} (ha : ∀ s ∈ a, s ∈ W) {k : Nat} (short : k ≤ m) :
    Localizes O W (· ∈ W) own (OnlineOp.KXOR a k : Online alphai _) fun i =>
      KXOR (seat O T alphai i) (ownVec i a) k := by
  induction k using Nat.strong_induction_on generalizing a with
  | _ k ih =>
      rw [OnlineOp.KXOR]
      conv in KXOR _ _ _ => rw [KXOR]
      refine Localizes.throwIf (fun i => by simp) .invalid_length fun _ => ?_
      refine Localizes.throwIf (fun _ => Iff.rfl) .undefined fun none => ?_
      by_cases one : k = 1
      · simp only [if_pos one]
        exact .ret_of (getD_mem ha 0) fun i => own_getD i a 0
      by_cases even : k % 2 = 0
      · simp only [if_neg one, if_pos even]
        refine (splitPairs_localizes ha _).bind fun half halves => ?_
        refine (XORInplaceVec_localizes limits covers halves.1 halves.2 (by omega)).bind
          fun half_c hc => ?_
        exact ih _ (by omega) hc (by omega)
      · simp only [if_neg one, if_neg even]
        refine (splitPairs_localizes ha _).bind fun half halves => ?_
        refine (XORInplaceVec_localizes limits covers halves.1 halves.2 (by omega)).bind
          fun half_c hc => ?_
        refine (ih ((k + 1) / 2) (by omega) (a := half_c ++ [a.getD (k - 1) 0]) ?_
          (by omega)).congr fun i => ?_
        · simp only [List.forall_mem_append, List.forall_mem_cons]
          exact ⟨hc, getD_mem ha _, fun s member => absurd member List.not_mem_nil⟩
        · rw [own_getD, ownVec, ownVec, List.map_append]
          rfl

theorem prefixOR_localizes {a : List (Shared n F)} (ha : ∀ s ∈ a, s ∈ W) {k : Nat}
    (short : 2 * k ≤ m) :
    Localizes O W (fun c => ∀ s ∈ c, s ∈ W) ownVec (OnlineOp.prefixOR a k : Online alphai _)
      fun i => prefixOR (seat O T alphai i) (ownVec i a) k := by
  induction k using Nat.strong_induction_on generalizing a with
  | _ k ih =>
      rw [OnlineOp.prefixOR]
      conv in prefixOR _ _ _ => rw [prefixOR]
      refine Localizes.throwIf (fun i => by simp) .invalid_length fun _ => ?_
      refine Localizes.throwIf (fun _ => Iff.rfl) .undefined fun none => ?_
      by_cases one : k = 1
      · simp only [if_pos one]
        refine .ret_of ?_ fun i => ?_
        · simpa using getD_mem ha 0
        · rw [own_getD]
          rfl
      simp only [if_neg one]
      refine Localizes.congr (l := fun i => prefixOR (seat O T alphai i) (ownVec i (a.take (k / 2)))
        (k / 2) >>= fun half_c0 => prefixOR (seat O T alphai i) (ownVec i (a.drop (k / 2)))
        (k - k / 2) >>= fun half_c1 => ORInplaceVec (seat O T alphai i)
          (List.replicate (k - k / 2) (half_c0.getD (k / 2 - 1) 0)) half_c1 (k - k / 2) >>= fun tmp =>
            pure (half_c0 ++ tmp)) ?_ fun i => ?_
      · refine (ih (k / 2) (by omega) (fun s member => ha s (List.mem_of_mem_take member))
          (by omega)).bind fun half_c0 h0 => ?_
        refine (ih (k - k / 2) (by omega) (fun s member => ha s (List.mem_of_mem_drop member))
          (by omega)).bind fun half_c1 h1 => ?_
        refine ((ORVec_localizes limits covers (a := List.replicate (k - k / 2)
          (half_c0.getD (k / 2 - 1) 0)) ?_ h1 (k := k - k / 2) (by omega)).congr fun i => ?_).bind
            fun tmp htmp => ?_
        · intro s member
          rw [List.eq_of_mem_replicate member]
          exact getD_mem h0 _
        · rw [own_getD, ORInplaceVec]
          simp only [ownVec, List.map_replicate]
        · refine .ret_of (List.forall_mem_append.2 ⟨h0, htmp⟩) fun i => ?_
          rw [ownVec, ownVec, ownVec, List.map_append]
      · rw [ownVec, ownVec, ownVec, List.map_take, List.map_drop]

theorem ltPlain_localizes {a : List (Shared n F)} (ha : ∀ s ∈ a, s ∈ W) (b : List F) {k : Nat}
    (short : 2 * k ≤ m) :
    Localizes O W (· ∈ W) own (OnlineOp.ltPlain a b k : Online alphai _) fun i =>
      ltPlain (seat O T alphai i) (ownVec i a) b k := by
  refine (XORPlainVec_localizes covers ha b k).bind fun c hc => ?_
  have reversed : ∀ s ∈ c.reverse, s ∈ W := fun s member => hc s (List.mem_reverse.1 member)
  refine ((prefixOR_localizes limits covers reversed short).congr fun i => ?_).bind fun d hd => ?_
  · simp only [ownVec, List.map_reverse]
  have back : ∀ s ∈ d.reverse, s ∈ W := fun s member => hd s (List.mem_reverse.1 member)
  refine ((differences_localizes back k).congr fun i => ?_).bind fun e he => ?_
  · simp only [ownVec, List.map_reverse]
  exact (plainVec_localizes (T := T) covers .mul he b).bind fun tmp ⟨_, htmp⟩ =>
    sumEntries_localizes htmp k

end Vectors

include limits pair covers

theorem XOR_localizes {a b : Shared n F} (ha : a ∈ W) (hb : b ∈ W) :
    Localizes O W (· ∈ W) own (OnlineOp.XOR a b : Online alphai _) fun i =>
      XOR (seat O T alphai i) (a i) (b i) := by
  refine (mul_localizes limits pair covers ha hb).bind fun tmp htmp => .ret_of ?_ fun i => rfl
  exact sub_mem (sub_mem (add_mem ha hb) htmp) htmp

theorem carrySum_localizes {x y ca_in : Shared n F} (hx : x ∈ W) (hy : y ∈ W) (hca : ca_in ∈ W) :
    Localizes O W (fun r => r.1 ∈ W ∧ r.2 ∈ W) (fun i r => (own i r.1, own i r.2))
      (OnlineOp.carrySum x y ca_in : Online alphai _) fun i =>
        carrySum (seat O T alphai i) (x i) (y i) (ca_in i) := by
  refine (XOR_localizes limits pair covers hx hy).bind fun s hs => ?_
  refine (XOR_localizes limits pair covers hs hca).bind fun s hs => ?_
  refine (XOR_localizes limits pair covers hx hca).bind fun tmp htmp => ?_
  refine (XOR_localizes limits pair covers hy hca).bind fun ca_out hout => ?_
  refine (mul_localizes limits pair covers hout htmp).bind fun ca_out hout => ?_
  exact (XOR_localizes limits pair covers hout hca).bind fun ca_out hout =>
    .ret ⟨hout, hs⟩

theorem addBit_localizes (c : List (Shared n F)) {a b : List (Shared n F)} (positive : 0 < a.length)
    (short : a.length ≤ 2 ^ 31) (ha : ∀ s ∈ a, s ∈ W) (hb : ∀ s ∈ b, s ∈ W) :
    Localizes O W (fun c => c.length = a.length + 1 ∧ ∀ s ∈ c, s ∈ W) ownVec
      (OnlineOp.addBit c a b : Online alphai _) fun i =>
        addBit (seat O T alphai i) (ownVec i c) (ownVec i a) (ownVec i b) := by
  refine Localizes.throwIf (fun i => by simp) .invalid_length fun _ => ?_
  simp only [List.length_map, intRounds_eq short]
  refine (Localizes.index ha 0).bind fun a₀ ha₀ => ?_
  refine (Localizes.index hb 0).bind fun b₀ hb₀ => ?_
  refine (mul_localizes limits pair covers ha₀ hb₀).bind fun ca_in hca => ?_
  refine (XOR_localizes limits pair covers ha₀ hb₀).bind fun c₀ hc₀ => ?_
  let read (i : Fin n) (r : List (Shared n F) × Shared n F × Shared n F) :
      List (Share F) × Share F × Share F := (ownVec i r.1, own i r.2.1, own i r.2.2)
  let inside (l : Nat) (r : List (Shared n F) × Shared n F × Shared n F) : Prop :=
    r.1.length = l ∧ (∀ s ∈ r.1, s ∈ W) ∧ r.2.1 ∈ W ∧ r.2.2 ∈ W
  have start : inside 1 ([c₀], ca_in, 0) := by
    refine ⟨rfl, ?_, hca, zero_mem W⟩
    simpa using hc₀
  let step (l : Nat) (r : List (Shared n F) × Shared n F × Shared n F) : Online alphai _ := do
    let al ← Online.index a l
    let bl ← Online.index b l
    let s ← OnlineOp.carrySum al bl r.2.1
    return (r.1 ++ [s.2], s.1, s.1)
  let step' (i : Fin n) (l : Nat) (r : List (Share F) × Share F × Share F) : Local n F _ := do
    let al ← Local.index (ownVec i a) l
    let bl ← Local.index (ownVec i b) l
    let s ← carrySum (seat O T alphai i) al bl r.2.1
    return (r.1 ++ [s.2], s.1, s.1)
  have appended {l : Nat} {r : List (Shared n F) × Shared n F × Shared n F} (hr : inside l r)
      {s : Shared n F} (hs : s ∈ W) : ((r.1 ++ [s]).length = l + 1 ∧ ∀ x ∈ r.1 ++ [s], x ∈ W) ∧
        ∀ i, (read i r).1 ++ [own i s] = ownVec i (r.1 ++ [s]) := by
    refine ⟨⟨by simp [hr.1], ?_⟩, fun i => ?_⟩
    · simp only [List.forall_mem_append, List.forall_mem_cons]
      exact ⟨hr.2.1, hs, fun x member => absurd member List.not_mem_nil⟩
    · simp only [read, ownVec, List.map_append, List.map_cons, List.map_nil]
  have loop : Localizes O W (inside (1 + (a.length - 1))) read
      (Program.forRange step 1 (a.length - 1) ([c₀], ca_in, 0) : Online alphai _) fun i =>
        Local.forRange (step' i) 1 (a.length - 1) (read i ([c₀], ca_in, 0)) := by
    refine .forRange inside start fun l r _ _ hr => ?_
    refine (Localizes.index ha l).bind fun al hal => (Localizes.index hb l).bind fun bl hbl => ?_
    refine (carrySum_localizes limits pair covers hal hbl hr.2.2.1).bind fun s hs =>
      .ret_of ⟨(appended hr hs.2).1.1, (appended hr hs.2).1.2, hs.1, hs.1⟩ fun i => ?_
    rw [(appended hr hs.2).2]
  rw [Nat.add_sub_cancel' positive] at loop
  refine loop.bind fun r hr => ?_
  have held (i : Fin n) : (read i r).1.length = a.length := (List.length_map _).trans hr.1
  simp only [hr.1, held, resize_tail, List.append_nil]
  exact .ret_of (appended hr hr.2.2.2).1 (appended hr hr.2.2.2).2

end Network

section Modulus
variable {p : Nat} [Fact p.Prime] {alphai : Fin n → ZMod p} {O : Outside (ZMod p)} {T : TreeSum n}
  {W : Submodule (ZMod p) (Shared n (ZMod p))} {m : Nat} (limits : Limits O T m)
  (room : 2 * PSIZE ≤ m) (covers : Shared.Authentic alphai ≤ W)
include limits room covers

theorem preRand_localizes (fuel : Nat) :
    Localizes O W (fun r => r.1 ∈ W ∧ r.2.length = PSIZE ∧ ∀ s ∈ r.2, s ∈ W)
      (fun i r => (own i r.1, ownVec i r.2)) (OnlineOp.preRand fuel : Online alphai _) fun i =>
        preRand (seat O T alphai i) fuel := by
  induction fuel with
  | zero => exact .throw .outOfFuel
  | succ fuel ih =>
      have bit : Localizes O W (· ∈ W) own
          (Online.getOne >>= fun tmp => return tmp.bit : Online alphai _) fun _ => Local.getOne :=
        (Localizes.take Site.bit).map RandomBit.bit (fun tmp _ => covers tmp.authentic)
          fun _ _ _ => rfl
      refine (Localizes.mapMClear fun _ _ => bit).bind fun bitr ⟨length, hbitr⟩ => ?_
      refine (Localizes.definedClear (decompose p PSIZE)).bind fun pbits _ => ?_
      refine (ltPlain_localizes limits covers hbitr pbits room).bind fun flag hflag => ?_
      refine (Localizes.reveal limits rfl (a := [flag]) (by simpa using hflag) ?_).bind
        fun pflag _ => ?_
      · have := PSIZE_pos
        rw [List.length_singleton]
        omega
      refine (Localizes.indexClear pflag 0).bind fun pflag₀ _ => ?_
      by_cases accepted : pflag₀ = 1
      · simp only [if_pos accepted]
        refine (B2A_localizes hbitr PSIZE).bind fun r hr => .ret ⟨hr, ?_, hbitr⟩
        rw [length, List.length_range]
      · simp only [if_neg accepted]
        exact ih

theorem unmask_localizes {a r : Shared n (ZMod p)} {bitr : List (Shared n (ZMod p))} (ha : a ∈ W)
    (hr : r ∈ W) (length : bitr.length = PSIZE) (hbitr : ∀ s ∈ bitr, s ∈ W) :
    Localizes O W (fun c => c.length = PSIZE ∧ ∀ s ∈ c, s ∈ W) ownVec
      (OnlineOp.unmask a r bitr : Online alphai _) fun i =>
        unmask (seat O T alphai i) (a i) (r i) (ownVec i bitr) := by
  have pair : 2 ≤ m := by
    have := PSIZE_pos
    omega
  refine (Localizes.reveal limits rfl (a := [a - r]) (by simpa using sub_mem ha hr)
    (Nat.le_of_succ_le pair)).bind fun cp _ => ?_
  refine (Localizes.indexClear cp 0).bind fun cp₀ _ => ?_
  by_cases zero : (cp₀.val : Int) = 0
  · simp only [if_pos zero]
    exact .ret ⟨length, hbitr⟩
  simp only [if_neg zero]
  refine (Localizes.definedClear (decompose (p - (cp₀.val : Int)) PSIZE)).bind fun bound _ => ?_
  refine (ltPlain_localizes limits covers hbitr bound room).bind fun factor hfactor => ?_
  let tmp := OnlineOp.mulPlain factor 2
  let flipped := OnlineOp.addPlainInplace alphai (OnlineOp.subInplace factor tmp) 1
  have hflipped : flipped ∈ W :=
    add_mem (sub_mem hfactor (W.smul_mem _ hfactor)) (constant_mem covers 1)
  refine (Localizes.definedClear (decompose (cp₀.val : Int) PSIZE)).bind fun f _ => ?_
  refine (Localizes.definedClear (decompose (((2 : Int) <<< PSIZE) + (cp₀.val : Int) - p) PSIZE)).bind
    fun tf _ => ?_
  let select (l : Nat) : Shared n (ZMod p) := OnlineOp.addPlainInplace alphai
    (OnlineOp.mulPlain flipped (tf.getD l 0 - f.getD l 0)) (f.getD l 0)
  have selected : ∀ s ∈ (List.range PSIZE).map select, s ∈ W := by
    intro s member
    obtain ⟨l, _, rfl⟩ := List.mem_map.1 member
    exact add_mem (W.smul_mem _ hflipped) (constant_mem covers _)
  have size : ((List.range PSIZE).map select).length = PSIZE := by simp
  refine ((addBit_localizes limits pair covers [] (size.symm ▸ PSIZE_pos) (size.symm ▸ PSIZE_le)
    selected hbitr).congr fun i => ?_).bind fun bits added => .ret_of ⟨?_, ?_⟩ fun i => ?_
  · simp only [one_add_one_eq_two, ownVec, List.map_map]
    rfl
  · rw [List.length_dropLast, added.1, size, Nat.add_sub_cancel]
  · exact fun s member => added.2 s (List.mem_of_mem_dropLast member)
  · simp only [ownVec, List.map_dropLast]

theorem A2B_localizes (fuel : Nat) {a : Shared n (ZMod p)} (ha : a ∈ W) :
    Localizes O W (fun c => c.length = PSIZE ∧ ∀ s ∈ c, s ∈ W) ownVec
      (OnlineOp.A2B fuel a : Online alphai _) fun i => A2B (seat O T alphai i) fuel (a i) :=
  (preRand_localizes limits room covers fuel).bind fun _ hr =>
    unmask_localizes limits room covers ha hr.1 hr.2.1 hr.2.2

end Modulus

end ProofOfCustody.OnlineOp.Local
