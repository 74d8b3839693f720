import Mathlib
import ProofOfCustody.OnlineOp.BitsSpec

/-!
# Comparison, addition and conversions are exact

The rejection sampling of `pre_rand` and the two wrap-around cases of `A2B` together return the
canonical bits of a shared value, whatever bits are drawn.
-/

namespace ProofOfCustody.OnlineOp
open Effect Spdz Shared Binary

variable {n : Nat} {F : Type} [Field F] {alphai : Fin n → F}

def topDifference (d : List (Shared n F)) (k : Nat) : List (Shared n F) :=
  (List.range (k - 1)).map (fun i => sub (d.getD i 0) (d.getD (i + 1) 0)) ++ [d.getD (k - 1) 0]

theorem length_topDifference (d : List (Shared n F)) {k : Nat} (positive : 0 < k) :
    (topDifference d k).length = k := by
  simp [topDifference, Nat.sub_add_cancel positive]

theorem differences_topDifference {d : List (Shared n F)} {k : Nat} (length : d.length = k)
    (positive : 0 < k) (short : k ≤ 2 ^ 31) : differences sub d k = some (topDifference d k) :=
  differences_eq sub positive short length 0

theorem topDifference_cons (s s' : Shared n F) (d : List (Shared n F)) :
    topDifference (s :: s' :: d) (d.length + 2) =
      (s - s') :: topDifference (s' :: d) (d.length + 1) := by
  simp only [topDifference, Nat.add_sub_cancel, show d.length + 2 - 1 = d.length + 1 by omega,
    List.range_succ_eq_map, List.map_cons, List.map_map, List.cons_append]
  rfl

theorem topDifference_val {d : List (Shared n F)} {c : List Bool} (h : Encodes d (orSuffix c))
    (nonempty : c ≠ []) : (topDifference d d.length).map val = top c := by
  induction c generalizing d with
  | nil => exact absurd rfl nonempty
  | cons x c ih =>
      obtain ⟨s, d, rfl, head, tail⟩ := List.map_eq_cons_iff.1 (h.trans (List.map_cons ..))
      cases c with
      | nil =>
          obtain rfl := List.map_eq_nil_iff.1 tail
          simpa [topDifference, top, orSuffix] using head
      | cons x' c =>
          obtain ⟨s', d, rfl, head', _⟩ := List.map_eq_cons_iff.1 (tail.trans (List.map_cons ..))
          have marks : top (x :: x' :: c) =
              (bit (x || (x' :: c).any id) - bit ((x' :: c).any id) : F) :: top (x' :: c) := rfl
          rw [marks, List.length_cons, List.length_cons, topDifference_cons, List.map_cons, map_sub,
            head, head', ← List.length_cons, ih tail (by simp)]
          simp

theorem sumEntries_sum {tmp : List (Shared n F)} {k : Nat} (length : tmp.length = k)
    (positive : 0 < k) (short : k ≤ 2 ^ 31) : sumEntries addInplace tmp k = some tmp.sum := by
  rw [sumEntries_eq addInplace positive short length 0]
  obtain ⟨s, tmp, rfl⟩ := List.exists_cons_of_length_pos (length ▸ positive)
  have entries : (List.range' 1 (k - 1)).map (fun i => (s :: tmp).getD i 0) = tmp := by
    subst length
    refine List.ext_getElem (by simp) fun i hi hi' => ?_
    simp [Nat.add_comm 1 i, hi']
  rw [← List.foldl_map (g := addInplace), entries, List.sum_eq_foldl, List.foldl_cons, zero_add]
  rfl

theorem marked_sum {d tmp : List (Shared n F)} {xs ys : List Bool} {k : Nat}
    (la : xs.length = k) (lb : ys.length = k) (positive : 0 < k) (short : k ≤ 2 ^ 31)
    (hd : Encodes d (orPrefix false (List.zipWith xor xs ys).reverse))
    (htmp : tmp.map val =
      List.zipWith (· * ·) ((topDifference d.reverse k).map val) (ys.map bit)) :
    ∃ c, sumEntries addInplace tmp k = some c ∧ val c = bit (decide (toNat xs < toNat ys)) := by
  have lc : (List.zipWith xor xs ys).length = k := by simp [la, lb]
  have hd' := hd.reverse
  rw [orPrefix_reverse] at hd'
  have ld : d.reverse.length = k := by simpa [lc] using hd.length_eq
  have marks := topDifference_val hd' (by rw [← List.length_pos_iff_ne_nil, lc]; exact positive)
  rw [ld] at marks
  rw [marks] at htmp
  have ltmp : tmp.length = k := by
    simpa [← marks, length_topDifference _ positive, lb] using congrArg List.length htmp
  refine ⟨_, sumEntries_sum ltmp positive short, ?_⟩
  rw [map_list_sum, htmp, sum_top_xor (la.trans lb.symm)]

section Values
variable [NeZero n] {A : Draw (spdz alphai) → Prop} {E : Err → Prop}

theorem lt_spec {a b : List (Shared n F)} {xs ys : List Bool} {k : Nat} (ha : Encodes a xs)
    (hb : Encodes b ys) (la : xs.length = k) (lb : ys.length = k) (positive : 0 < k)
    (short : k ≤ 2 ^ 31) :
    Program.Meets A (fun c => val c = bit (decide (toNat xs < toNat ys))) E
      (lt a b k : Online alphai _) := by
  have lc : (List.zipWith xor xs ys).length = k := by simp [la, lb]
  refine (XORVec_spec ha hb la lb short).bind fun c hc => ?_
  refine (prefixOR_spec hc.reverse (by simpa using lc) positive (by omega)).bind fun d hd => ?_
  have ld : d.reverse.length = k := by simpa [lc] using hd.length_eq
  have le : (topDifference d.reverse k).length = b.length := by
    rw [length_topDifference _ positive, hb.length_eq, lb]
  rw [differences_topDifference ld positive short, Online.defined_some, Program.ret_bind]
  refine (mulVec_spec [] le (by rwa [length_topDifference _ positive])).bind fun tmp htmp => ?_
  have := htmp.1
  rw [hb] at this
  obtain ⟨c, sum, value⟩ := marked_sum la lb positive short hd this
  rw [sum]
  exact value

theorem ltPlain_spec {a : List (Shared n F)} {xs ys : List Bool} {k : Nat} (ha : Encodes a xs)
    (la : xs.length = k) (lb : ys.length = k) (positive : 0 < k) (short : k ≤ 2 ^ 31) :
    Program.Meets A (fun c => val c = bit (decide (toNat xs < toNat ys))) E
      (ltPlain a (ys.map bit) k : Online alphai _) := by
  have lc : (List.zipWith xor xs ys).length = k := by simp [la, lb]
  refine (XORPlainVec_spec ha la lb).bind fun c hc => ?_
  refine (prefixOR_spec hc.reverse (by simpa using lc) positive (by omega)).bind fun d hd => ?_
  have ld : d.reverse.length = k := by simpa [lc] using hd.length_eq
  have le : (topDifference d.reverse k).length = (ys.map (bit (R := F))).length := by
    rw [length_topDifference _ positive, List.length_map, lb]
  have products : (List.zipWith mulPlain (topDifference d.reverse k) (ys.map bit)).map val =
      List.zipWith (· * ·) ((topDifference d.reverse k).map val) (ys.map bit) := by
    rw [List.map_zipWith, List.zipWith_map_left]
    simp only [mulPlain, val_smul, mul_comm]
  rw [differences_topDifference ld positive short, Online.defined_some, Program.ret_bind]
  rw [mulPlainVec, zipVec_eq le, Program.ret_bind]
  obtain ⟨c, sum, value⟩ := marked_sum la lb positive short hd products
  rw [sum]
  exact value

omit [NeZero n] in
theorem lt_none {a b : List (Shared n F)} {k : Nat} (large : 2 ^ 31 < k) :
    Program.Meets (fun _ => True) (fun _ => False) (fun _ => True) (lt a b k : Online alphai _) := by
  refine (Program.meets_true _).bind fun c _ => (Program.meets_true _).bind fun d _ => ?_
  rw [differences_none sub _ large]
  trivial

omit [NeZero n] in
theorem ltPlain_none {a : List (Shared n F)} {b : List F} {k : Nat} (large : 2 ^ 31 < k) :
    Program.Meets (fun _ => True) (fun _ => False) (fun _ => True)
      (ltPlain a b k : Online alphai _) := by
  refine (Program.meets_true _).bind fun c _ => (Program.meets_true _).bind fun d _ => ?_
  rw [differences_none sub _ large]
  trivial

/-! ## Addition -/

theorem carrySum_spec {x y ca_in : Shared n F} {bx bY bc : Bool} (hx : val x = bit bx)
    (hy : val y = bit bY) (hc : val ca_in = bit bc) :
    Program.Meets A (fun r => val r.1 = bit (carryBit bx bY bc) ∧ val r.2 = bit (sumBit bx bY bc)) E
      (carrySum x y ca_in : Online alphai _) := by
  refine (XOR_spec hx hy).bind fun s hs => ?_
  refine (XOR_spec hs hc).bind fun s' hs' => ?_
  refine (XOR_spec hx hc).bind fun tmp htmp => ?_
  refine (XOR_spec hy hc).bind fun out hout => ?_
  refine (AND_spec hout htmp).bind fun out' hout' => ?_
  refine (XOR_spec hout' hc).bind fun out'' hout'' => ?_
  exact ⟨hout'', hs'⟩

theorem carrySumPlain_spec {x ca_in : Shared n F} {bx bY bc : Bool} (hx : val x = bit bx)
    (hc : val ca_in = bit bc) :
    Program.Meets A (fun r => val r.1 = bit (carryBit bx bY bc) ∧ val r.2 = bit (sumBit bx bY bc)) E
      (carrySumPlain x (bit bY) ca_in : Online alphai _) := by
  have both : val (ANDPlain x (bit bY)) = bit (bx && bY) := by
    rw [ANDPlain, mulPlain, val_smul, hx]
    cases bx <;> cases bY <;> simp
  refine (XOR_spec (XORPlain_val hx) hc).bind fun s hs => ?_
  refine (AND_spec (XORPlain_val hx) hc).bind fun tmp htmp => ?_
  refine (OR_spec both htmp).bind fun out hout => ⟨hout.trans ?_, hs⟩
  congr 1
  cases bx <;> cases bY <;> cases bc <;> rfl

omit [NeZero n] in
/-- The loop of both additions. The carry in the third component stays unassigned when there is
one position only. -/
theorem ripple_spec {f : Nat → Shared n F → Online alphai (Shared n F × Shared n F)}
    {xs ys : List Bool} (same : xs.length = ys.length) {x y : Bool} (first : xs[0]? = some x)
    (first' : ys[0]? = some y) {c₀ ca : Shared n F} (hc₀ : val c₀ = bit (xor x y))
    (hca : val ca = bit (x && y))
    (step : ∀ i (hx : i < xs.length) (hy : i < ys.length) ca_in carry, val ca_in = bit carry →
      Program.Meets A (fun r => val r.1 = bit (carryBit xs[i] ys[i] carry) ∧
        val r.2 = bit (sumBit xs[i] ys[i] carry)) E (f i ca_in)) :
    Program.Meets A (fun s => ∃ zs carry, Encodes s.1 zs ∧ zs.length = xs.length ∧
        val s.2.2 = bit (decide (2 ≤ xs.length) && carry) ∧
        toNat zs + 2 ^ xs.length * carry.toNat = toNat xs + toNat ys) E
      (Program.forRange (fun i (s : List (Shared n F) × Shared n F × Shared n F) =>
        f i s.2.1 >>= fun r => .ret (s.1 ++ [r.2], r.1, r.1)) 1 (xs.length - 1) ([c₀], ca, 0)) := by
  obtain ⟨positive, hx⟩ := List.getElem?_eq_some_iff.1 first
  obtain ⟨positive', hy⟩ := List.getElem?_eq_some_iff.1 first'
  refine (Program.Meets.forRange (fun i (s : List (Shared n F) × Shared n F × Shared n F) =>
    ∃ zs carry, Encodes s.1 zs ∧ zs.length = i ∧ val s.2.1 = bit carry ∧
      val s.2.2 = bit (decide (2 ≤ i) && carry) ∧
      toNat zs + 2 ^ i * carry.toNat = toNat (xs.take i) + toNat (ys.take i)) 1 (xs.length - 1)
      ([c₀], ca, 0) ?start ?step).imp ?finish
  case start =>
    refine ⟨[xor x y], x && y, .cons hc₀ .nil, rfl, hca, map_zero val, ?_⟩
    rw [← List.take_append_getElem (l := xs) (i := 0) positive,
      ← List.take_append_getElem (l := ys) (i := 0) positive', hx, hy]
    cases x <;> cases y <;> simp
  case step =>
    rintro i ⟨c, ca_in, ca_out⟩ lower upper ⟨zs, carry, hz, lz, hin, _, value⟩
    refine (step i (by omega) (by omega) ca_in carry hin).bind ?_
    rintro ⟨out, ci⟩ ⟨hout, hci⟩
    have before : toNat zs + 2 ^ (xs.take i).length * carry.toNat =
        toNat (xs.take i) + toNat (ys.take i) := by rwa [List.length_take_of_le (by omega)]
    have after := ripple_step (x := xs[i]) (y := ys[i]) (by simp; omega) (by simp; omega) before
    rw [List.take_append_getElem, List.take_append_getElem, List.length_take_of_le (by omega)] at after
    refine ⟨_, _, hz.push hci, by simp [lz], hout, ?_, after⟩
    rw [decide_eq_true (show 2 ≤ i + 1 by omega), Bool.true_and]
    exact hout
  case finish =>
    rintro ⟨c, ca_in, ca_out⟩ ⟨zs, carry, hz, lz, _, hout, value⟩
    rw [show 1 + (xs.length - 1) = xs.length by omega] at lz hout value
    refine ⟨zs, carry, hz, lz, hout, ?_⟩
    rwa [List.take_length, same, List.take_length, ← same] at value

def SumBits (xs ys : List Bool) (c : List (Shared n F)) : Prop :=
  ∃ zs carry, Encodes c (zs ++ [decide (2 ≤ xs.length) && carry]) ∧ zs.length = xs.length ∧
    toNat zs + 2 ^ xs.length * carry.toNat = toNat xs + toNat ys

theorem addBit_sum (c : List (Shared n F)) {a b : List (Shared n F)} {xs ys : List Bool}
    (ha : Encodes a xs) (hb : Encodes b ys) (same : xs.length = ys.length)
    (positive : 0 < xs.length) (short : xs.length ≤ 2 ^ 31) :
    Program.Meets A (SumBits xs ys) E (addBit c a b : Online alphai _) := by
  have la := ha.length_eq
  have lb := hb.length_eq
  rw [addBit, if_neg (by omega), Online.index_of_lt (i := 0) (by omega),
    Online.index_of_lt (i := 0) (by omega)]
  simp only [Program.ret_bind]
  refine (AND_spec (ha.getElem (by omega)) (hb.getElem (by omega))).bind fun ca hca => ?_
  refine (XOR_spec (ha.getElem (by omega)) (hb.getElem (by omega))).bind fun c₀ hc₀ => ?_
  have ripple := ripple_spec (A := A) (E := E) same (List.getElem?_eq_getElem positive)
    (List.getElem?_eq_getElem (same ▸ positive)) hc₀ hca
    (f := fun i ca_in => (do
      let ai ← Online.index a i
      let bi ← Online.index b i
      carrySum ai bi ca_in : Online alphai _)) ?_
  · rw [la, intRounds_eq short]
    simp only [bind_assoc] at ripple ⊢
    refine ripple.bind ?_
    rintro ⟨sum, _, out⟩ ⟨zs, carry, hz, lz, hout, value⟩
    simp only [Program.pure_eq, Program.meets_ret, hz.length_eq, lz, resize_tail, List.append_nil]
    exact ⟨zs, carry, hz.push hout, lz, value⟩
  · intro i hx hy ca_in carry hin
    rw [Online.index_of_lt (by omega), Online.index_of_lt (by omega)]
    simp only [Program.ret_bind]
    exact carrySum_spec (ha.getElem (by omega)) (hb.getElem (by omega)) hin

theorem addBitPlain_sum (c : List (Shared n F)) {a : List (Shared n F)} {xs ys : List Bool}
    (ha : Encodes a xs) (same : xs.length = ys.length) (positive : 0 < xs.length)
    (short : xs.length ≤ 2 ^ 31) :
    Program.Meets A (SumBits xs ys) E (addBitPlain c a (ys.map bit) : Online alphai _) := by
  have la := ha.length_eq
  have lb : (ys.map (bit (R := F))).length = ys.length := List.length_map ..
  rw [addBitPlain, if_neg (by omega), Online.index_of_lt (i := 0) (by omega),
    Online.index_of_lt (i := 0) (by omega)]
  simp only [Program.ret_bind]
  have hca : val (ANDPlain a[0] ((ys.map (bit (R := F)))[0])) = bit (xs[0] && ys[0]) := by
    rw [ANDPlain, mulPlain, val_smul, ha.getElem, List.getElem_map, List.get_eq_getElem]
    cases xs[0] <;> cases ys[0] <;> simp
  have hc₀ : val (XORPlain alphai a[0] ((ys.map (bit (R := F)))[0])) = bit (xor xs[0] ys[0]) := by
    rw [List.getElem_map]
    exact XORPlain_val (ha.getElem (by omega))
  have ripple := ripple_spec (A := A) (E := E) same (List.getElem?_eq_getElem positive)
    (List.getElem?_eq_getElem (same ▸ positive)) hc₀ hca
    (f := fun i ca_in => (do
      let ai ← Online.index a i
      let bi ← Online.index (ys.map bit) i
      carrySumPlain ai bi ca_in : Online alphai _)) ?_
  · rw [show intRounds a.length - 1 = xs.length - 1 by rw [la, intRounds_eq short],
      show a.length + 1 = xs.length + 1 by rw [la]]
    simp only [bind_assoc] at ripple ⊢
    refine ripple.bind ?_
    rintro ⟨sum, _, out⟩ ⟨zs, carry, hz, lz, hout, value⟩
    simp only [Program.pure_eq, Program.meets_ret, hz.length_eq, lz, resize_tail, List.append_nil]
    exact ⟨zs, carry, hz.push hout, lz, value⟩
  · intro i hx hy ca_in carry hin
    rw [Online.index_of_lt (by omega), Online.index_of_lt (by omega), List.getElem_map]
    simp only [Program.ret_bind]
    exact carrySumPlain_spec (ha.getElem (by omega)) hin

theorem addBit_spec (c : List (Shared n F)) {a b : List (Shared n F)} {xs ys : List Bool}
    (ha : Encodes a xs) (hb : Encodes b ys) (same : xs.length = ys.length)
    (several : 2 ≤ xs.length) (short : xs.length ≤ 2 ^ 31) :
    Program.Meets A (fun c => ∃ zs, Encodes c zs ∧ zs.length = xs.length + 1 ∧
      toNat zs = toNat xs + toNat ys) E (addBit c a b : Online alphai _) := by
  refine (addBit_sum c ha hb same (by omega) short).imp fun c h => ?_
  obtain ⟨zs, carry, encodes, length, value⟩ := h
  rw [decide_eq_true several, Bool.true_and] at encodes
  refine ⟨_, encodes, by simp [length], ?_⟩
  simpa [toNat_append, length] using value

end Values

/-! ## Conversions -/

theorem shifted_bits (k m : Nat) :
    ((List.range k).map fun i => (((fun tmp : Int => tmp >>> (1 : Nat))^[i] m % 2 : Int) : F)) =
      (ofNat k m).map bit := by
  induction k generalizing m with
  | zero => rfl
  | succ k ih =>
      rw [List.range_succ_eq_map, List.map_cons, List.map_map, ofNat, List.map_cons, ← ih]
      congr 1
      rw [Function.iterate_zero_apply]
      rcases Nat.mod_two_eq_zero_or_one m with h | h
      · rw [show (m : Int) % 2 = 0 by omega]
        simp [h]
      · rw [show (m : Int) % 2 = 1 by omega]
        simp [h]

theorem decompose_eq {k : Nat} (positive : 0 < k) (short : k ≤ 2 ^ 31) (m : Nat) :
    (decompose (m : Int) k : Option (List F)) = some ((ofNat k m).map bit) := by
  rw [decompose, shiftBits_eq _ _ _ positive short, shifted_bits]

theorem toNat_take_succ {xs : List Bool} {i : Nat} (h : i < xs.length) :
    toNat (xs.take (i + 1)) = toNat (xs.take i) + 2 ^ i * xs[i].toNat := by
  rw [← List.take_append_getElem h, toNat_append, List.length_take_of_le (by omega)]
  simp

def recompose (bits : List (Shared n F)) (k : Nat) : Shared n F :=
  (List.range' 1 (k - 1)).foldl (fun c i => addInplace c (mulPlain (bits.getD i 0) (power (1 + 1) i)))
    (bits.getD 0 0)

theorem B2A_eq {bits : List (Shared n F)} {k : Nat} (length : bits.length = k) (positive : 0 < k)
    (short : k ≤ 2 ^ 31) : B2A bits k = some (recompose bits k) := by
  rw [recompose, one_add_one_eq_two]
  exact sumPowers_eq _ _ positive short length 0

theorem recompose_val {bits : List (Shared n F)} {xs : List Bool} {k : Nat} (h : Encodes bits xs)
    (length : xs.length = k) (positive : 0 < k) : val (recompose bits k) = (toNat xs : F) := by
  have fold (m : Nat) (bound : m < k) :
      val ((List.range' 1 m).foldl (fun c i => addInplace c (mulPlain (bits.getD i 0) (power 2 i)))
        (bits.getD 0 0)) = (toNat (xs.take (m + 1)) : F) := by
    induction m with
    | zero =>
        rw [toNat_take_succ (by omega), List.range'_zero, List.foldl_nil, h.getD,
          List.getD_eq_getElem _ _ (by omega)]
        cases xs[0] <;> simp
    | succ m ih =>
        rw [List.range'_1_concat, List.foldl_append, List.foldl_cons, List.foldl_nil, addInplace,
          Nat.add_comm 1 m, map_add, ih (by omega), toNat_take_succ (i := m + 1) (by omega), mulPlain,
          val_smul, h.getD, List.getD_eq_getElem _ _ (by omega), power_eq (by omega)]
        cases xs[m + 1] <;> simp
  have := fold (k - 1) (by omega)
  rw [Nat.sub_add_cancel positive, ← length, List.take_length, length] at this
  rwa [recompose, one_add_one_eq_two]

theorem drawBits_eq {γ : Type} (l : List γ) {k : Nat} (length : l.length = k) :
    (l.mapM fun _ => do
        let tmp ← Online.getOne
        return tmp.bit : Online alphai (List (Shared n F))) =
      Program.drawAll (S := spdz alphai) Site.bit k fun (v : Fin k → RandomBit alphai) =>
        .ret (List.ofFn fun i => (v i).bit) := by
  induction l generalizing k with
  | nil =>
      subst length
      rfl
  | cons x l ih =>
      subst length
      rw [List.mapM_cons, ih rfl, List.length_cons, Program.drawAll]
      refine congrArg (Program.draw (S := spdz alphai) Site.bit) (funext fun m => ?_)
      change (Program.drawAll (S := spdz alphai) Site.bit l.length
        (fun (v : Fin _ → RandomBit alphai) => Program.ret (List.ofFn fun i => (v i).bit))) >>=
          (fun rest => Program.ret (m.bit :: rest)) = _
      rw [Program.drawAll_bind]
      congr 1
      funext v
      simp [List.ofFn_succ]

section Modulus
variable {p : Nat} [Fact p.Prime] {alphai : Fin n → ZMod p}

def truth (t : RandomBit alphai) : Bool := decide (val t.bit = 1)

theorem val_bit (t : RandomBit alphai) : val t.bit = bit (truth t) := by
  rcases t.is_bit with h | h <;> simp [truth, h]

theorem block_encodes {k : Nat} (v : Fin k → RandomBit alphai) :
    Encodes (List.ofFn fun i => (v i).bit) (List.ofFn fun i => truth (v i)) :=
  .of_getElem (by simp) fun i _ _ => by simpa using val_bit _

variable [NeZero n] {A : Draw (spdz alphai) → Prop}

structure Mask (r : Shared n (ZMod p)) (bitr : List (Shared n (ZMod p))) (rs : List Bool) : Prop where
  bits : Encodes bitr rs
  length : rs.length = PSIZE
  bound : toNat rs < p
  value : val r = (toNat rs : ZMod p)

theorem preRand_spec (small : p < 2 ^ PSIZE) (fuel : Nat) :
    Program.Meets A (fun r => ∃ rs, Mask r.1 r.2 rs) (· = .outOfFuel)
      (preRand fuel : Online alphai _) := by
  induction fuel with
  | zero => exact rfl
  | succ fuel ih =>
      rw [preRand, drawBits_eq (List.range PSIZE) List.length_range, Program.drawAll_bind,
        Program.meets_drawAll]
      intro v _
      obtain ⟨rs, block, length⟩ : ∃ rs, Encodes (List.ofFn fun i => (v i).bit) rs ∧
          rs.length = PSIZE :=
        ⟨_, block_encodes v, List.length_ofFn⟩
      rw [Program.ret_bind, decompose_eq PSIZE_pos PSIZE_le, Online.defined_some, Program.ret_bind]
      refine (ltPlain_spec block length (length_ofNat PSIZE p) PSIZE_pos PSIZE_le).bind
        fun flag hflag => ?_
      rw [Online.meets_reveal, List.map_singleton, Online.index_zero, Program.ret_bind, hflag,
        toNat_ofNat_of_lt small]
      split
      · rename_i accepted
        rw [B2A_eq (block.length_eq.trans length) PSIZE_pos PSIZE_le]
        refine ⟨_, block, length, ?_, recompose_val block length PSIZE_pos⟩
        by_contra rejected
        simp [rejected] at accepted
      · exact ih

theorem masked_sum {p k b r : Nat} (small : p < 2 ^ k) (hb : b < p) (hr : r < p) :
    (toNat (if !decide (r < p - b) then ofNat k (2 * 2 ^ k + b - p) else ofNat k b) + r) % 2 ^ k =
      (b + r) % p := by
  by_cases low : r < p - b
  · simp only [low, decide_true, Bool.not_true, Bool.false_eq_true, if_false]
    rw [toNat_ofNat_of_lt (by omega), Nat.mod_eq_of_lt (by omega), Nat.mod_eq_of_lt (by omega)]
  · simp only [low, decide_false, Bool.not_false, if_true]
    have wrapped : (2 * 2 ^ k + b - p) % 2 ^ k = 2 ^ k + b - p := by
      rw [show 2 * 2 ^ k + b - p = (2 ^ k + b - p) + 2 ^ k by omega, Nat.add_mod_right]
      exact Nat.mod_eq_of_lt (by omega)
    rw [toNat_ofNat, wrapped, show 2 ^ k + b - p + r = (b + r - p) + 2 ^ k by omega,
      Nat.add_mod_right, Nat.mod_eq_sub_mod (show p ≤ b + r by omega),
      Nat.mod_eq_of_lt (show b + r - p < p by omega), Nat.mod_eq_of_lt (by omega)]

theorem val_eq_mod (x : ZMod p) (r : Nat) : x.val = ((x - (r : ZMod p)).val + r) % p := by
  rw [← ZMod.val_natCast, Nat.cast_add, ZMod.natCast_zmod_val, sub_add_cancel]

variable (alphai) in
theorem select_encodes {factor : Shared n (ZMod p)} {wraps : Bool} {f tf : List Bool} {k : Nat}
    (hfactor : val factor = bit wraps) (lf : f.length = k) (ltf : tf.length = k) :
    Encodes ((List.range k).map fun i =>
        addPlainInplace alphai
          (mulPlain factor ((tf.map bit).getD i 0 - (f.map bit).getD i 0)) ((f.map bit).getD i 0))
      (if wraps then tf else f) := by
  have entry (w : List Bool) (i : Nat) : (w.map (bit (R := ZMod p))).getD i 0 = bit (w.getD i false) := by
    rw [← bit_false, List.getD_map]
  have length : (if wraps then tf else f).length = k := by split <;> assumption
  refine .of_getElem (by simp [length]) fun i hi hi' => ?_
  simp only [List.getElem_map, List.getElem_range, addPlainInplace, mulPlain, map_add, val_smul,
    val_constant, hfactor, entry, ← List.getD_eq_getElem _ false hi']
  cases wraps <;> simp

omit [Fact p.Prime] [NeZero n] in
theorem decompose_bound {b : Nat} (hb : b < p) :
    (decompose ((p : Int) - b) PSIZE : Option (List F)) = some ((ofNat PSIZE (p - b)).map bit) := by
  rw [← Nat.cast_sub hb.le, decompose_eq PSIZE_pos PSIZE_le]

omit [Fact p.Prime] [NeZero n] in
theorem decompose_wrap {b : Nat} (small : p < 2 ^ PSIZE) :
    (decompose (((2 : Int) <<< PSIZE) + b - p) PSIZE : Option (List F)) =
      some ((ofNat PSIZE (2 * 2 ^ PSIZE + b - p)).map bit) := by
  have wrap : ((2 : Int) <<< PSIZE) + b - p = ((2 * 2 ^ PSIZE + b - p : Nat) : Int) := by
    rw [Int.shiftLeft_eq]
    push_cast [show p ≤ 2 * 2 ^ PSIZE + b by omega]
    ring
  rw [wrap, decompose_eq PSIZE_pos PSIZE_le]

theorem unmask_spec {E : Err → Prop} (small : p < 2 ^ PSIZE) (a : Shared n (ZMod p))
    {r : Shared n (ZMod p)} {bitr : List (Shared n (ZMod p))} {rs : List Bool}
    (mask : Mask r bitr rs) :
    Program.Meets A (fun bits => Encodes bits (ofNat PSIZE (val a).val)) E
      (unmask a r bitr : Online alphai _) := by
  have residue := val_eq_mod (val a) (toNat rs)
  have word {w : List Bool} (length : w.length = PSIZE) (value : toNat w = (val a).val) :
      w = ofNat PSIZE (val a).val := by
    rw [← value, ← length, ofNat_toNat]
  simp only [unmask, sub]
  rw [Online.meets_reveal, List.map_singleton, Online.index_zero, Program.ret_bind, map_sub,
    mask.value]
  have hb := ZMod.val_lt (val a - (toNat rs : ZMod p))
  generalize (val a - (toNat rs : ZMod p)).val = b at residue hb
  split
  · rename_i zero
    rw [Int.natCast_eq_zero.1 zero, Nat.zero_add, Nat.mod_eq_of_lt mask.bound] at residue
    change Encodes bitr _
    rw [← word mask.length residue.symm]
    exact mask.bits
  · simp only [decompose_bound hb, decompose_wrap small, decompose_eq PSIZE_pos PSIZE_le,
      Online.defined_some, Program.ret_bind]
    refine (ltPlain_spec mask.bits mask.length (length_ofNat PSIZE _) PSIZE_pos PSIZE_le).bind
      fun factor hfactor => ?_
    rw [toNat_ofNat_of_lt (by omega)] at hfactor
    have wraps : val (addPlainInplace alphai (subInplace factor (mulPlain factor 2)) 1) =
        bit !decide (toNat rs < p - b) := by
      rw [addPlainInplace, map_add, val_constant, subInplace, map_sub, mulPlain, val_smul, hfactor]
      cases decide (toNat rs < p - b) <;> norm_num
    have hsum := select_encodes alphai wraps (length_ofNat PSIZE b)
      (length_ofNat PSIZE (2 * 2 ^ PSIZE + b - p))
    have total := masked_sum small hb mask.bound
    generalize hw : (if !decide (toNat rs < p - b) then _ else _) = w at hsum total
    have lw : w.length = PSIZE := by
      rw [← hw]
      split <;> exact length_ofNat _ _
    refine (addBit_spec [] hsum mask.bits (lw.trans mask.length.symm) ?_ (lw ▸ PSIZE_le)).bind ?_
    · rw [lw, PSIZE_eq]
      decide
    · rintro bits ⟨zs, hbits, lzs, value⟩
      rw [lw] at lzs
      have := hbits.dropLast
      rwa [word (w := zs.dropLast) (by simp [lzs])
        (by rw [toNat_dropLast lzs, value, total, residue])] at this

theorem A2B_spec (small : p < 2 ^ PSIZE) (fuel : Nat) (a : Shared n (ZMod p)) :
    Program.Meets A (fun bits => Encodes bits (ofNat PSIZE (val a).val)) (· = .outOfFuel)
      (A2B fuel a : Online alphai _) := by
  refine (preRand_spec small fuel).bind ?_
  rintro ⟨r, bitr⟩ ⟨rs, mask⟩
  exact unmask_spec small a mask

end Modulus

end ProofOfCustody.OnlineOp
