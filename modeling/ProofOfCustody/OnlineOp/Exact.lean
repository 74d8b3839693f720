import Mathlib
import ProofOfCustody.OnlineOp.Rejection
import ProofOfCustody.Params.Primes
import ProofOfCustody.Spdz.Plain

/-!
# Comparison, addition and `A2B` over whole runs
-/

namespace ProofOfCustody.OnlineOp
open Effect Spdz Shared Binary

variable {n : Nat}

section Comparison
variable {F : Type} [Field F] {alphai : Fin n → F}

/-- `lt` with its reference parameters: the two vectors are passed by reference and only read. -/
def ltByRef (a b : List (Shared n F)) (k : Nat) :
    Online alphai (Shared n F × List (Shared n F) × List (Shared n F)) := do
  let bit ← lt a b k
  return (bit, a, b)

def ltPlainByRef (a : List (Shared n F)) (b : List F) (k : Nat) :
    Online alphai (Shared n F × List (Shared n F) × List F) := do
  let bit ← ltPlain a b k
  return (bit, a, b)

theorem ltByRef_invalid {a b : List (Shared n F)} {k : Nat}
    (invalid : ¬(a.length = k ∧ b.length = k)) (t : Tape (spdz alphai)) :
    (ltByRef a b k).run t = ⟨[], [], .error .invalid_length, t⟩ := by
  unfold ltByRef lt XORVec
  rw [if_pos (by rwa [← not_and_or])]
  rfl

theorem ltPlainByRef_invalid {a : List (Shared n F)} {b : List F} {k : Nat}
    (invalid : ¬(a.length = k ∧ b.length = k)) (t : Tape (spdz alphai)) :
    (ltPlainByRef a b k).run t = ⟨[], [], .error .invalid_length, t⟩ := by
  unfold ltPlainByRef ltPlain XORPlainVec
  rw [if_pos (by rwa [← not_and_or])]
  rfl

theorem ltByRef_wraps {a b : List (Shared n F)} {k : Nat} (large : 2 ^ 31 < k)
    (t : Tape (spdz alphai)) : ¬∃ r, ((ltByRef a b k).run t).result = .ok r := by
  rintro ⟨r, returned⟩
  have meets : (ltByRef a b k : Online alphai _).Meets (fun _ => True) (fun _ => False)
      (fun _ => True) := (lt_none large).bind fun _ => False.elim
  exact meets.returned (fun _ _ => trivial) returned

theorem ltPlainByRef_wraps {a : List (Shared n F)} {b : List F} {k : Nat} (large : 2 ^ 31 < k)
    (t : Tape (spdz alphai)) : ¬∃ r, ((ltPlainByRef a b k).run t).result = .ok r := by
  rintro ⟨r, returned⟩
  have meets : (ltPlainByRef a b k : Online alphai _).Meets (fun _ => True) (fun _ => False)
      (fun _ => True) := (ltPlain_none large).bind fun _ => False.elim
  exact meets.returned (fun _ _ => trivial) returned

end Comparison

section Addition
variable {F : Type} [Field F] {alphai : Fin n → F}

def AddsExactly (xs ys : List Bool) (r r' : Except Err (List (Shared n F))) : Prop :=
  ∃ c c' zs, r = .ok c ∧ r' = .ok c' ∧ Encodes c zs ∧ Encodes c' zs ∧ zs.length = xs.length + 1 ∧
    toNat zs = toNat xs + toNat ys

theorem SumBits.exact_iff {xs ys : List Bool} {c : List (Shared n F)} (h : SumBits xs ys c)
    (same : xs.length = ys.length) (positive : 0 < xs.length) :
    (∃ zs, Encodes c zs ∧ zs.length = xs.length + 1 ∧ toNat zs = toNat xs + toNat ys) ↔
      2 ≤ xs.length ∨ xs = [false] ∨ ys = [false] := by
  obtain ⟨zs, carry, encodes, length, value⟩ := h
  constructor
  · rintro ⟨ws, encodes', length', value'⟩
    by_contra single
    rw [not_or, not_or, Nat.not_le] at single
    obtain ⟨x, rfl⟩ := List.length_eq_one_iff.1 (show xs.length = 1 by omega)
    obtain ⟨y, rfl⟩ := List.length_eq_one_iff.1 same.symm
    have same : ws = zs ++ [false] :=
      List.map_injective_iff.2 bit_injective (encodes'.symm.trans encodes)
    have bound := toNat_lt zs
    rw [same, toNat_append] at value'
    rw [length] at bound
    cases x <;> cases y <;> simp_all
  · intro condition
    refine ⟨_, encodes, by simp [length], ?_⟩
    rw [toNat_append, length]
    rcases condition with several | rfl | rfl
    · simpa [several] using value
    · have bound := toNat_lt ys
      rw [← same] at bound
      cases carry
      · simpa using value
      · simp at value bound
        omega
    · have bound := toNat_lt xs
      rw [same] at bound
      cases carry
      · simpa using value
      · simp [same] at value bound
        omega

theorem addBit_invalid {c a b : List (Shared n F)} (invalid : a.length ≠ b.length)
    (t : Tape (spdz alphai)) : ((addBit c a b).run t).result = .error .invalid_length := by
  unfold addBit
  rw [if_pos invalid]
  rfl

theorem addBitPlain_invalid {c a : List (Shared n F)} {b : List F} (invalid : a.length ≠ b.length)
    (t : Tape (spdz alphai)) : ((addBitPlain c a b).run t).result = .error .invalid_length := by
  unfold addBitPlain
  rw [if_pos invalid]
  rfl

theorem addBit_keeps {c a b : List (Shared n F)} (held : c.length = a.length + 1)
    (large : intRounds a.length < a.length) {t : Tape (spdz alphai)} {r : List (Shared n F)}
    (returned : ((addBit c a b).run t).result = .ok r) :
    r.getD (intRounds a.length) 0 = c.getD (intRounds a.length) 0 := by
  have meets : (addBit c a b : Online alphai _).Meets (fun _ => True)
      (fun r => r.getD (intRounds a.length) 0 = c.getD (intRounds a.length) 0) (fun _ => True) := by
    have rounds : 0 < intRounds a.length := by
      rw [intRounds]
      omega
    unfold addBit
    split
    · trivial
    refine (Program.meets_true _).bind fun a₀ _ => (Program.meets_true _).bind fun b₀ _ => ?_
    refine (Program.meets_true _).bind fun ca_in _ => (Program.meets_true _).bind fun c₀ _ => ?_
    refine (Program.Meets.forRange (fun i s => s.1.length = i) 1 _ _ rfl ?_).bind ?_
    · rintro i ⟨sum, ca_in, ca_out⟩ _ _ length
      refine (Program.meets_true _).bind fun ai _ => (Program.meets_true _).bind fun bi _ => ?_
      refine (Program.meets_true _).bind fun s _ => ?_
      simpa using length
    · rintro ⟨sum, _, ca_out⟩ length
      have length : sum.length = intRounds a.length := by
        change sum.length = 1 + (intRounds a.length - 1) at length
        omega
      change (sum ++ ((resize c (a.length + 1)).drop sum.length).dropLast ++ [ca_out]).getD _ 0 = _
      rw [resize_length held, length, List.append_assoc, List.getD_append_right _ _ _ _ length.le,
        length, Nat.sub_self, List.getD_append _ _ _ _ (by simp; omega), List.getD_eq_getElem _ _
        (by simp; omega), List.getElem_dropLast, List.getElem_drop, List.getD_eq_getElem _ _ (by omega)]
      simp only [Nat.add_zero]
  exact meets.returned (fun _ _ => trivial) returned

variable [NeZero n]

theorem addBit_run (c c' : List (Shared n F)) {a b : List (Shared n F)} {xs ys : List Bool}
    (ha : Encodes a xs) (hb : Encodes b ys) (same : xs.length = ys.length)
    (positive : 0 < xs.length) (short : xs.length ≤ 2 ^ 31) (t t' : Tape (spdz alphai)) :
    ∃ s s', ((addBit c a b).run t).result = .ok s ∧
      ((addBitPlain c' a (ys.map bit)).run t').result = .ok s' ∧ SumBits xs ys s ∧
        SumBits xs ys s' := by
  have shared : (addBit c a b : Online alphai _).Meets (fun _ => True) _ (fun _ => False) :=
    addBit_sum c ha hb same positive short
  have plain : (addBitPlain c' a (ys.map bit) : Online alphai _).Meets (fun _ => True) _
    (fun _ => False) := addBitPlain_sum c' ha same positive short
  obtain ⟨s, returned, sum⟩ := shared.run_ok t fun _ _ => trivial
  obtain ⟨s', returned', sum'⟩ := plain.run_ok t' fun _ _ => trivial
  exact ⟨s, s', returned, returned', sum, sum'⟩

theorem addsExactly_short {a b : List (Shared n F)} {xs ys : List Bool} (ha : Encodes a xs)
    {t t' : Tape (spdz alphai)}
    (adds : ∀ c c', AddsExactly xs ys ((addBit c a b).run t).result
      ((addBitPlain c' a (ys.map bit)).run t').result) : xs.length ≤ 2 ^ 31 := by
  by_contra large
  have wraps : intRounds a.length < a.length := by
    rw [intRounds, ha.length_eq]
    omega
  let zeros : List (Shared n F) := List.replicate (a.length + 1) 0
  let ones : List (Shared n F) := List.replicate (a.length + 1) (constant alphai 1)
  obtain ⟨s, _, zs, returned, _, encodes, _, length, value⟩ := adds zeros []
  obtain ⟨s', _, ws, returned', _, encodes', _, length', value'⟩ := adds ones []
  obtain rfl := toNat_injective (length.trans length'.symm) (value.trans value'.symm)
  have old := addBit_keeps List.length_replicate wraps returned
  have old' := addBit_keeps List.length_replicate wraps returned'
  rw [List.getD_replicate _ (by omega)] at old old'
  have first := encodes.getD (intRounds a.length)
  have second := encodes'.getD (intRounds a.length)
  rw [← first, old, old', val_constant, map_zero] at second
  exact one_ne_zero second

/-- The additions are exact for every content of the result vectors, unless the two vectors have one
position and it carries, when the loop that would assign the last carry does not run, or they have
more than `2 ^ 31` positions, when it stops early. -/
theorem addBit_exact_iff (alphai : Fin n → F) :
    (∀ (a b : List (Shared n F)) (xs ys : List Bool), Encodes a xs → Encodes b ys →
      xs.length = ys.length → 0 < xs.length → ∀ t t' : Tape (spdz alphai),
      ((∀ c c', AddsExactly xs ys ((addBit c a b).run t).result
          ((addBitPlain c' a (ys.map bit)).run t').result) ↔
        (2 ≤ xs.length ∧ xs.length ≤ 2 ^ 31) ∨ xs = [false] ∨ ys = [false])) ∧
    (∀ c a b : List (Shared n F), a.length ≠ b.length → ∀ t : Tape (spdz alphai),
      ((addBit c a b).run t).result = .error .invalid_length) ∧
    (∀ (c a : List (Shared n F)) (b : List F), a.length ≠ b.length → ∀ t : Tape (spdz alphai),
      ((addBitPlain c a b).run t).result = .error .invalid_length) := by
  refine ⟨?_, fun c a b => addBit_invalid, fun c a b => addBitPlain_invalid⟩
  intro a b xs ys ha hb same positive t t'
  constructor
  · intro adds
    have short := addsExactly_short ha adds
    obtain ⟨s, _, returned, _, sum, _⟩ := addBit_run [] [] ha hb same positive short t t'
    obtain ⟨d, _, zs, hd, _, encodes, _, length, value⟩ := adds [] []
    cases returned.symm.trans hd
    exact ((sum.exact_iff same positive).1 ⟨zs, encodes, length, value⟩).imp_left fun several =>
      ⟨several, short⟩
  · intro condition c c'
    have short : xs.length ≤ 2 ^ 31 := by
      rcases condition with ⟨_, short⟩ | rfl | rfl
      · exact short
      · norm_num
      · rw [same]
        norm_num
    obtain ⟨s, s', returned, returned', sum, sum'⟩ := addBit_run c c' ha hb same positive short t t'
    have condition := condition.imp_left And.left
    obtain ⟨zs, encodes, length, value⟩ := (sum.exact_iff same positive).2 condition
    obtain ⟨ws, encodes', length', value'⟩ := (sum'.exact_iff same positive).2 condition
    obtain rfl := toNat_injective (length.trans length'.symm) (value.trans value'.symm)
    exact ⟨s, s', zs, returned, returned', encodes, encodes', length, value⟩

theorem addBit_exact_small :
    let alphai : Fin 2 → ZMod 3 := ![1, 2]
    AddsExactly [true, true] [true, false]
      ((addBit [] [constant alphai 1, constant alphai 1] [constant alphai 1, constant alphai 0]).run
        (plainTape alphai)).result
      ((addBitPlain [] [constant alphai 1, constant alphai 1] [1, 0]).run (plainTape alphai)).result := by
  intro alphai
  exact ((addBit_exact_iff alphai).1 _ _ [true, true] [true, false] (by simp [Encodes])
    (by simp [Encodes]) rfl (by decide) (plainTape alphai) (plainTape alphai)).2
      (.inl ⟨by decide, by decide⟩) [] []

theorem addBit_loses_carry :
    let alphai : Fin 1 → ZMod 3 := ![1]
    ¬AddsExactly [true] [true]
      ((addBit [] [constant alphai 1] [constant alphai 1]).run (plainTape alphai)).result
      ((addBitPlain [] [constant alphai 1] [1]).run (plainTape alphai)).result := by
  intro alphai
  have one : Encodes [constant alphai 1] [true] := by simp [Encodes]
  obtain ⟨s, s', returned, _, sum, _⟩ := addBit_run [] [] one one rfl (by decide) (by decide)
    (plainTape alphai) (plainTape alphai)
  rintro ⟨d, _, zs, hd, _, encodes, _, length, value⟩
  cases returned.symm.trans hd
  have := (sum.exact_iff rfl (by decide)).1 ⟨zs, encodes, length, value⟩
  revert this
  decide

end Addition

section Conversion
variable {p : Nat} [Fact p.Prime] [NeZero n] {alphai : Fin n → ZMod p}

def CanonicalBits (a : ZMod p) (bits : List (Shared n (ZMod p))) : Prop :=
  bits.length = PSIZE ∧ (∀ s ∈ bits, val s = 0 ∨ val s = 1) ∧
    ∑ i ∈ Finset.range PSIZE, (val (bits.getD i 0)).val * 2 ^ i = a.val

omit [NeZero n] in
theorem canonicalBits_of_encodes (small : p < 2 ^ PSIZE) {a : ZMod p}
    {bits : List (Shared n (ZMod p))} (h : Encodes bits (ofNat PSIZE a.val)) :
    CanonicalBits a bits := by
  have large := (Fact.out : p.Prime).one_lt
  have value (b : Bool) : (bit b : ZMod p).val = b.toNat := by
    cases b
    · simp
    · simp [ZMod.val_one'' (show p ≠ 1 by omega)]
  refine ⟨h.length_eq.trans (length_ofNat _ _), fun s hs => ?_, ?_⟩
  · have : val s ∈ (ofNat PSIZE a.val).map bit := h ▸ List.mem_map_of_mem hs
    obtain ⟨b, _, hb⟩ := List.mem_map.1 this
    rw [← hb]
    cases b <;> simp
  · have spelled := toNat_eq_sum (ofNat PSIZE a.val)
    rw [toNat_ofNat_of_lt ((ZMod.val_lt a).trans small), length_ofNat] at spelled
    rw [spelled]
    exact Finset.sum_congr rfl fun i _ => by rw [h.getD, value]

/-- `A2B` returns the canonical bits under every mask, and does so once a block is accepted. -/
theorem A2B_exact (small : p < 2 ^ PSIZE) (alphai : Fin n → ZMod p) (a : Shared n (ZMod p)) :
    (∀ (r : Shared n (ZMod p)) bitr rs, Mask r bitr rs → ∀ t : Tape (spdz alphai),
      ∃ bits, ((unmask a r bitr).run t).result = .ok bits ∧ CanonicalBits (val a) bits) ∧
    ∀ fuel (t : Tape (spdz alphai)),
      ((∃ j < fuel, Accepted t j) → ∃ bits, ((A2B fuel a).run t).result = .ok bits ∧
        CanonicalBits (val a) bits) ∧
      ((∀ j < fuel, ¬Accepted t j) → ((A2B fuel a).run t).result = .error .outOfFuel) := by
  refine ⟨fun r bitr rs mask t => ?_, fun fuel t => ?_⟩
  · have meets : (unmask a r bitr : Online alphai _).Meets (fun _ => True) _ (fun _ => False) :=
      unmask_spec small a mask
    obtain ⟨bits, returned, encodes⟩ := meets.run_ok t fun _ _ => trivial
    exact ⟨bits, returned, canonicalBits_of_encodes small encodes⟩
  · rcases A2B_run small fuel a t with ⟨j, bound, first, ⟨bits, returned⟩, _⟩ | ⟨missed, failed⟩
    · have encodes := (A2B_spec (A := fun _ => True) small fuel a).returned (fun _ _ => trivial) returned
      refine ⟨fun _ => ⟨bits, returned, canonicalBits_of_encodes small encodes⟩, fun missed => ?_⟩
      exact absurd (by simpa using first.1) (missed j bound)
    · refine ⟨?_, fun _ => ?_⟩
      · rintro ⟨j, bound, accepted⟩
        exact absurd accepted (missed j bound)
      · exact failed

theorem plainTape_accepted (alphai : Fin n → ZMod p) (j : Nat) : Accepted (plainTape alphai) j := by
  have zeros : word (block (plainTape alphai) j) = List.replicate PSIZE false := by
    refine List.eq_replicate_iff.2 ⟨length_word _, fun b hb => ?_⟩
    obtain ⟨i, rfl⟩ := List.mem_ofFn.1 hb
    change truth (RandomBit.plain alphai) = false
    simp [truth, RandomBit.plain]
  have zero : toNat (List.replicate PSIZE false) = 0 := by
    rw [toNat_eq_sum]
    exact Finset.sum_eq_zero fun i _ => by simp
  rw [Accepted, zeros, zero]
  exact (Fact.out : p.Prime).pos

end Conversion

theorem prime381_small : Params.prime381 < 2 ^ PSIZE := by
  rw [PSIZE_eq, Params.prime381]
  decide +kernel

theorem prime256_large : 2 ^ QSIZE < Params.prime256 := by
  rw [QSIZE_eq, Params.prime256]
  norm_num

theorem A2B_exact_small :
    let alphai : Fin 2 → ZMod Params.prime381 := ![1, 2]
    ∃ bits, ((A2B 1 (constant alphai 5)).run (plainTape alphai)).result = .ok bits ∧
      CanonicalBits (val (constant alphai 5)) bits := by
  intro alphai
  exact ((A2B_exact prime381_small alphai (constant alphai 5)).2 1 (plainTape alphai)).1
    ⟨0, by decide, plainTape_accepted alphai 0⟩

end ProofOfCustody.OnlineOp
