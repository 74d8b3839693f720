import Mathlib
import ProofOfCustody.OnlineOp.BitsCoupled

/-!
# How long the rejection sampling takes

The loop of `pre_rand` reads the bit queue in blocks until a block encodes less than `p`. Nothing
else in a conversion reads that queue, so the blocks decide how much fuel a conversion needs.
-/

namespace ProofOfCustody.OnlineOp
open Effect Spdz Shared Binary

variable {n p : Nat} [Fact p.Prime] {alphai : Fin n → ZMod p} {α β : Type}

def block (t : Tape (spdz alphai)) (j : Nat) : Fin PSIZE → RandomBit alphai :=
  fun i => t .bit (j * PSIZE + i)

def Accepted (t : Tape (spdz alphai)) (j : Nat) : Prop := toNat (word (block t j)) < p

instance (t : Tape (spdz alphai)) (j : Nat) : Decidable (Accepted t j) :=
  inferInstanceAs (Decidable (_ < _))

abbrev bitsUsed (r : Run (spdz alphai) α) : Nat := r.drawn (Kind.bit : Kind n)

def noBits : Similarity (spdz alphai) := fun s _ _ => Site.kind s ≠ .bit

theorem drawn_of_noBits {R : α → β → Prop} {q : Online alphai α} {q' : Online alphai β}
    (h : Coupled noBits R q q') (t : Tape (spdz alphai)) : bitsUsed (q.run t) = 0 := by
  refine List.countP_eq_zero.2 fun d drawn => ?_
  obtain ⟨_, other⟩ := h.similar_of_used t drawn
  have other : Site.kind d.site ≠ .bit := other
  rw [decide_eq_true_eq]
  exact other

def FirstAccepted (t : Tape (spdz alphai)) (start j : Nat) : Prop :=
  Accepted t (start + j) ∧ ∀ i < j, ¬Accepted t (start + i)

theorem accepted_shift {t t' : Tape (spdz alphai)} {start : Nat}
    (shift : ∀ i, t' .bit i = t .bit (i + start * PSIZE)) (j : Nat) :
    Accepted t' j ↔ Accepted t (start + j) := by
  have same : block t' j = block t (start + j) := by
    funext i
    rw [block, block, shift]
    congr 1
    ring
  rw [Accepted, Accepted, same]

theorem firstAccepted_shift {t t' : Tape (spdz alphai)} {start : Nat}
    (shift : ∀ i, t' .bit i = t .bit (i + start * PSIZE)) (j : Nat) :
    FirstAccepted t' 0 j ↔ FirstAccepted t start j := by
  simp only [FirstAccepted, accepted_shift shift, Nat.zero_add]

theorem exists_firstAccepted {t : Tape (spdz alphai)} {start j : Nat} (later : start ≤ j)
    (accepted : Accepted t j) : ∃ i, start + i ≤ j ∧ FirstAccepted t start i := by
  have some : ∃ i, Accepted t (start + i) := ⟨j - start, by rwa [Nat.add_sub_cancel' later]⟩
  refine ⟨Nat.find some, ?_, Nat.find_spec some, fun i earlier => Nat.find_min some earlier⟩
  have : Nat.find some ≤ j - start := Nat.find_min' some (by rwa [Nat.add_sub_cancel' later])
  omega

theorem accepted_same {t t' : Tape (spdz alphai)} (bits : ∀ i, t' .bit i = t .bit i) (j : Nat) :
    Accepted t' j ↔ Accepted t j := by
  have same : block t' j = block t j := by
    funext i
    exact bits _
  rw [Accepted, Accepted, same]

theorem FirstAccepted.unique {t : Tape (spdz alphai)} {start i j : Nat}
    (h : FirstAccepted t start i) (h' : FirstAccepted t start j) : i = j := by
  by_contra differ
  rcases Nat.lt_or_gt_of_ne differ with earlier | earlier
  · exact h'.2 i earlier h.1
  · exact h.2 j earlier h'.1

def Rejects (fuel : Nat) (t : Tape (spdz alphai)) (r : Run (spdz alphai) α) : Prop :=
  (∃ j < fuel, FirstAccepted t 0 j ∧ (∃ a, r.result = .ok a) ∧ bitsUsed r = (j + 1) * PSIZE) ∨
    ((∀ j < fuel, ¬Accepted t j) ∧ r.result = .error .outOfFuel)

theorem Rejects.first_iff {fuel j : Nat} {t : Tape (spdz alphai)}
    {r : Run (spdz alphai) α} (h : Rejects fuel t r) (bound : j < fuel) :
    FirstAccepted t 0 j ↔ (∃ a, r.result = .ok a) ∧ bitsUsed r = (j + 1) * PSIZE := by
  rcases h with ⟨k, _, first, returned, used⟩ | ⟨missed, failed⟩
  · constructor
    · intro other
      rw [other.unique first]
      exact ⟨returned, used⟩
    · rintro ⟨_, same⟩
      have := Nat.eq_of_mul_eq_mul_right PSIZE_pos (used.symm.trans same)
      rwa [show j = k by omega]
  · constructor
    · intro first
      exact absurd (by simpa using first.1) (missed j bound)
    · rintro ⟨⟨a, returned⟩, _⟩
      cases returned.symm.trans failed

theorem Rejects.bind {fuel : Nat} {t : Tape (spdz alphai)} {q : Online alphai α} {P : α → Prop}
    {E : Err → Prop} {f : α → Online alphai β} (h : Rejects fuel t (q.run t))
    (spec : q.Meets (fun _ => True) P E)
    (next : ∀ a, P a → ∀ t', (∃ b, ((f a).run t').result = .ok b) ∧ bitsUsed ((f a).run t') = 0) :
    Rejects fuel t ((q >>= f).run t) := by
  rcases h with ⟨j, bound, first, ⟨a, returned⟩, used⟩ | ⟨missed, failed⟩
  · obtain ⟨⟨b, value⟩, none⟩ := next a (spec.returned (fun _ _ => trivial) returned) (q.run t).rest
    obtain ⟨result, total⟩ := Program.drawn_bind_ok (f := f) returned (Kind.bit : Kind n)
    exact .inl ⟨j, bound, first, ⟨b, result.trans value⟩, total.trans (congrArg₂ (· + ·) used none)⟩
  · exact .inr ⟨missed, (Program.drawn_bind_error failed (Kind.bit : Kind n)).1⟩

theorem Rejects.after {fuel : Nat} {t : Tape (spdz alphai)} {q : Online alphai α} {a : α}
    {f : α → Online alphai β} (returned : (q.run t).result = .ok a) (none : bitsUsed (q.run t) = 0)
    (h : Rejects fuel (q.run t).rest ((f a).run (q.run t).rest)) :
    Rejects fuel t ((q >>= f).run t) := by
  obtain ⟨result, total⟩ := Program.drawn_bind_ok (f := f) returned (Kind.bit : Kind n)
  have shift (i : Nat) : (q.run t).rest .bit i = t .bit (i + 0 * PSIZE) := by
    rw [Program.run_rest, show (q.run t).drawn (Kind.bit : Kind n) = 0 from none, Nat.zero_mul]
  rw [show (q.run t).drawn (Kind.bit : Kind n) = 0 from none, Nat.zero_add] at total
  rw [Rejects, result, show bitsUsed ((q >>= f).run t) = _ from total]
  simpa only [Rejects, firstAccepted_shift shift, accepted_shift shift, Nat.zero_add] using h

variable [NeZero n]

def round (fuel : Nat) (v : Fin PSIZE → RandomBit alphai) :
    Online alphai (Shared n (ZMod p) × List (Shared n (ZMod p))) :=
  let bitr := List.ofFn fun i => (v i).bit
  ltPlain bitr ((ofNat PSIZE p).map bit) PSIZE >>= fun flag =>
    .emit ⟨.flag, val flag⟩ (if val flag = 1 then .ret (recompose bitr PSIZE, bitr) else preRand fuel)

omit [NeZero n] in
theorem preRand_succ (fuel : Nat) :
    (preRand (fuel + 1) : Online alphai _) =
      Program.drawAll (S := spdz alphai) Site.bit PSIZE (round fuel) := by
  rw [preRand, drawBits_eq (List.range PSIZE) List.length_range, Program.drawAll_bind]
  refine congrArg (Program.drawAll (S := spdz alphai) Site.bit PSIZE) (funext fun v => ?_)
  have drawn : (List.ofFn fun i => (v i).bit).length = PSIZE := List.length_ofFn
  rw [Program.ret_bind, decompose_eq PSIZE_pos PSIZE_le, Online.defined_some, Program.ret_bind,
    B2A_eq drawn PSIZE_pos PSIZE_le, round]
  rfl

theorem round_run (small : p < 2 ^ PSIZE) (fuel : Nat) (v : Fin PSIZE → RandomBit alphai)
    (t : Tape (spdz alphai)) :
    ∃ t' : Tape (spdz alphai), (∀ i, t' .bit i = t .bit i) ∧
      (toNat (word v) < p →
        ((round fuel v).run t).result =
            .ok (recompose (List.ofFn fun i => (v i).bit) PSIZE, List.ofFn fun i => (v i).bit) ∧
          bitsUsed ((round fuel v).run t) = 0) ∧
      (¬toNat (word v) < p →
        ((round fuel v).run t).result = ((preRand fuel).run t').result ∧
          bitsUsed ((round fuel v).run t) = bitsUsed ((preRand fuel).run t')) := by
  have encodes := block_encodes v
  let q : Online alphai (Shared n (ZMod p)) :=
    ltPlain (List.ofFn fun i => (v i).bit) ((ofNat PSIZE p).map bit) PSIZE
  obtain ⟨flag, returned, value⟩ : ∃ flag, (q.run t).result = .ok flag ∧
      val flag = bit (decide (toNat (word v) < p)) := by
    have meets : q.Meets (fun _ => True) _ (fun _ => False) :=
      ltPlain_spec encodes (length_word v) (length_ofNat PSIZE p) PSIZE_pos PSIZE_le
    have := meets.run_ok t fun _ _ => trivial
    rwa [toNat_ofNat_of_lt small] at this
  have none : (q.run t).drawn (Kind.bit : Kind n) = 0 :=
    drawn_of_noBits (ltPlain_coupled (fun _ _ => nofun) encodes encodes (length_word v)
      (length_word v) (length_ofNat PSIZE p) PSIZE_pos PSIZE_le) t
  have tail := Program.drawn_bind_ok returned (f := fun flag => Program.emit (S := spdz alphai)
    ⟨.flag, val flag⟩ (if val flag = 1
      then Program.ret (recompose (List.ofFn fun i => (v i).bit) PSIZE, List.ofFn fun i => (v i).bit)
      else preRand fuel)) (Kind.bit : Kind n)
  rw [none, Nat.zero_add] at tail
  refine ⟨(q.run t).rest, fun i => by rw [Program.run_rest, none, Nat.add_zero],
    fun accepted => ?_, fun rejected => ?_⟩
  · rw [value, decide_eq_true accepted, bit_true, if_pos rfl] at tail
    exact tail
  · rw [value, decide_eq_false rejected, bit_false, if_neg zero_ne_one] at tail
    exact tail

def blockBits (t : Tape (spdz alphai)) (j : Nat) : List (Shared n (ZMod p)) :=
  List.ofFn fun i => (block t j i).bit

theorem preRand_step (small : p < 2 ^ PSIZE) (fuel : Nat) (t : Tape (spdz alphai)) :
    ∃ t' : Tape (spdz alphai), (∀ i, t' .bit i = t .bit (i + 1 * PSIZE)) ∧
      (Accepted t 0 →
        ((preRand (fuel + 1)).run t).result = .ok (recompose (blockBits t 0) PSIZE, blockBits t 0) ∧
          bitsUsed ((preRand (fuel + 1)).run t) = PSIZE) ∧
      (¬Accepted t 0 →
        ((preRand (fuel + 1)).run t).result = ((preRand fuel).run t').result ∧
          bitsUsed ((preRand (fuel + 1)).run t) = PSIZE + bitsUsed ((preRand fuel).run t')) := by
  have first : t.take (Kind.bit : Kind n) PSIZE = block t 0 := by
    funext i
    simp [Tape.take, block]
  obtain ⟨result, total⟩ :
      ((preRand (fuel + 1)).run t).result =
          ((round fuel (block t 0)).run (t.drop (Kind.bit : Kind n) PSIZE)).result ∧
        bitsUsed ((preRand (fuel + 1)).run t) =
          PSIZE + bitsUsed ((round fuel (block t 0)).run (t.drop (Kind.bit : Kind n) PSIZE)) := by
    rw [preRand_succ, ← first]
    exact Program.drawn_drawAll (S := spdz alphai) Site.bit PSIZE (round fuel) t
  obtain ⟨t', source, accepting, rejecting⟩ := round_run small fuel (block t 0)
    (t.drop (Kind.bit : Kind n) PSIZE)
  refine ⟨t', fun i => ?_, fun accepted => ?_, fun rejected => ?_⟩
  · rw [source]
    simp [Tape.drop]
  · obtain ⟨returned, used⟩ := accepting accepted
    rw [result, total, used]
    exact ⟨returned, rfl⟩
  · obtain ⟨same, used⟩ := rejecting rejected
    rw [result, total, used]
    exact ⟨same, rfl⟩

omit [NeZero n] in
theorem firstAccepted_succ {t t' : Tape (spdz alphai)}
    (shift : ∀ i, t' .bit i = t .bit (i + 1 * PSIZE)) (rejected : ¬Accepted t 0) (j : Nat) :
    FirstAccepted t 0 (j + 1) ↔ FirstAccepted t' 0 j := by
  simp only [FirstAccepted, Nat.zero_add, accepted_shift shift]
  rw [Nat.add_comm 1 j]
  refine and_congr_right fun _ => ⟨fun missed i lower => ?_, fun missed i lower => ?_⟩
  · exact missed (1 + i) (by omega)
  · cases i with
    | zero => exact rejected
    | succ i =>
        rw [Nat.add_comm]
        exact missed i (by omega)

theorem preRand_run (small : p < 2 ^ PSIZE) (fuel : Nat) (t : Tape (spdz alphai)) :
    Rejects fuel t ((preRand fuel).run t) := by
  induction fuel generalizing t with
  | zero => exact .inr ⟨by omega, rfl⟩
  | succ fuel ih =>
      obtain ⟨t', shift, accepting, rejecting⟩ := preRand_step small fuel t
      by_cases accepted : Accepted t 0
      · obtain ⟨returned, used⟩ := accepting accepted
        exact .inl ⟨0, by omega, ⟨accepted, by omega⟩, ⟨_, returned⟩, by rw [used]; ring⟩
      · obtain ⟨same, used⟩ := rejecting accepted
        rw [Rejects, same, used]
        rcases ih t' with ⟨j, bound, first, returned, used⟩ | ⟨missed, failed⟩
        · refine .inl ⟨j + 1, by omega, (firstAccepted_succ shift accepted j).2 first, returned, ?_⟩
          rw [used]
          ring
        · refine .inr ⟨fun i lower => ?_, failed⟩
          cases i with
          | zero => exact accepted
          | succ i =>
              rw [Nat.add_comm, ← accepted_shift shift]
              exact missed i (by omega)

theorem preRand_first (small : p < 2 ^ PSIZE) {t : Tape (spdz alphai)} {j fuel : Nat}
    (first : FirstAccepted t 0 j) (enough : j < fuel) :
    ((preRand fuel).run t).result = .ok (recompose (blockBits t j) PSIZE, blockBits t j) := by
  induction fuel generalizing t j with
  | zero => omega
  | succ fuel ih =>
      obtain ⟨t', shift, accepting, rejecting⟩ := preRand_step small fuel t
      cases j with
      | zero => exact (accepting (by simpa using first.1)).1
      | succ j =>
          have rejected : ¬Accepted t 0 := first.2 0 (by omega)
          have bits : blockBits t' j = blockBits t (j + 1) := by
            simp only [blockBits, block, shift]
            congr 2
            funext i
            congr 2
            ring
          rw [(rejecting rejected).1, ih ((firstAccepted_succ shift rejected j).1 first) (by omega), bits]

theorem A2B_run (small : p < 2 ^ PSIZE) (fuel : Nat) (a : Shared n (ZMod p))
    (t : Tape (spdz alphai)) : Rejects fuel t ((A2B fuel a).run t) := by
  refine (preRand_run small fuel t).bind (preRand_spec (A := fun _ => True) small fuel) ?_
  rintro ⟨r, bitr⟩ ⟨rs, mask⟩ t'
  have meets : (unmask a r bitr : Online alphai _).Meets (fun _ => True) _ (fun _ => False) :=
    unmask_spec small a mask
  have shape : Coupled noBits _ (unmask a r bitr : Online alphai _) (unmask a r bitr) :=
    unmask_coupled (fun _ _ => nofun) mask mask rfl
  obtain ⟨bits, value, _⟩ := meets.run_ok t' fun _ _ => trivial
  exact ⟨⟨bits, value⟩, drawn_of_noBits shape t'⟩

theorem A2B_missed (small : p < 2 ^ PSIZE) {t : Tape (spdz alphai)} (missed : ∀ j, ¬Accepted t j)
    (fuel : Nat) (a : Shared n (ZMod p)) :
    (A2B fuel a).run t = ((preRand fuel).run t).failing .outOfFuel := by
  rcases preRand_run small fuel t with ⟨j, _, first, _⟩ | ⟨_, failed⟩
  · exact absurd first.1 (missed _)
  · exact Program.run_bind_of_error failed

omit [NeZero n] in
theorem preRand_extends (fuel : Nat) :
    Program.Extends (preRand fuel : Online alphai _) (preRand (fuel + 1)) := by
  induction fuel with
  | zero => exact .of_throw _
  | succ fuel ih =>
      rw [preRand_succ, preRand_succ]
      refine .drawAll fun v => (Program.Extends.refl _).bind fun flag => .emit _ ?_
      split
      · exact .refl _
      · exact ih

omit [NeZero n] in
theorem A2B_extends {fuel fuel' : Nat} (more : fuel ≤ fuel') (a : Shared n (ZMod p)) :
    Program.Extends (A2B fuel a : Online alphai _) (A2B fuel' a) := by
  induction more with
  | refl => exact .refl _
  | step _ ih => exact ih.trans ((preRand_extends _).bind fun _ => .refl _)

end ProofOfCustody.OnlineOp
