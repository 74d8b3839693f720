import Mathlib
import ProofOfCustody.OnlineOp.Exact
import ProofOfCustody.Poc.KeyTransportSpec

/-!
# Runs of the key transport

Phase one is cut where the bits of the first coordinate are known. Each half converts one
coordinate, so the first two accepted blocks of random bits decide when phase one returns.
-/

namespace ProofOfCustody.Poc
open Effect Spdz Shared OnlineOp Binary

variable {n : Nat}

section Couplings
variable [NeZero n] {F : Type} [Field F] {alphai : Fin n → F} {sim : Similarity (spdz alphai)}

theorem sharedRandBits_coupled (players : n < 2 ^ 31) {h : Fin n}
    (triples : ∀ t t' : Triple alphai, sim Site.triple t t')
    (masks : ∀ t t' : InputMask alphai, sim (Site.input h) t t')
    (kept : ∀ i, i ≠ h → ∀ t : InputMask alphai, sim (Site.input i) t t)
    {words words' : Fin n → List Bool} {local_bits local_bits' : Fin n → List Int}
    (same : ∀ i, local_bits i = (words i).map bit) (same' : ∀ i, local_bits' i = (words' i).map bit)
    (length : ∀ i, (words i).length = 2 * PSIZE) (length' : ∀ i, (words' i).length = 2 * PSIZE)
    (others : ∀ i, i ≠ h → words i = words' i) :
    Coupled sim (fun shared_bits shared_bits' => Encodes shared_bits (xorAll words) ∧
        Encodes shared_bits' (xorAll words'))
      (sharedRandBits local_bits : Online alphai _) (sharedRandBits local_bits') := by
  refine (Coupled.and_meets (R := fun _ _ => True) (E := fun _ => False) ?shape
    (sharedRandBits_spec players same length)
    (sharedRandBits_spec players same' length')).imp fun _ _ h => h.2
  refine (Coupled.mapM (R := fun _ _ => True) _ fun j hj => ?_).imp fun _ _ _ => trivial
  have bound {local_bits : Fin n → List Int} {words : Fin n → List Bool}
      (same : ∀ i, local_bits i = (words i).map bit) (length : ∀ i, (words i).length = 2 * PSIZE)
      (i : Fin n) : j < (local_bits i).length := by
    rw [same, List.length_map, length]
    exact List.mem_range.1 hj
  refine (Coupled.mapM (R := fun _ _ => True) _ fun i _ => ?_).bind ?_
  · rw [if_pos (bound same length), if_pos (bound same' length')]
    refine (getInputs_coupled masks kept i fun player other => ?_).imp fun _ _ _ => trivial
    rw [same, same', others player other]
  · rintro sbit sbit' ⟨size, related⟩
    rw [List.length_finRange] at size
    exact KXOR_coupled triples size (related.length_eq.symm.trans size)

theorem xorBits_coupled (triples : ∀ t t' : Triple alphai, sim Site.triple t t')
    {deco_bits shared_bits deco_bits' shared_bits' : List (Shared n F)} {m : Nat}
    (ld : deco_bits.length = m) (ls : shared_bits.length = m) (ld' : deco_bits'.length = m)
    (ls' : shared_bits'.length = m) :
    Coupled sim (fun _ _ => True)
      ((List.range m).mapM fun i => do
        let d ← Online.index deco_bits i
        let s ← Online.index shared_bits i
        XORInplace d s : Online alphai (List (Shared n F)))
      ((List.range m).mapM fun i => do
        let d ← Online.index deco_bits' i
        let s ← Online.index shared_bits' i
        XORInplace d s) := by
  refine (Coupled.mapM (R := fun _ _ => True) _ fun i hi => ?_).imp fun _ _ _ => trivial
  have bound := List.mem_range.1 hi
  rw [Online.index_of_lt (by omega), Online.index_of_lt (by omega), Online.index_of_lt (by omega),
    Online.index_of_lt (by omega)]
  exact XOR_coupled triples _ _ _ _

end Couplings

section Modulus
variable {p : Nat} [Fact p.Prime] {alphai : Fin n → ZMod p}

def firstHalf (fuel : Nat) (rnd : Fin n → Octets) (x0 : Shared n (ZMod p)) :
    Online alphai (List (Shared n (ZMod p)) × List (Shared n (ZMod p))) := do
  let shared_bits ← sharedRandBits fun player => localBits (rnd player)
  if shared_bits.length ≠ 2 * PSIZE then Online.throw .invalid_length
  else
    let deco_bits ← A2B fuel x0
    return (shared_bits, deco_bits)

def secondHalf (fuel : Nat) (rnd : Fin n → Octets) (x1 : Shared n (ZMod p))
    (half : List (Shared n (ZMod p)) × List (Shared n (ZMod p))) :
    Online alphai (List Int × (Fin n → List Int)) := do
  let tmp ← A2B fuel x1
  let reveal_bits ← revealXored (half.2 ++ tmp) half.1
  return (reveal_bits, fun player => localBits (rnd player))

theorem transportPhaseOne_eq (fuel : Nat) (rnd : Fin n → Octets) (x0 x1 : Shared n (ZMod p)) :
    (transportPhaseOne fuel rnd x0 x1 : Online alphai _) =
      firstHalf fuel rnd x0 >>= secondHalf fuel rnd x1 := by
  simp only [transportPhaseOne, sharedRandBitsPhaseOne, firstHalf, bind_assoc, Program.pure_eq,
    Program.ret_bind]
  refine congrArg _ (funext fun shared_bits => ?_)
  by_cases length : shared_bits.length = 2 * PSIZE
  · have passes : ¬([x0, x1].length ≠ 2 ∨ shared_bits.length ≠ 2 * PSIZE) := by simp [length]
    have second : (Online.index [x0, x1] 1 : Online alphai _) = .ret x1 := rfl
    rw [if_neg (not_not.2 length), decomposeAndReveal, if_neg passes]
    simp only [second, Online.index_zero, Program.ret_bind, bind_assoc, secondHalf, revealXored]
    rfl
  · rw [if_pos length, decomposeAndReveal, if_pos (.inr length)]
    rfl

structure Half (words : Fin n → List Bool) (x0 : ZMod p)
    (half : List (Shared n (ZMod p)) × List (Shared n (ZMod p))) : Prop where
  shared : Encodes half.1 (xorAll words)
  deco : Encodes half.2 (ofNat PSIZE x0.val)

variable [NeZero n] {sim : Similarity (spdz alphai)}

theorem firstHalf_spec (players : n < 2 ^ 31) (small : p < 2 ^ PSIZE) (fuel : Nat) (rnd : Fin n → Octets)
    (x0 : Shared n (ZMod p)) :
    Program.Meets (fun _ : Draw (spdz alphai) => True) (Half (fun i => pad (rnd i)) (val x0))
      (· = .outOfFuel)
      (firstHalf fuel rnd x0 : Online alphai _) := by
  refine (sharedRandBits_spec players (fun i => localBits_eq (rnd i))
    fun i => length_pad (rnd i)).bind fun shared_bits shared => ?_
  rw [if_neg (not_not.2 (shared.length_eq.trans (length_xorAll _)))]
  refine (A2B_spec small fuel x0).bind fun deco_bits deco => ?_
  exact Half.mk shared deco

theorem revealXored_coupled (triples : ∀ t t' : Triple alphai, sim Site.triple t t')
    {deco_bits shared_bits deco_bits' shared_bits' : List (Shared n (ZMod p))}
    {k w k' w' : List Bool} (deco : Encodes deco_bits k) (shared : Encodes shared_bits w)
    (deco' : Encodes deco_bits' k') (shared' : Encodes shared_bits' w') (lk : k.length = 2 * PSIZE)
    (lw : w.length = 2 * PSIZE) (lk' : k'.length = 2 * PSIZE) (lw' : w'.length = 2 * PSIZE)
    (masked : List.zipWith xor k w = List.zipWith xor k' w') :
    Coupled sim Eq (revealXored deco_bits shared_bits : Online alphai _)
      (revealXored deco_bits' shared_bits') := by
  have ld := deco.length_eq.trans lk
  have ls := shared.length_eq.trans lw
  have ld' := deco'.length_eq.trans lk'
  have ls' := shared'.length_eq.trans lw'
  rw [revealXored, revealXored, ls, ls']
  refine ((xorBits_coupled triples ld ls ld' ls').and_meets (E := fun _ => False)
    (xorBits_spec deco shared lk lw)
    (xorBits_spec deco' shared' lk' lw')).bind ?_
  rintro xored xored' ⟨-, encodes, encodes'⟩
  rw [List.drop_eq_nil_of_le (by omega), List.drop_eq_nil_of_le (by omega), List.append_nil,
    List.append_nil]
  have same : xored.map val = xored'.map val := by rw [encodes, encodes', masked]
  have size : (xored.map val).length = 2 * PSIZE := by
    rw [List.length_map, encodes.length_eq, List.length_zipWith, lk, lw, min_self]
  refine (Online.reveal_coupled .bits same).bind ?_
  rintro _ _ ⟨rfl, rfl⟩
  refine (Coupled.mapM (R := Eq) _ fun i hi => ?_).imp fun bits bits' h =>
    List.forall₂_eq_eq_eq ▸ h.2
  rw [Online.index_of_lt (by rw [size]; exact List.mem_range.1 hi)]
  exact .ret rfl

theorem firstHalf_coupled (players : n < 2 ^ 31) {h : Fin n}
    (triples : ∀ t t' : Triple alphai, sim Site.triple t t')
    (bits : ∀ t t' : RandomBit alphai, sim Site.bit t t')
    (masks : ∀ t t' : InputMask alphai, sim (Site.input h) t t')
    (kept : ∀ i, i ≠ h → ∀ t : InputMask alphai, sim (Site.input i) t t) (small : p < 2 ^ PSIZE)
    (fuel : Nat) {rnd rnd' : Fin n → Octets} (others : ∀ i, i ≠ h → rnd i = rnd' i)
    (x0 x0' : Shared n (ZMod p)) :
    Coupled sim (fun half half' => Half (fun i => pad (rnd i)) (val x0) half ∧
        Half (fun i => pad (rnd' i)) (val x0') half')
      (firstHalf fuel rnd x0 : Online alphai _) (firstHalf fuel rnd' x0') := by
  refine (sharedRandBits_coupled players triples masks kept (fun i => localBits_eq (rnd i))
    (fun i => localBits_eq (rnd' i)) (fun i => length_pad (rnd i)) (fun i => length_pad (rnd' i))
    fun i other => congrArg pad (others i other)).bind ?_
  rintro shared_bits shared_bits' ⟨shared, shared'⟩
  rw [if_neg (not_not.2 (shared.length_eq.trans (length_xorAll _))),
    if_neg (not_not.2 (shared'.length_eq.trans (length_xorAll _)))]
  refine (A2B_coupled triples bits small fuel x0 x0').bind ?_
  rintro deco_bits deco_bits' ⟨deco, deco'⟩
  exact .ret ⟨⟨shared, deco⟩, ⟨shared', deco'⟩⟩

theorem secondHalf_coupled (triples : ∀ t t' : Triple alphai, sim Site.triple t t')
    (bits : ∀ t t' : RandomBit alphai, sim Site.bit t t') (small : p < 2 ^ PSIZE) (fuel : Nat)
    {rnd rnd' : Fin n → Octets} {x0 x0' : ZMod p} (x1 x1' : Shared n (ZMod p))
    (masked : List.zipWith xor (keyWord x0 (val x1)) (xorAll fun i => pad (rnd i)) =
      List.zipWith xor (keyWord x0' (val x1')) (xorAll fun i => pad (rnd' i)))
    {half half' : List (Shared n (ZMod p)) × List (Shared n (ZMod p))}
    (first : Half (fun i => pad (rnd i)) x0 half) (first' : Half (fun i => pad (rnd' i)) x0' half') :
    Coupled sim (fun r r' => r.1 = r'.1) (secondHalf fuel rnd x1 half : Online alphai _)
      (secondHalf fuel rnd' x1' half') := by
  refine (A2B_coupled triples bits small fuel x1 x1').bind ?_
  rintro tmp tmp' ⟨deco, deco'⟩
  refine (revealXored_coupled triples (first.deco.append deco) first.shared
    (first'.deco.append deco') first'.shared (length_keyWord _ _) (length_xorAll _)
    (length_keyWord _ _) (length_xorAll _) masked).bind ?_
  rintro reveal_bits _ rfl
  exact .ret rfl

theorem firstHalf_run (players : n < 2 ^ 31) (small : p < 2 ^ PSIZE) (fuel : Nat) (rnd : Fin n → Octets)
    (x0 : Shared n (ZMod p)) (t : Tape (spdz alphai)) :
    Rejects fuel t ((firstHalf fuel rnd x0).run t) := by
  have same (i : Fin n) := localBits_eq (rnd i)
  have length (i : Fin n) := length_pad (rnd i)
  let q : Online alphai _ := sharedRandBits fun player => localBits (rnd player)
  have meets : q.Meets (fun _ => True) _ (fun _ => False) :=
    sharedRandBits_spec players same length
  have shape : Coupled noBits _ q q := sharedRandBits_coupled players (h := 0)
    (fun _ _ => nofun) (fun _ _ => nofun) (fun _ _ _ => nofun) same same length length fun _ _ => rfl
  obtain ⟨shared_bits, returned, shared⟩ := meets.run_ok t fun _ _ => trivial
  have none := drawn_of_noBits shape t
  refine .after returned none ?_
  rw [if_neg (not_not.2 (shared.length_eq.trans (length_xorAll _)))]
  refine (A2B_run small fuel x0 _).bind (A2B_spec (A := fun _ => True) small fuel x0) ?_
  exact fun deco_bits _ t' => ⟨⟨_, rfl⟩, rfl⟩

theorem secondHalf_run (small : p < 2 ^ PSIZE) (fuel : Nat) (rnd : Fin n → Octets) {x0 : ZMod p}
    (x1 : Shared n (ZMod p)) {half : List (Shared n (ZMod p)) × List (Shared n (ZMod p))}
    (first : Half (fun i => pad (rnd i)) x0 half) (t : Tape (spdz alphai)) :
    Rejects fuel t ((secondHalf fuel rnd x1 half).run t) := by
  refine (A2B_run small fuel x1 t).bind (A2B_spec (A := fun _ => True) small fuel x1) ?_
  intro tmp deco t'
  have whole : Encodes (half.2 ++ tmp) (keyWord x0 (val x1)) := first.deco.append deco
  let q : Online alphai _ := revealXored (half.2 ++ tmp) half.1
  have meets : q.Meets (fun _ => True) _ (fun _ => False) :=
    revealXored_spec whole first.shared (length_keyWord _ _) (length_xorAll _)
  have shape : Coupled noBits _ q q := revealXored_coupled (fun _ _ => nofun) whole first.shared
    whole first.shared (length_keyWord _ _) (length_xorAll _) (length_keyWord _ _)
    (length_xorAll _) rfl
  obtain ⟨reveal_bits, returned, _⟩ := meets.run_ok t' fun _ _ => trivial
  have none := drawn_of_noBits shape t'
  obtain ⟨result, total⟩ := Program.drawn_bind_ok (f := fun reveal_bits => Program.ret
    (reveal_bits, fun player => localBits (rnd player))) returned (Kind.bit : Kind n)
  exact ⟨⟨_, result⟩, total.trans none⟩

theorem transportPhaseOne_run (players : n < 2 ^ 31) (small : p < 2 ^ PSIZE) (fuel : Nat)
    (rnd : Fin n → Octets)
    (x0 x1 : Shared n (ZMod p)) (t : Tape (spdz alphai)) :
    let r := (transportPhaseOne fuel rnd x0 x1).run t
    (∃ j j', j < fuel ∧ j' < fuel ∧ FirstAccepted t 0 j ∧ FirstAccepted t (j + 1) j' ∧
      (∃ a, r.result = .ok a) ∧ bitsUsed r = (j + j' + 2) * PSIZE) ∨
    (r.result = .error .outOfFuel ∧
      ∀ j j', j < fuel → j' < fuel → FirstAccepted t 0 j → ¬FirstAccepted t (j + 1) j') := by
  intro r
  have cut : r = (firstHalf fuel rnd x0 >>= secondHalf fuel rnd x1).run t := by
    rw [← transportPhaseOne_eq]
  rcases firstHalf_run players small fuel rnd x0 t with
    ⟨j, bound, first, ⟨half, returned⟩, used⟩ | ⟨missed, failed⟩
  · obtain ⟨result, total⟩ := Program.drawn_bind_ok (f := secondHalf fuel rnd x1) returned
      (Kind.bit : Kind n)
    rw [← cut] at result total
    have shift (i : Nat) : ((firstHalf fuel rnd x0).run t).rest .bit i =
        t .bit (i + (j + 1) * PSIZE) := by
      rw [Program.run_rest, ← used]
    have hands := (firstHalf_spec players small fuel rnd x0).returned (fun _ _ => trivial) returned
    rcases secondHalf_run small fuel rnd x1 hands ((firstHalf fuel rnd x0).run t).rest with
      ⟨j', bound', second, ⟨a, returned'⟩, used'⟩ | ⟨missed, failed⟩
    · refine .inl ⟨j, j', bound, bound', first, (firstAccepted_shift shift j').1 second,
        ⟨a, result.trans returned'⟩, (total.trans (congrArg₂ (· + ·) used used')).trans ?_⟩
      ring
    · refine .inr ⟨result.trans failed, fun i i' _ bound' first' second => ?_⟩
      obtain rfl := first.unique first'
      exact missed i' bound' ((accepted_shift shift i').2 second.1)
  · refine .inr ⟨?_, fun i _ bound _ first _ => missed i bound ?_⟩
    · rw [cut]
      exact (Program.drawn_bind_error failed (Kind.bit : Kind n)).1
    · simpa using first.1

theorem bit_zero_or_one {words : List Bool} : ∀ b ∈ words.map (bit (R := Int)), b = 0 ∨ b = 1 := by
  intro b hb
  obtain ⟨x, _, rfl⟩ := List.mem_map.1 hb
  cases x <;> simp

end Modulus

section Transport
variable [NeZero n] {p q : Nat} [Fact p.Prime] [Fact q.Prime]

theorem transport_keys (players : n < 2 ^ 31) (small : p < 2 ^ PSIZE) (large : 2 ^ QSIZE < q)
    (alphai : Fin n → ZMod p) (alphai' : Fin n → ZMod q) (fuel : Nat) (rnd : Fin n → Octets)
    (x0 x1 : Shared n (ZMod p))
    (t : Tape (spdz alphai)) (t' : Tape (spdz alphai')) :
    let one := (transportPhaseOne fuel rnd x0 x1).run t
    (one.result = .error .outOfFuel ∨ ∃ reveal_bits local_bits,
      one.result = .ok (reveal_bits, local_bits) ∧ reveal_bits.length = 2 * PSIZE ∧
      (∀ b ∈ reveal_bits, b = 0 ∨ b = 1) ∧
      ∃ keys : List (Shared n (ZMod q)),
        ((transportPhaseTwo local_bits reveal_bits).run t').result = .ok keys ∧
        keys.map (fun key => (val key).val) =
          (List.range 3).map (digit (keyNumber (val x0) (val x1)))) ∧
    (∀ j j', j < j' → j' < fuel → Accepted t j → Accepted t j' → ∃ r, one.result = .ok r) := by
  refine ⟨?_, fun j j' earlier bound accepted accepted' => ?_⟩
  · rcases (transportPhaseOne_spec (A := fun _ => True) players small fuel rnd x0 x1).run t
      fun _ _ => trivial with ⟨⟨reveal_bits, local_bits⟩, returned, rfl, rfl⟩ | ⟨_, failed, rfl⟩
    · have lk := length_keyWord (val x0) (val x1)
      have meets : (transportPhaseTwo _ _ : Online alphai' _).Meets (fun _ => True) _
          (fun _ => False) :=
        transportPhaseTwo_spec players (fun i => localBits_eq (rnd i))
          (fun i => length_pad (rnd i)) lk
      obtain ⟨keys, returned', values⟩ := meets.run_ok t' fun _ _ => trivial
      refine .inr ⟨_, _, returned, by simp [lk], bit_zero_or_one, keys, returned', ?_⟩
      rw [← toNat_keyWord small]
      have := congrArg (List.map ZMod.val) values
      rw [List.map_map, List.map_map] at this
      refine this.trans (List.map_congr_left fun i _ => ZMod.val_natCast_of_lt ?_)
      exact (Nat.mod_lt _ (by positivity)).trans large
    · exact .inl failed
  · obtain ⟨i, before, first⟩ := exists_firstAccepted (Nat.zero_le j) accepted
    obtain ⟨i', before', second⟩ := exists_firstAccepted (show i + 1 ≤ j' by omega) accepted'
    rcases transportPhaseOne_run players small fuel rnd x0 x1 t with
      ⟨_, _, _, _, _, _, returned, _⟩ | ⟨_, missed⟩
    · exact returned
    · exact (missed i i' (by omega) (by omega) first second).elim

end Transport

theorem transport_keys_small :
    let alphai : Fin 2 → ZMod Params.prime381 := ![1, 2]
    let alphai' : Fin 2 → ZMod Params.prime256 := ![3, 4]
    let one := (transportPhaseOne 2 (fun _ _ => 90) (constant alphai 5) (constant alphai 7)).run
      (plainTape alphai)
    (one.result = .error .outOfFuel ∨ ∃ reveal_bits local_bits,
      one.result = .ok (reveal_bits, local_bits) ∧ reveal_bits.length = 2 * PSIZE ∧
      (∀ b ∈ reveal_bits, b = 0 ∨ b = 1) ∧
      ∃ keys : List (Shared 2 (ZMod Params.prime256)),
        ((transportPhaseTwo local_bits reveal_bits).run (plainTape alphai')).result = .ok keys ∧
        keys.map (fun key => (val key).val) = (List.range 3).map
          (digit (keyNumber (val (constant alphai 5)) (val (constant alphai 7))))) ∧
    (∀ j j', j < j' → j' < 2 → Accepted (plainTape alphai) j → Accepted (plainTape alphai) j' →
      ∃ r, one.result = .ok r) :=
  transport_keys (by decide) prime381_small prime256_large _ _ _ _ _ _ _ _

end ProofOfCustody.Poc
