import Mathlib
import ProofOfCustody.Poc.CustodySpec

/-!
# What the custody bit opens

The triples and the square masks are shifted by the differences of the two secrets, and every
Legendre mask is scaled by a square root of their ratio.
-/

namespace ProofOfCustody.Poc
open Effect Spdz Shared OnlineOp

variable {n p : Nat} [Fact p.Prime] {alphai : Fin n → ZMod p}

def computeCustodyBit2primes (N : Nat) (s0 s1 s2 : Shared n (ZMod p)) (msg : List (ZMod p)) :
    Online alphai Int := do
  let pre_key ← computeCustodyBitOffline2primes N [s0, s1, s2]
  computeCustodyBitOnline2primes N pre_key s0 msg

theorem exists_ratio {x x' : ZMod p} (same : quadraticChar (ZMod p) x = quadraticChar (ZMod p) x') :
    ∃ ρ : ZMod p, ρ ≠ 0 ∧ ρ * ρ * x' = x := by
  by_cases zero : x = 0
  · have zero' : x' = 0 := by
      rwa [zero, MulChar.map_zero, eq_comm, quadraticChar_eq_zero_iff] at same
    exact ⟨1, one_ne_zero, by rw [zero, zero', mul_zero]⟩
  · have nonzero' : x' ≠ 0 := by
      rintro rfl
      rw [MulChar.map_zero, quadraticChar_eq_zero_iff] at same
      exact zero same
    have nonzero : x * x' ≠ 0 := mul_ne_zero zero nonzero'
    have square : IsSquare (x * x') := by
      rw [← quadraticChar_one_iff_isSquare nonzero, map_mul, same, ← pow_two,
        quadraticChar_sq_one nonzero']
    obtain ⟨r, hr⟩ := square
    refine ⟨r * x'⁻¹, mul_ne_zero ?_ (inv_ne_zero nonzero'), ?_⟩
    · rintro rfl
      exact nonzero (by simpa using hr)
    · calc r * x'⁻¹ * (r * x'⁻¹) * x' = r * r * x'⁻¹ * (x'⁻¹ * x') := by ring
        _ = x * x' * x'⁻¹ := by rw [inv_mul_cancel₀ nonzero', mul_one, hr]
        _ = x := by rw [mul_assoc, mul_inv_cancel₀ nonzero', mul_one]

def sameMasks : Similarity (spdz alphai)
  | .triple, _, _ => True
  | .square .legendre, t, t' => val t.a = 0 ↔ val t'.a = 0
  | .square _, _, _ => True
  | .bit, t, t' => t = t'
  | .input _, t, t' => t = t'

section Openings
variable [NeZero n]

theorem legendre_coupled {input input' : Shared n (ZMod p)}
    (same : quadraticChar (ZMod p) (val input) = quadraticChar (ZMod p) (val input')) :
    Coupled sameMasks Eq (legendre input : Online alphai _) (legendre input') := by
  obtain ⟨ρ, nonzero, ratio⟩ := exists_ratio same
  refine .draw (S := spdz alphai) (Site.square .legendre) (Square.scaleEquiv ρ nonzero)
    (fun t => ?_) fun s => ?_
  · change val t.a = 0 ↔ val (Square.scaleEquiv ρ nonzero t).a = 0
    simp [nonzero]
  · refine (mul_coupled (fun _ _ => trivial) input s.aa input'
      (Square.scaleEquiv ρ nonzero s).aa).bind ?_
    rintro s₁ s₁' ⟨hs, hs'⟩
    have opened : val s₁ = val s₁' := by
      rw [hs, hs', Square.val_scaleEquiv_aa, ← ratio]
      ring
    refine (Online.reveal_one_coupled .legendre opened).bind ?_
    rintro _ _ ⟨rfl, rfl⟩
    exact .ret rfl

theorem offline2primes_coupled {N : Nat} (bound : 3 ≤ N) (s0 s1 s2 s0' s1' s2' : Shared n (ZMod p)) :
    Coupled sameMasks (fun pre_key pre_key' => Filled N [val s0, val s1, val s2] N pre_key ∧
        Filled N [val s0', val s1', val s2'] N pre_key')
      (computeCustodyBitOffline2primes N [s0, s1, s2] : Online alphai _)
      (computeCustodyBitOffline2primes N [s0', s1', s2']) := by
  refine (Coupled.and_meets (R := fun _ _ => True) (E := fun _ => False)
    ?shape (offline2primes_spec s0 s1 s2 bound)
    (offline2primes_spec s0' s1' s2' bound)).imp fun _ _ h => h.2
  have products (a b a' b' : Shared n (ZMod p)) :
      Coupled sameMasks _ (mul a b : Online alphai _) (mul a' b') :=
    mul_coupled (fun _ _ => trivial) a b a' b'
  have squares (a a' : Shared n (ZMod p)) :
      Coupled sameMasks _ (sqr a : Online alphai _) (sqr a') :=
    sqr_coupled (fun _ _ => trivial) a a'
  rw [computeCustodyBitOffline2primes, computeCustodyBitOffline2primes, if_neg (by simp),
    if_neg (by simp)]
  simp only [Online.index_of_lt (show 0 < [s0, s1, s2].length by simp),
    Online.index_of_lt (show 1 < [s0, s1, s2].length by simp),
    Online.index_of_lt (show 2 < [s0, s1, s2].length by simp),
    Online.index_of_lt (show 0 < [s0', s1', s2'].length by simp),
    Online.index_of_lt (show 1 < [s0', s1', s2'].length by simp),
    Online.index_of_lt (show 2 < [s0', s1', s2'].length by simp), Program.ret_bind]
  refine (squares _ _).bind fun _ _ _ => (products _ _ _ _).bind fun c0 c0' _ => ?_
  refine (squares _ _).bind fun _ _ _ => (products _ _ _ _).bind fun c1 c1' _ => ?_
  refine (squares _ _).bind fun q2 q2' _ => ?_
  rw [assign_eq (by simp; omega), assign_eq (by simp; omega), Program.ret_bind, Program.ret_bind]
  refine (products _ _ _ _).bind fun c2 c2' _ => ?_
  rw [assign_eq (by simp; omega), assign_eq (by simp; omega), Program.ret_bind, Program.ret_bind,
    assign_eq (by simp; omega), assign_eq (by simp; omega), Program.ret_bind, Program.ret_bind]
  refine (Coupled.forRange (fun _ => Sized N) 3 (N - 3) _ _ (by simp [Sized]) ?_).imp
    fun _ _ _ => trivial
  rintro i pre_key pre_key' lower upper ⟨lp, lp'⟩
  rw [Online.index_of_lt (by omega), Online.index_of_lt (by omega)]
  refine (products _ _ _ _).bind fun c c' _ => ?_
  rw [assign_eq (by omega), assign_eq (by omega)]
  exact .ret (by simp [Sized, lp, lp'])

omit [NeZero n] in
theorem hashTable_coupled {N : Nat} {msg : List (ZMod p)} {pre_key pre_key' : List (Shared n (ZMod p))}
    (lp : pre_key.length = N) (lp' : pre_key'.length = N) (length : msg.length = N)
    (several : 2 ≤ N) :
    Coupled sameMasks (fun _ _ => True) (hashTable pre_key msg : Online alphai _)
      (hashTable pre_key' msg) := by
  rw [hashTable, hashTable, Online.index_of_lt (by omega), Online.index_of_lt (by omega),
    Online.index_of_lt (by omega), Online.index_of_lt (by omega)]
  simp only [Program.ret_bind]
  refine (Coupled.forRange (fun _ _ _ => True) 2 (msg.length - 2) _ _ trivial ?_).bind
    fun u u' _ => ?_
  · intro i u u' lower upper _
    rw [Online.index_of_lt (by omega), Online.index_of_lt (by omega), Online.index_of_lt (by omega)]
    exact .ret trivial
  · rw [back, back, List.getLast?_eq_getElem?, List.getLast?_eq_getElem?,
      List.getElem?_eq_getElem (by omega), List.getElem?_eq_getElem (by omega)]
    exact .ret trivial

def NonzeroMask : Draw (spdz alphai) → Prop
  | ⟨.square .legendre, m⟩ => val (Square.a m) ≠ 0
  | _ => True

omit [NeZero n] in
theorem masksNonzero_iff_forall {α : Type} (r : Run (spdz alphai) α) :
    MasksNonzero r ↔ ∀ d ∈ r.used, NonzeroMask d := by
  refine ⟨fun masks d drawn => ?_, fun masks m drawn => masks _ drawn⟩
  match d with
  | ⟨.square .legendre, m⟩ => exact masks m drawn
  | ⟨.square .sqr, _⟩ | ⟨.square .inv, _⟩ | ⟨.triple, _⟩ | ⟨.bit, _⟩ | ⟨.input _, _⟩ => trivial

omit [NeZero n] in
theorem masksNonzero_iff {α β : Type} {R : α → β → Prop} {r : Run (spdz alphai) α}
    {r' : Run (spdz alphai) β} (h : Matched sameMasks R r r') :
    MasksNonzero r ↔ MasksNonzero r' := by
  rw [masksNonzero_iff_forall, masksNonzero_iff_forall]
  refine h.forall_used fun d d' same => ?_
  cases same with
  | @intro s m m' similar =>
      match s with
      | .square .legendre => exact not_congr similar
      | .square .sqr | .square .inv | .triple | .bit | .input _ => exact Iff.rfl

def symbolInput (keys msg : List (ZMod p)) (j : Nat) : ZMod p :=
  tableHash keys msg + (j : ZMod p) + keys.getD 0 0

theorem custodyBit2primes_coupled {N : Nat} (bound : 3 ≤ N)
    (s0 s1 s2 s0' s1' s2' : Shared n (ZMod p)) {msg : List (ZMod p)} (length : msg.length = N)
    (symbols : ∀ j < 10,
      quadraticChar (ZMod p) (symbolInput [val s0, val s1, val s2] msg j) =
        quadraticChar (ZMod p) (symbolInput [val s0', val s1', val s2'] msg j)) :
    Coupled sameMasks Eq (computeCustodyBit2primes N s0 s1 s2 msg : Online alphai _)
      (computeCustodyBit2primes N s0' s1' s2' msg) := by
  refine (offline2primes_coupled bound s0 s1 s2 s0' s1' s2').bind ?_
  rintro pre_key pre_key' ⟨filled, filled'⟩
  rw [computeCustodyBitOnline2primes, computeCustodyBitOnline2primes, if_neg (not_not.2 length),
    if_neg (not_not.2 length)]
  refine ((hashTable_coupled filled.length filled'.length length (by omega)).and_meets
    (E := fun _ => False)
    (hashTable_spec filled length (by omega)) (hashTable_spec filled' length (by omega))).bind ?_
  rintro u u' ⟨_, hu, hu'⟩
  refine Coupled.forRange (fun _ => Eq) 0 10 _ _ rfl ?_
  rintro i res _ _ upper rfl
  have same : quadraticChar (ZMod p) (val (add s0 (addPlain alphai u (i : ZMod p)))) =
      quadraticChar (ZMod p) (val (add s0' (addPlain alphai u' (i : ZMod p)))) := by
    have := symbols i upper
    simpa [symbolInput, add, addPlain, hu, hu', add_comm, add_left_comm] using this
  refine ((legendre_coupled same).bind fun out _ h => ?_).bind (R := Eq) fun bit _ h => ?_
  · subst h
    exact .ret rfl
  · subst h
    exact .ret rfl

/-- Two key triples with the same ten symbols cannot be told apart: one bijection of the valid
material maps every run on the first to a run on the second that opens the same values, draws at
the same sites and leaves the same material. -/
theorem custodyBit2primes_hiding {N : Nat} (bound : 3 ≤ N)
    (s0 s1 s2 s0' s1' s2' : Shared n (ZMod p)) {msg : List (ZMod p)} (length : msg.length = N)
    (symbols : ∀ j < 10,
      quadraticChar (ZMod p) (symbolInput [val s0, val s1, val s2] msg j) =
        quadraticChar (ZMod p) (symbolInput [val s0', val s1', val s2'] msg j)) :
    ∃ e : Tape (spdz alphai) ≃ Tape (spdz alphai), ∀ t,
      let r := (computeCustodyBit2primes N s0 s1 s2 msg).run t
      let r' := (computeCustodyBit2primes N s0' s1' s2' msg).run (e t)
      (MasksNonzero r ↔ MasksNonzero r') ∧ r'.events = r.events ∧ r'.result = r.result ∧
        r'.rest = r.rest ∧ List.Forall₂ (SameDraw sameMasks) r.used r'.used := by
  obtain ⟨e, _, matched⟩ := (custodyBit2primes_coupled bound s0 s1 s2 s0' s1' s2' length
    symbols).exists_equiv
  exact ⟨e, fun t => ⟨masksNonzero_iff (matched t), (matched t).events,
    (matched t).result.eq.symm, (matched t).rest, (matched t).used⟩⟩

theorem custodyBit2primes_hiding_small :
    let alphai : Fin 2 → ZMod 3 := ![1, 2]
    let c := constant alphai
    ∃ e : Tape (spdz alphai) ≃ Tape (spdz alphai), ∀ t,
      let r := (computeCustodyBit2primes 3 (c 1) (c 0) (c 0) [0, 0, 0]).run t
      let r' := (computeCustodyBit2primes 3 (c 1) (c 2) (c 2) [0, 0, 0]).run (e t)
      (MasksNonzero r ↔ MasksNonzero r') ∧ r'.events = r.events ∧ r'.result = r.result ∧
        r'.rest = r.rest ∧ List.Forall₂ (SameDraw sameMasks) r.used r'.used := by
  intro alphai c
  refine custodyBit2primes_hiding (by omega) (c 1) (c 0) (c 0) (c 1) (c 2) (c 2) rfl fun j _ => ?_
  have same : tableHash [1, 0, 0] [0, 0, 0] = tableHash [(1 : ZMod 3), 2, 2] [0, 0, 0] := by decide
  simp only [c, val_constant, symbolInput, same, List.getD_cons_zero]

end Openings

end ProofOfCustody.Poc
