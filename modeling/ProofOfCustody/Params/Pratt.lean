import Mathlib.NumberTheory.LucasPrimality
import Mathlib.Algebra.BigOperators.Group.List.Basic

/-!
# Primality certificates

A certificate names a primitive root and the factors of `p - 1`. A list of certificates is valid
when every factor is certified before it is used.
-/

namespace ProofOfCustody.Params

def powMod (m : Nat) : Nat → Nat → Nat → Nat → Nat
  | 0, _, _, acc => acc % m
  | fuel + 1, base, e, acc =>
      powMod m fuel (base * base % m) (e / 2) (if e % 2 = 1 then acc * base % m else acc)

theorem powMod_eq (m fuel base e acc : Nat) (h : e < 2 ^ fuel) :
    powMod m fuel base e acc = acc * base ^ e % m := by
  induction fuel generalizing base e acc with
  | zero => simp [powMod, show e = 0 by simpa using h]
  | succ fuel ih =>
      rw [powMod, ih _ _ _ (by rw [pow_succ] at h; omega)]
      have square : (base * base % m) ^ (e / 2) ≡ base ^ (2 * (e / 2)) [MOD m] := by
        rw [pow_mul, pow_two]
        exact (Nat.mod_modEq _ _).pow _
      rcases Nat.mod_two_eq_zero_or_one e with even | odd
      · rw [if_neg (by omega)]
        refine (square.mul_left acc).trans ?_
        rw [show 2 * (e / 2) = e by omega]
      · rw [if_pos odd]
        refine ((Nat.mod_modEq _ _).mul square).trans ?_
        rw [mul_assoc, ← pow_succ', show 2 * (e / 2) + 1 = e by omega]

/-- The factors come with their multiplicities. -/
structure Certificate where
  prime : Nat
  root : Nat
  factors : List (Nat × Nat)

namespace Certificate

def power (c : Certificate) (e : Nat) : Nat := powMod c.prime (e.log2 + 1) c.root e 1

def valid (known : List Nat) (c : Certificate) : Bool :=
  decide (1 < c.prime) && (c.factors.map fun f => f.1 ^ f.2).prod == c.prime - 1 &&
    c.power (c.prime - 1) == 1 &&
    c.factors.all fun f => known.contains f.1 && c.power ((c.prime - 1) / f.1) != 1

def validAll : List Nat → List Certificate → Bool
  | _, [] => true
  | known, c :: cs => c.valid known && validAll (c.prime :: known) cs

theorem power_eq_one {c : Certificate} (large : 1 < c.prime) (e : Nat) :
    c.power e = 1 ↔ (c.root : ZMod c.prime) ^ e = 1 := by
  have residue : (c.root : ZMod c.prime) ^ e = 1 ↔ c.root ^ e ≡ 1 [MOD c.prime] := by
    rw [← ZMod.natCast_eq_natCast_iff, Nat.cast_pow, Nat.cast_one]
  rw [power, powMod_eq _ _ _ _ _ Nat.lt_log2_self, one_mul, residue, Nat.ModEq,
    Nat.mod_eq_of_lt large]

theorem prime_of_valid {known : List Nat} {c : Certificate} (primes : ∀ q ∈ known, q.Prime)
    (valid : c.valid known) : c.prime.Prime := by
  simp only [Certificate.valid, Bool.and_eq_true, decide_eq_true_eq, beq_iff_eq, List.all_eq_true,
    bne_iff_ne, List.contains_iff_mem] at valid
  obtain ⟨⟨⟨large, product⟩, full⟩, proper⟩ := valid
  refine lucas_primality c.prime _ ((power_eq_one large _).1 full) fun q prime divides => ?_
  rw [← product] at divides
  obtain ⟨x, hx, dx⟩ := (Prime.dvd_prod_iff prime.prime).1 divides
  obtain ⟨f, hf, rfl⟩ := List.mem_map.1 hx
  obtain ⟨factor, root⟩ := proper f hf
  rw [(Nat.prime_dvd_prime_iff_eq prime (primes _ factor)).1 (prime.dvd_of_dvd_pow dx)]
  exact fun h => root ((power_eq_one large _).2 h)

theorem prime_of_validAll {known : List Nat} {cs : List Certificate}
    (primes : ∀ q ∈ known, q.Prime) (valid : validAll known cs) : ∀ c ∈ cs, c.prime.Prime := by
  induction cs generalizing known with
  | nil => simp
  | cons c cs ih =>
      rw [validAll, Bool.and_eq_true] at valid
      have first := prime_of_valid primes valid.1
      rw [List.forall_mem_cons]
      exact ⟨first, ih (List.forall_mem_cons.2 ⟨first, primes⟩) valid.2⟩

end Certificate

end ProofOfCustody.Params
