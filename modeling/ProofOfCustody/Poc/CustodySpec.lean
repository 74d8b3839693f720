import Mathlib
import ProofOfCustody.Poc.Custody
import ProofOfCustody.Spdz.Plain

/-!
# What the custody functions compute

Both offline tables hold the powers of the keys taken in turn, and the table hash of a message is
the polynomial in these powers with one more term at the end.
-/

namespace ProofOfCustody.Poc
open Effect Spdz Shared OnlineOp

def turnPower {F : Type} [Field F] (keys : List F) (i : Nat) : F :=
  keys.getD (i % keys.length) 0 ^ i

def tableHash {F : Type} [Field F] (keys msg : List F) : F :=
  ∑ i ∈ Finset.range msg.length, msg.getD i 0 * turnPower keys i + turnPower keys msg.length

section Table
variable {n : Nat} [NeZero n] {F : Type} [Field F] {alphai : Fin n → F} {α : Type}
  {A : Draw (spdz alphai) → Prop} {E : Err → Prop}

omit [NeZero n] in
theorem assign_eq {xs : List α} {i : Nat} (h : i < xs.length) (x : α) :
    (assign xs i x : Online alphai _) = .ret (xs.set i x) := by
  rw [assign, if_pos h]
  rfl

structure Filled (N : Nat) (keys : List F) (i : Nat) (pre_key : List (Shared n F)) : Prop where
  length : pre_key.length = N
  powers : ∀ j < i, val (pre_key.getD j 0) = turnPower keys (j + 1)

omit [NeZero n] in
theorem Filled.set {N i : Nat} {keys : List F} {pre_key : List (Shared n F)} {c : Shared n F}
    (h : Filled N keys i pre_key) (bound : i < N) (value : val c = turnPower keys (i + 1)) :
    Filled N keys (i + 1) (pre_key.set i c) := by
  refine ⟨by rw [List.length_set, h.length], fun j hj => ?_⟩
  rw [List.getD_eq_getElem?_getD]
  by_cases same : i = j
  · subst same
    rw [List.getElem?_set_self (h.length ▸ bound)]
    exact value
  · rw [List.getElem?_set_ne same, ← List.getD_eq_getElem?_getD]
    exact h.powers j (by omega)

theorem table_spec {N : Nat} {keys : List F} (turn : Nat) (turns : turn = keys.length)
    (positive : 0 < turn) (bound : turn ≤ N) (step : Nat → Shared n F)
    (powers : ∀ i, val (step i) = keys.getD ((i + 1) % turn) 0 ^ turn)
    {pre_key : List (Shared n F)} (start : Filled N keys turn pre_key) :
    Program.Meets A (Filled N keys N) E
      (Program.forRange (fun i pre_key => do
        let prev ← Online.index pre_key (i - turn)
        let c ← mul prev (step i)
        assign pre_key i c) turn (N - turn) pre_key : Online alphai _) := by
  refine (Program.Meets.forRange (fun i => Filled N keys i) turn (N - turn) pre_key start ?_).imp ?_
  · intro i pre_key lower upper filled
    have hi : i < N := by omega
    rw [Online.index_of_lt (by rw [filled.length]; omega), Program.ret_bind]
    refine (mul_spec _ (step i)).bind fun c hc => ?_
    rw [assign_eq (by rw [filled.length]; exact hi)]
    refine filled.set hi ?_
    have previous := filled.powers (i - turn) (by omega)
    rw [List.getD_eq_getElem _ _ (by rw [filled.length]; omega)] at previous
    rw [hc.1, previous, powers, turnPower, turnPower, ← turns,
      show i + 1 = i - turn + 1 + turn by omega, Nat.add_mod_right, ← pow_add]
  · intro pre_key filled
    rwa [Nat.add_sub_cancel' bound] at filled

theorem offline_spec {N : Nat} (s0 s1 : Shared n F) (bound : 2 ≤ N) :
    Program.Meets A (Filled N [val s0, val s1] N) E
      (computeCustodyBitOffline N [s0, s1] : Online alphai _) := by
  rw [computeCustodyBitOffline, if_neg (by simp), Online.index_of_lt (by simp),
    Online.index_of_lt (by simp)]
  simp only [Program.ret_bind, List.getElem_cons_zero, List.getElem_cons_succ]
  refine (sqr_spec s0).bind fun s0_square h0 => (sqr_spec s1).bind fun s1_square h1 => ?_
  rw [assign_eq (by simp; omega), Program.ret_bind, assign_eq (by simp; omega), Program.ret_bind]
  have empty : Filled N [val s0, val s1] 0 (List.replicate N (0 : Shared n F)) :=
    ⟨List.length_replicate, by omega⟩
  refine table_spec 2 rfl (by omega) bound _ (fun i => ?_)
    ((empty.set (by omega) ?_).set (by omega) ?_)
  · rcases Nat.mod_two_eq_zero_or_one i with h | h
    · rw [if_pos h, h1.1, show (i + 1) % 2 = 1 by omega]
      simp [pow_two]
    · rw [if_neg (by omega), h0.1, show (i + 1) % 2 = 0 by omega]
      simp [pow_two]
  · simp [turnPower]
  · simp [turnPower, h0.1, pow_two]

theorem offline2primes_spec {N : Nat} (s0 s1 s2 : Shared n F) (bound : 3 ≤ N) :
    Program.Meets A (Filled N [val s0, val s1, val s2] N) E
      (computeCustodyBitOffline2primes N [s0, s1, s2] : Online alphai _) := by
  rw [computeCustodyBitOffline2primes, if_neg (by simp), Online.index_of_lt (by simp),
    Online.index_of_lt (by simp), Online.index_of_lt (by simp)]
  simp only [Program.ret_bind, List.getElem_cons_zero, List.getElem_cons_succ]
  refine (sqr_spec s0).bind fun q0 h0 => (mulInplace_spec q0 s0).bind fun s0_cube h0' => ?_
  refine (sqr_spec s1).bind fun q1 h1 => (mulInplace_spec q1 s1).bind fun s1_cube h1' => ?_
  refine (sqr_spec s2).bind fun q2 h2 => ?_
  rw [assign_eq (by simp; omega), Program.ret_bind]
  refine (mulInplace_spec q2 s2).bind fun s2_cube h2' => ?_
  rw [assign_eq (by simp; omega), Program.ret_bind, assign_eq (by simp; omega), Program.ret_bind,
    List.set_comm _ _ (by omega : (1 : Nat) ≠ 0)]
  have empty : Filled N [val s0, val s1, val s2] 0 (List.replicate N (0 : Shared n F)) :=
    ⟨List.length_replicate, by omega⟩
  refine table_spec 3 rfl (by omega) bound _ (fun i => ?_)
    (((empty.set (by omega) ?_).set (by omega) ?_).set (by omega) ?_)
  · have cases : i % 3 = 0 ∨ i % 3 = 1 ∨ i % 3 = 2 := by omega
    rcases cases with h | h | h
    · rw [if_pos h, h1'.1, h1.1, show (i + 1) % 3 = 1 by omega]
      simp [pow_succ]
    · rw [if_neg (by omega), if_pos h, h2'.1, h2.1, show (i + 1) % 3 = 2 by omega]
      simp [pow_succ]
    · rw [if_neg (by omega), if_neg (by omega), h0'.1, h0.1, show (i + 1) % 3 = 0 by omega]
      simp [pow_succ]
  · simp [turnPower]
  · simp [turnPower, h2.1, pow_two]
  · simp [turnPower, h0'.1, h0.1, pow_succ]

theorem hashTable_spec {N : Nat} {keys msg : List F} {pre_key : List (Shared n F)}
    (filled : Filled N keys N pre_key) (length : msg.length = N) (several : 2 ≤ N) :
    Program.Meets A (fun u => val u = tableHash keys msg) E
      (hashTable pre_key msg : Online alphai _) := by
  have lp := filled.length
  have entry (j : Nat) (hj : j < pre_key.length) : val pre_key[j] = turnPower keys (j + 1) := by
    rw [← filled.powers j (lp ▸ hj), List.getD_eq_getElem]
  rw [hashTable, Online.index_of_lt (by omega), Online.index_of_lt (by omega),
    Online.index_of_lt (by omega)]
  simp only [Program.ret_bind]
  refine (Program.Meets.forRange (fun i u => val u =
    ∑ j ∈ Finset.range i, msg.getD j 0 * turnPower keys j) 2 (msg.length - 2) _ ?_ ?_).bind
      fun u hu => ?_
  · rw [addPlainInplace, map_add, val_constant, mulPlain, val_smul, entry, Finset.sum_range_succ,
      Finset.sum_range_one, List.getD_eq_getElem _ _ (by omega), List.getD_eq_getElem _ _ (by omega)]
    simp [turnPower, add_comm]
  · intro i u lower upper hu
    rw [Online.index_of_lt (by omega), Online.index_of_lt (by omega)]
    change val (addInplace u (mulPlain _ _)) = _
    rw [addInplace, map_add, mulPlain, val_smul, hu, entry, Finset.sum_range_succ,
      List.getD_eq_getElem _ _ (by omega), Nat.sub_add_cancel (by omega)]
  · rw [back, List.getLast?_eq_getElem?, List.getElem?_eq_getElem (by omega)]
    change val (addInplace u _) = _
    rw [addInplace, map_add, entry, hu, tableHash, lp, length, Nat.add_sub_cancel' several,
      Nat.sub_add_cancel (by omega)]

end Table

section Bit
variable {n p : Nat} [NeZero n] [Fact p.Prime] {alphai : Fin n → ZMod p}
  {A : Draw (spdz alphai) → Prop} {E : Err → Prop}

theorem online_spec (masks : ∀ m : Square alphai, A ⟨Site.square .legendre, m⟩ → val m.a ≠ 0)
    {N : Nat} {keys msg : List (ZMod p)} {pre_key : List (Shared n (ZMod p))}
    (filled : Filled N keys N pre_key) (length : msg.length = N) (several : 2 ≤ N) :
    Program.Meets A
      (fun res => res = if IsSquare (turnPower keys 1 + tableHash keys msg) then 1 else 0) E
      (computeCustodyBitOnline N pre_key msg : Online alphai _) := by
  rw [computeCustodyBitOnline, if_neg (not_not.2 length)]
  refine (hashTable_spec filled length several).bind fun u hu => ?_
  have lp := filled.length
  have first := filled.powers 0 (by omega)
  rw [List.getD_eq_getElem _ _ (by omega)] at first
  rw [Online.index_of_lt (by omega), Program.ret_bind, ← first, ← hu]
  exact legendrePrf_spec masks _ u

theorem oneStep_spec (masks : ∀ m : Square alphai, A ⟨Site.square .legendre, m⟩ → val m.a ≠ 0)
    {N : Nat} (s0 s1 : Shared n (ZMod p)) {msg : List (ZMod p)} (length : msg.length = N)
    (several : 2 ≤ N) (small : N ≤ 2 ^ 31 + 2) :
    Program.Meets A
      (fun res => res =
        if IsSquare (val s1 + ∑ i ∈ Finset.range N, msg.getD i 0 * val s0 ^ i) then 1 else 0) E
      (computeCustodyBit N [s0, s1] msg : Online alphai _) := by
  rw [computeCustodyBit, if_neg (show ¬[s0, s1].length ≠ 2 by simp), Online.index_of_lt (by simp)]
  simp only [Program.ret_bind, List.getElem_cons_zero]
  refine (uhf_spec s0 length several small).bind fun u hu => ?_
  rw [Online.index_of_lt (by simp), Program.ret_bind, ← hu]
  exact legendrePrf_spec masks s1 u

theorem lor_bits (a b : Prop) [Decidable a] [Decidable b] :
    Int.lor (if a then 1 else 0) (if b then 1 else 0) = if a ∨ b then 1 else 0 := by
  by_cases ha : a <;> by_cases hb : b <;> simp only [ha, hb, if_true, if_false, or_self, or_true,
    or_false] <;> decide

theorem online2primes_spec
    (masks : ∀ m : Square alphai, A ⟨Site.square .legendre, m⟩ → val m.a ≠ 0)
    {N : Nat} {keys msg : List (ZMod p)} {pre_key : List (Shared n (ZMod p))}
    (key : Shared n (ZMod p)) (filled : Filled N keys N pre_key) (length : msg.length = N)
    (several : 2 ≤ N) :
    Program.Meets A (fun res => res = if ∃ j < 10, IsSquare (tableHash keys msg + (j : Nat) + val key)
        then 1 else 0) E
      (computeCustodyBitOnline2primes N pre_key key msg : Online alphai _) := by
  rw [computeCustodyBitOnline2primes, if_neg (not_not.2 length)]
  refine (hashTable_spec filled length several).bind fun u hu => ?_
  generalize 10 = rounds
  refine (Program.Meets.forRange (fun i res => res = if ∃ j < i, IsSquare
    (tableHash keys msg + (j : Nat) + val key) then 1 else 0) 0 rounds 0 (by simp) ?_).imp
    fun res hres => by rwa [Nat.zero_add] at hres
  intro i res _ _ hres
  refine (legendrePrf_spec masks key (addPlain alphai u (i : ZMod p))).bind fun bit hbit => ?_
  rw [addPlain, map_add, val_constant, hu, add_comm (val key)] at hbit
  change Int.lor res bit = _
  rw [hres, hbit, if_congr Nat.exists_lt_succ_right rfl rfl]
  exact lor_bits _ _

theorem custodyBit2primes_eq {N : Nat} (several : 3 ≤ N) (s0 s1 s2 : Shared n (ZMod p))
    {msg : List (ZMod p)} (length : msg.length = N) (t : Tape (spdz alphai)) :
    ∃ pre_key, ((computeCustodyBitOffline2primes N [s0, s1, s2]).run t).result = .ok pre_key ∧
      pre_key.length = N ∧
      (∀ i < N, val (pre_key.getD i 0) =
        [val s0, val s1, val s2].getD ((i + 1) % 3) 0 ^ (i + 1)) ∧
      ∀ t' : Tape (spdz alphai),
        MasksNonzero ((computeCustodyBitOnline2primes N pre_key s0 msg).run t') →
        ((computeCustodyBitOnline2primes N pre_key s0 msg).run t').result =
          .ok (if ∃ j < 10, IsSquare (
            ∑ i ∈ Finset.range N, msg.getD i 0 * [val s0, val s1, val s2].getD (i % 3) 0 ^ i +
              [val s0, val s1, val s2].getD (N % 3) 0 ^ N + (j : Nat) + val s0) then 1 else 0) := by
  obtain ⟨pre_key, returned, filled⟩ :=
    (offline2primes_spec (A := fun _ => True) s0 s1 s2 several).run_ok t fun _ _ => trivial
  refine ⟨pre_key, returned, filled.length, filled.powers, fun t' masks => ?_⟩
  obtain ⟨res, returned', rfl⟩ :=
    (online2primes_spec (A := (· ∈ ((computeCustodyBitOnline2primes N pre_key s0 msg).run t').used))
      (E := fun _ => False) masks s0 filled length (by omega)).run_ok t' fun _ h => h
  rw [returned', tableHash, length]
  rfl

theorem custodyBit2primes_eq_small :
    let alphai : Fin 2 → ZMod 3 := ![1, 2]
    ∃ pre_key, ((computeCustodyBitOffline2primes 4 [constant alphai 1, constant alphai 2,
        constant alphai 2]).run (plainTape alphai)).result = .ok pre_key ∧
      ((computeCustodyBitOnline2primes 4 pre_key (constant alphai 1) [1, 2, 0, 1]).run
        (plainTape alphai)).result = .ok 1 := by
  intro alphai
  obtain ⟨pre_key, returned, _, _, online⟩ := custodyBit2primes_eq (N := 4) (by omega)
    (constant alphai 1) (constant alphai 2) (constant alphai 2)
    (show [(1 : ZMod 3), 2, 0, 1].length = 4 from rfl) (plainTape alphai)
  refine ⟨pre_key, returned, (online _ (plainTape_masksNonzero alphai _)).trans ?_⟩
  simp only [val_constant]
  rw [if_pos (by decide)]

end Bit

end ProofOfCustody.Poc
