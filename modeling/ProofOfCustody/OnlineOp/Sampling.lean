import Mathlib
import ProofOfCustody.OnlineOp.Exact

/-!
# What the rejection sampling returns

`pre_rand` as a function of the stream of bits: the first block that encodes less than `p`.
-/

namespace ProofOfCustody.OnlineOp
open Effect Spdz Shared Binary

variable {n p : Nat} [Fact p.Prime] {alphai : Fin n → ZMod p}

def Yields (alphai : Fin n → ZMod p) (w : List Bool) (x : Nat) : Prop :=
  ∀ (t : Tape (spdz alphai)) (fuel : Nat), word (block t 0) = w →
    ∃ r, ((preRand (fuel + 1)).run t).result = .ok (r, blockBits t 0) ∧ (val r).val = x ∧
      bitsUsed ((preRand (fuel + 1)).run t) = PSIZE

theorem accepted_zero {t : Tape (spdz alphai)} {w : List Bool} (first : word (block t 0) = w) :
    Accepted t 0 ↔ toNat w < p := by
  rw [Accepted, first]

theorem blockBits_val (t : Tape (spdz alphai)) (j : Nat) :
    val (recompose (blockBits t j) PSIZE) = (toNat (word (block t j)) : ZMod p) :=
  recompose_val (block_encodes (block t j)) (length_word _) PSIZE_pos

variable [NeZero n]

def streamFrom (alphai : Fin n → ZMod p) (w : List Bool) : Tape (spdz alphai)
  | .bit, i => if bound : i < PSIZE
      then steer w (block (plainTape alphai) 0) ⟨i, bound⟩ else plainTape alphai .bit i
  | .triple, i => plainTape alphai .triple i
  | .square, i => plainTape alphai .square i
  | .input player, i => plainTape alphai (.input player) i

theorem word_streamFrom {w : List Bool} (length : w.length = PSIZE) :
    word (block (streamFrom alphai w) 0) = w := by
  conv_rhs => rw [← word_steer length (block (plainTape alphai) 0)]
  apply congrArg word
  funext i
  rw [block, Nat.zero_mul, Nat.zero_add]
  exact dif_pos i.isLt

theorem yields_iff (small : p < 2 ^ PSIZE) {w : List Bool} (length : w.length = PSIZE) {x : Nat}
    (bound : x < p) : Yields alphai w x ↔ toNat w = x := by
  constructor
  · intro yields
    have start : word (block (streamFrom alphai w) 0) = w := word_streamFrom length
    obtain ⟨r, returned, value, used⟩ := yields _ 0 start
    rcases preRand_run small 1 (streamFrom alphai w) with ⟨j, earlier, first, _⟩ | ⟨_, failed⟩
    · obtain rfl : j = 0 := by omega
      have accepted := (accepted_zero start).1 first.1
      cases (preRand_first small first Nat.one_pos).symm.trans returned
      rw [← value, blockBits_val, start, ZMod.val_cast_of_lt accepted]
    · cases returned.symm.trans failed
  · rintro rfl t fuel start
    have accepted := (accepted_zero start).2 bound
    obtain ⟨_, _, accepting, _⟩ := preRand_step small fuel t
    obtain ⟨returned, used⟩ := accepting accepted
    refine ⟨_, returned, ?_, used⟩
    rw [blockBits_val, start, ZMod.val_cast_of_lt bound]

/-- The sampling returns the first accepted block and its integer, has read the stream up to the
end of that block, and every residue has one block. -/
theorem preRand_exact (small : p < 2 ^ PSIZE) (alphai : Fin n → ZMod p) :
    (∀ t : Tape (spdz alphai),
      ((∃ fuel out, ((preRand fuel).run t).result = .ok out) ↔ ∃ j, Accepted t j) ∧
      ∀ j, FirstAccepted t 0 j → ∀ fuel, j < fuel →
        ∃ r, ((preRand fuel).run t).result = .ok (r, blockBits t j) ∧
          (val r).val = toNat (word (block t j)) ∧
          bitsUsed ((preRand fuel).run t) = (j + 1) * PSIZE ∧
          ∀ i, ((preRand fuel).run t).rest .bit i = t .bit (i + (j + 1) * PSIZE)) ∧
    ∀ x < p, ∃! w : List Bool, w.length = PSIZE ∧ Yields alphai w x := by
  refine ⟨fun t => ⟨⟨?_, ?_⟩, fun j first fuel enough => ?_⟩, fun x bound => ?_⟩
  · rintro ⟨fuel, out, returned⟩
    rcases preRand_run small fuel t with ⟨j, _, first, _⟩ | ⟨_, failed⟩
    · exact ⟨j, by simpa using first.1⟩
    · cases returned.symm.trans failed
  · rintro ⟨j, accepted⟩
    obtain ⟨i, _, first⟩ := exists_firstAccepted (Nat.zero_le j) accepted
    exact ⟨i + 1, _, preRand_first small first (Nat.lt_succ_self i)⟩
  · have accepted : toNat (word (block t j)) < p := by simpa [Accepted] using first.1
    have used : bitsUsed ((preRand fuel).run t) = (j + 1) * PSIZE := by
      rcases preRand_run small fuel t with ⟨i, _, other, _, used⟩ | ⟨missed, _⟩
      · rw [used, first.unique other]
      · exact absurd (by simpa using first.1) (missed j enough)
    refine ⟨_, preRand_first small first enough, ?_, used, fun i => ?_⟩
    · rw [blockBits_val, ZMod.val_cast_of_lt accepted]
    · rw [Program.run_rest]
      exact congrArg (fun used => t .bit (i + used)) used
  · refine ⟨ofNat PSIZE x, ⟨length_ofNat _ _, ?_⟩, ?_⟩
    · rw [yields_iff small (length_ofNat _ _) bound, toNat_ofNat_of_lt (bound.trans small)]
    · rintro w ⟨length, yields⟩
      rw [yields_iff small length bound] at yields
      apply toNat_injective (length.trans (length_ofNat _ _).symm)
      rw [yields, toNat_ofNat_of_lt (bound.trans small)]

theorem preRand_exact_zeros :
    let alphai : Fin 2 → ZMod Params.prime381 := ![1, 2]
    ∃ fuel out, ((preRand fuel).run (plainTape alphai)).result = .ok out := by
  intro alphai
  exact ((preRand_exact prime381_small alphai).1 (plainTape alphai)).1.2
    ⟨0, plainTape_accepted alphai 0⟩

end ProofOfCustody.OnlineOp
