import Mathlib
import ProofOfCustody.OnlineOp.BitsCoupled

/-!
# Inputs

Every call of `get_inputs` masks and broadcasts the inputs of all players, and keeps the share of
the input of one of them.
-/

namespace ProofOfCustody.OnlineOp
open Effect Spdz Shared

variable {n : Nat} {F : Type} [Field F] {alphai : Fin n → F}

/-- `add_mine` and `add_other`: the mask of a player and the value `t` it will broadcast. -/
def addInput (inputs : Fin n → F) (player : Fin n) : Online alphai (Shared n F × F) := do
  let mask ← Online.getInput player
  return (mask.share, inputs player - mask.rr)

def broadcastInputs (t : List F) : Online alphai Unit :=
  .emitAll (List.zipWith (fun player t => (⟨.input player, t⟩ : Opening n F)) (List.finRange n) t)
    (.ret ())

/-- `inputs` holds what each player passes as its own input. -/
def getInputs (party : Fin n) (inputs : Fin n → F) : Online alphai (Shared n F) := do
  let added ← (List.finRange n).mapM (addInput inputs)
  broadcastInputs (added.map Prod.snd)
  let (share, t) ← Online.index added party
  return share + constant alphai t

section Rules
variable [NeZero n]

theorem getInputs_spec {A : Draw (spdz alphai) → Prop} {E : Err → Prop} (party : Fin n)
    (inputs : Fin n → F) :
    Program.Meets A (fun sa => val sa = inputs party) E (getInputs party inputs : Online alphai _) := by
  have each (player : Fin n) : Program.Meets A (fun added => val added.1 + added.2 = inputs player) E
      (addInput inputs player : Online alphai _) := by
    intro mask _
    change val mask.share + (inputs player - mask.rr) = _
    rw [mask.known]
    ring
  refine (Program.Meets.mapM (R := fun player added => val added.1 + added.2 = inputs player)
    (List.finRange n) fun player _ => each player).bind fun added related => ?_
  have length : added.length = n := by simpa using related.length_eq.symm
  have mine := (List.forall₂_iff_get.1 related).2 party (by simp) (by simp [length])
  change Program.Meets A _ E (broadcastInputs _ >>= fun _ => Online.index added party >>= _)
  rw [broadcastInputs, Program.emitAll_bind, Program.meets_emitAll, Program.ret_bind,
    Online.index_of_lt (by simp [length])]
  simpa using mine

theorem getInputs_coupled {sim : Similarity (spdz alphai)} {h : Fin n}
    (masks : ∀ t t' : InputMask alphai, sim (Site.input h) t t')
    (kept : ∀ i, i ≠ h → ∀ t : InputMask alphai, sim (Site.input i) t t)
    (party : Fin n) {inputs inputs' : Fin n → F} (same : ∀ i, i ≠ h → inputs i = inputs' i) :
    Coupled sim (fun sa sa' => val sa = inputs party ∧ val sa' = inputs' party)
      (getInputs party inputs : Online alphai _) (getInputs party inputs') := by
  refine (Coupled.and_meets (R := fun _ _ => True) (E := fun _ => False) ?shape
    (getInputs_spec party inputs) (getInputs_spec party inputs')).imp fun _ _ h => h.2
  have each (player : Fin n) : Coupled sim (fun added added' => added.2 = added'.2)
      (addInput inputs player : Online alphai _) (addInput inputs' player) := by
    by_cases mine : player = h
    · subst mine
      refine .draw (S := spdz alphai) (Site.input player)
        (InputMask.shiftEquiv (inputs' player - inputs player)) (fun t => masks _ _) fun t => .ret ?_
      change inputs player - t.rr = inputs' player - (t.rr + (inputs' player - inputs player))
      ring
    · refine .draw (S := spdz alphai) (Site.input player) (Equiv.refl _) (kept player mine)
        fun t => .ret ?_
      change inputs player - t.rr = inputs' player - t.rr
      rw [same player mine]
  refine (Coupled.mapM (List.finRange n) fun player _ => each player).bind ?_
  rintro added added' ⟨length, related⟩
  have bound : party.val < added.length := by simp [length]
  have broadcast : added.map Prod.snd = added'.map Prod.snd := by
    rw [← List.forall₂_eq_eq_eq, List.forall₂_map_left_iff, List.forall₂_map_right_iff]
    exact related
  change Coupled sim _ (broadcastInputs _ >>= fun _ => Online.index added party >>= _)
    (broadcastInputs _ >>= fun _ => Online.index added' party >>= _)
  rw [broadcastInputs, broadcastInputs, Program.emitAll_bind, Program.emitAll_bind, broadcast]
  refine .emitAll rfl ?_
  rw [Program.ret_bind, Program.ret_bind, Online.index_of_lt bound,
    Online.index_of_lt (related.length_eq ▸ bound)]
  exact .ret trivial

end Rules

end ProofOfCustody.OnlineOp
