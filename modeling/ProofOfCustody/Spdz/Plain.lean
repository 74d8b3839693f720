import Mathlib
import ProofOfCustody.Spdz.Online

/-!
# Material that hides nothing

Valid material with public masks: zero triples, squares of one, zero bits and zero input masks.
-/

namespace ProofOfCustody.Spdz
open Effect Shared

variable {n : Nat} {F : Type} [Field F] (alphai : Fin n → F) {α : Type}

def Triple.plain : Triple alphai :=
  ⟨0, 0, 0, by simp, zero_mem _, zero_mem _, zero_mem _⟩

def RandomBit.plain : RandomBit alphai :=
  ⟨0, .inl (map_zero val), zero_mem _⟩

def InputMask.plain : InputMask alphai :=
  ⟨0, 0, map_zero val, zero_mem _⟩

variable [NeZero n]

def Square.plain : Square alphai :=
  ⟨constant alphai 1, constant alphai 1, by simp, constant_authentic _ _, constant_authentic _ _⟩

def plainTape : Tape (spdz alphai)
  | .triple, _ => Triple.plain alphai
  | .square, _ => Square.plain alphai
  | .bit, _ => RandomBit.plain alphai
  | .input _, _ => InputMask.plain alphai

def MasksNonzero {alphai : Fin n → F} (r : Run (spdz alphai) α) : Prop :=
  ∀ m : Square alphai, ⟨Site.square .legendre, m⟩ ∈ r.used → val m.a ≠ 0

def InvMasksNonzero {alphai : Fin n → F} (r : Run (spdz alphai) α) : Prop :=
  ∀ m : Square alphai, ⟨Site.square .inv, m⟩ ∈ r.used → val m.a ≠ 0

theorem plainTape_masksNonzero (p : Online alphai α) : MasksNonzero (p.run (plainTape alphai)) := by
  intro m drawn
  obtain ⟨i, source⟩ := Program.used_from_tape p _ drawn
  have : m = Square.plain alphai := source
  simp [this, Square.plain]

theorem plainTape_invMasksNonzero (p : Online alphai α) :
    InvMasksNonzero (p.run (plainTape alphai)) := by
  intro m drawn
  obtain ⟨i, source⟩ := Program.used_from_tape p _ drawn
  have : m = Square.plain alphai := source
  simp [this, Square.plain]

theorem plainTape_rest (p : Online alphai α) :
    (p.run (plainTape alphai)).rest = plainTape alphai := by
  funext κ i
  rw [Program.run_rest]
  cases κ <;> rfl

end ProofOfCustody.Spdz
