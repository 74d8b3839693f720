import Mathlib
import ProofOfCustody.Effect.Coupling
import ProofOfCustody.Spdz.Share

/-!
# The joint execution of the online phase

All players run the same code in lockstep, so one program over `Shared` values describes the `n`
players together. Preprocessing material is valid by construction. What the players broadcast is
announced: the opened sums of shares and the masked inputs.
-/

namespace ProofOfCustody.Spdz
open Effect Shared

variable {n : Nat} {F : Type} [Field F]

section Material
variable (alphai : Fin n → F)

/-- A Beaver triple; the source indexes the three shared values as `[0]`, `[1]`, `[2]`. -/
structure Triple where
  a : Shared n F
  b : Shared n F
  c : Shared n F
  product : val c = val a * val b
  authentic : a ∈ Authentic alphai ∧ b ∈ Authentic alphai ∧ c ∈ Authentic alphai

/-- A `DATA_SQUARE` tuple. -/
structure Square where
  a : Shared n F
  aa : Shared n F
  square : val aa = val a * val a
  authentic : a ∈ Authentic alphai ∧ aa ∈ Authentic alphai

/-- A `DATA_BIT` item. -/
structure RandomBit where
  bit : Shared n F
  is_bit : val bit = 0 ∨ val bit = 1
  authentic : bit ∈ Authentic alphai

/-- A shared mask for a player's input; the player itself also knows the mask `rr`. -/
structure InputMask where
  share : Shared n F
  rr : F
  known : val share = rr
  authentic : share ∈ Authentic alphai

end Material

/-- The three callers of `preprocessing.get_two(DATA_SQUARE, ..)`. -/
inductive SquareUse
  | sqr | inv | legendre
  deriving DecidableEq

inductive Site (n : Nat)
  | triple
  | square (use : SquareUse)
  | bit
  | input (player : Fin n)
  deriving DecidableEq

inductive Kind (n : Nat)
  | triple
  | square
  | bit
  | input (player : Fin n)
  deriving DecidableEq

abbrev Site.kind : Site n → Kind n
  | triple => .triple
  | square _ => .square
  | bit => .bit
  | input player => .input player

abbrev Kind.Material (alphai : Fin n → F) : Kind n → Type
  | triple => Triple alphai
  | square => Square alphai
  | bit => RandomBit alphai
  | input _ => InputMask alphai

inductive OpenedBy (n : Nat)
  | beaver
  | sqr
  | inv
  | legendre
  | flag
  | difference
  | bits
  | input (player : Fin n)
  deriving DecidableEq

structure Opening (n : Nat) (F : Type) where
  step : OpenedBy n
  value : F
  deriving DecidableEq

inductive Err
  | invalid_length
  | bad_value
  | division_by_zero
  | not_implemented
  /-- An access outside a vector, which C++ leaves undefined. -/
  | undefined
  /-- Not an exception of the source: the rejection sampling has not come to an end yet. -/
  | outOfFuel
  deriving DecidableEq

abbrev spdz (alphai : Fin n → F) : Signature where
  Site := Site n
  Kind := Kind n
  kind := Site.kind
  Material := Kind.Material alphai
  Event := Opening n F
  Error := Err

instance (alphai : Fin n → F) : DecidableEq (spdz alphai).Kind :=
  inferInstanceAs (DecidableEq (Kind n))

abbrev Online (alphai : Fin n → F) := Program (spdz alphai)

variable {alphai : Fin n → F} {α : Type}

namespace Online

def throw (e : Err) : Online alphai α := Program.throw (S := spdz alphai) e

def getTriple : Online alphai (Triple alphai) := .draw (S := spdz alphai) .triple .ret
def getTwo (use : SquareUse) : Online alphai (Square alphai) :=
  .draw (S := spdz alphai) (.square use) .ret
def getOne : Online alphai (RandomBit alphai) := .draw (S := spdz alphai) .bit .ret
def getInput (player : Fin n) : Online alphai (InputMask alphai) :=
  .draw (S := spdz alphai) (.input player) .ret

def reveal (step : OpenedBy n) (a : List (Shared n F)) : Online alphai (List F) :=
  .emitAll (a.map fun s => (⟨step, val s⟩ : Opening n F)) (.ret (a.map val))

def defined : Option α → Online alphai α
  | some x => .ret x
  | none => throw .undefined

@[simp] theorem defined_some (x : α) : (defined (some x) : Online alphai α) = .ret x := rfl

def index (xs : List α) (i : Nat) : Online alphai α := defined xs[i]?

@[simp] theorem index_zero (x : α) (xs : List α) :
    (index (x :: xs) 0 : Online alphai α) = .ret x := rfl

theorem index_of_lt {xs : List α} {i : Nat} (h : i < xs.length) :
    (index xs i : Online alphai α) = .ret xs[i] := by
  rw [index, List.getElem?_eq_getElem h, defined_some]

section Rules
variable {A : Draw (spdz alphai) → Prop} {Q : α → Prop} {E : Err → Prop}

@[simp] theorem meets_throw (e : Err) : Program.Meets A Q E (throw e : Online alphai α) ↔ E e :=
  Iff.rfl

@[simp] theorem meets_getTriple (f : Triple alphai → Online alphai α) :
    Program.Meets A Q E (getTriple >>= f) ↔
      ∀ t : Triple alphai, A ⟨Site.triple, t⟩ → Program.Meets A Q E (f t) :=
  Iff.rfl

@[simp] theorem meets_getTwo (use : SquareUse) (f : Square alphai → Online alphai α) :
    Program.Meets A Q E (getTwo use >>= f) ↔
      ∀ t : Square alphai, A ⟨Site.square use, t⟩ → Program.Meets A Q E (f t) :=
  Iff.rfl

@[simp] theorem meets_reveal (step : OpenedBy n) (a : List (Shared n F))
    (f : List F → Online alphai α) :
    Program.Meets A Q E (reveal step a >>= f) ↔ Program.Meets A Q E (f (a.map val)) := by
  simp [reveal]

end Rules

end Online

structure Beaver (alphai : Fin n → F) where
  shares : List (Shared n F)
  opened : List F
  triples : List (Triple alphai)

namespace Beaver

def initMul : Beaver alphai := ⟨[], [], []⟩

def prepareMul (B : Beaver alphai) (x y : Shared n F) : Online alphai (Beaver alphai) := do
  let triple ← Online.getTriple
  return { B with
    triples := B.triples ++ [triple]
    shares := B.shares ++ [x - triple.a, y - triple.b] }

def exchange (B : Beaver alphai) : Online alphai (Beaver alphai) := do
  let opened ← Online.reveal .beaver B.shares
  return { B with opened }

def finalizeMul (B : Beaver alphai) : Online alphai (Shared n F × Beaver alphai) :=
  match B.opened, B.triples with
  | masked₀ :: masked₁ :: it, triple :: rest =>
      let tmp := triple.c + masked₀ • triple.b
      let tmp := tmp + masked₁ • triple.a
      let tmp := tmp + constant alphai (masked₀ * masked₁)
      return (tmp, { B with opened := it, triples := rest })
  | _, _ => Online.throw .undefined

end Beaver

end ProofOfCustody.Spdz
