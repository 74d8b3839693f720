import Mathlib
import ProofOfCustody.Spdz.MacCheck
import ProofOfCustody.Spdz.TreeSumRuns

/-!
# What the players check together

A `Ledger` holds the shared values that have been opened and not been checked yet. The players keep
its columns: every player its shares of the MACs, and all of them the opened values.
-/

namespace ProofOfCustody.Spdz
open Network Process Networking Tools Script Shared
open Bls (SEED_SIZE)

variable {n : Nat} {F : Type} [Field F] [DecidableEq F]

inductive Request (F S : Type)
  | pOpen (secrets : List S)
  | addToCheck (share : S) (value : F)
  | check

namespace Request

def map {S S' : Type} (f : S → S') : Request F S → Request F S'
  | pOpen secrets => .pOpen (secrets.map f)
  | addToCheck share value => .addToCheck (f share) value
  | check => .check

def AtMost {S : Type} (m : Nat) : Request F S → Prop
  | pOpen secrets => secrets.length ≤ m
  | addToCheck _ _ => True
  | check => True

end Request

namespace MacCheck

def request (O : Outside F) (T : TreeSum n) (my_num : Fin n) (M : MacCheck F) :
    Request F (Share F) → Play n (List (List F) × MacCheck F)
  | .pOpen secrets => do
    let (values, M) ← pOpen O T my_num secrets M
    return ([values], M)
  | .addToCheck share value => do
    let M ← addToCheck O my_num share value M
    return ([], M)
  | .check => do
    let M ← check O my_num M
    return ([], M)

def serve (O : Outside F) (T : TreeSum n) (my_num : Fin n) :
    List (Request F (Share F)) → MacCheck F → Play n (List (List F) × MacCheck F)
  | [], M => return ([], M)
  | r :: requests, M => do
    let (values, M) ← request O T my_num M r
    let (opened, M) ← serve O T my_num requests M
    return (values ++ opened, M)

end MacCheck

abbrev Entry (n : Nat) (F : Type) := Shared n F × F

structure Ledger (n : Nat) (F : Type) where
  pending : List (Entry n F)
  random : Fin n → Nat → UInt8

namespace Ledger
variable (O : Outside F) (alphai : Fin n → F)

def discrepancy (d : Entry n F) : F := macSum d.1 - (∑ j, alphai j) * d.2

def combination (h : Nat → F) (pending : List (Entry n F)) : F :=
  ∑ l ∈ Finset.range pending.length, h l * discrepancy alphai (pending.getD l 0)

def seed (L : Ledger n F) : Octets :=
  sumSeeds (fun i => List.ofFn fun l : Fin SEED_SIZE => L.random i l) SEED_SIZE

def Passes (L : Ledger n F) : Prop :=
  if L.pending.length < 10 then ∀ d ∈ L.pending, discrepancy alphai d = 0
  else combination alphai (O.almost_randomize L.seed) L.pending = 0

instance (L : Ledger n F) : Decidable (L.Passes O alphai) := by
  unfold Passes
  infer_instance

def used (L : Ledger n F) : Nat :=
  if L.pending.length = 0 then 0 else if L.pending.length < 10 then SEED_SIZE else 3 * SEED_SIZE

def after (L : Ledger n F) : Ledger n F := ⟨[], fun i l => L.random i (L.used + l)⟩

def check (L : Ledger n F) : Except Fault (Ledger n F) :=
  if L.Passes O alphai then return L.after else throw .mac_fail

def checkIfNeeded (L : Ledger n F) : Except Fault (Ledger n F) :=
  if L.pending.length ≥ POPEN_MAX then L.check O alphai else return L

def add (L : Ledger n F) (entries : List (Entry n F)) : Ledger n F :=
  { L with pending := L.pending ++ entries }

def entries : Request F (Shared n F) → List (Entry n F)
  | .pOpen secrets => secrets.map fun s => (s, val s)
  | .addToCheck share value => [(share, value)]
  | .check => []

def opened : Request F (Shared n F) → List (List F)
  | .pOpen secrets => [secrets.map val]
  | .addToCheck _ _ => []
  | .check => []

def request (L : Ledger n F) : Request F (Shared n F) → Except Fault (Ledger n F)
  | .pOpen secrets => (L.add (entries (.pOpen secrets))).checkIfNeeded O alphai
  | .addToCheck share value => (L.add (entries (.addToCheck share value))).checkIfNeeded O alphai
  | .check => L.check O alphai

def serve : List (Request F (Shared n F)) → Ledger n F → Except Fault (Ledger n F)
  | [], L => return L
  | r :: requests, L => do
    let L ← L.request O alphai r
    serve requests L

structure Columns (L : Ledger n F) (M : Fin n → MacCheck F) : Prop where
  alphai_eq : ∀ i, (M i).alphai = alphai i
  vals : ∀ i, (M i).vals = L.pending.map Prod.snd
  macs : ∀ i, (M i).macs = L.pending.map fun d => (d.1 i).mac
  popen_cnt : ∀ i, (M i).popen_cnt = L.pending.length
  random : ∀ i, (M i).random = L.random i

/-- Between two requests fewer than `POPEN_MAX` values wait to be checked. -/
structure Kept (L : Ledger n F) (M : Fin n → MacCheck F) : Prop extends Columns alphai L M where
  few : L.pending.length < POPEN_MAX

omit [Field F] [DecidableEq F] in
theorem Kept.counted {L : Ledger n F} {M : Fin n → MacCheck F} (kept : L.Kept alphai M) :
    L.pending.length < 2 ^ 31 := by
  have few := kept.few
  rw [POPEN_MAX] at few
  omega

omit [Field F] [DecidableEq F] in
theorem kept_new (random : Fin n → Nat → UInt8) :
    Kept alphai ⟨[], random⟩ fun i => MacCheck.new (alphai i) (random i) where
  alphai_eq _ := rfl
  vals _ := rfl
  macs _ := rfl
  popen_cnt _ := rfl
  random _ := rfl
  few := POPEN_MAX_pos

def checkedIfNeeded (L : Ledger n F) : List (Ledger n F) × Ledger n F :=
  if L.pending.length ≥ POPEN_MAX then ([L], L.after) else ([], L)

def step (L : Ledger n F) : Request F (Shared n F) → List (Ledger n F) × Ledger n F
  | .pOpen secrets => (L.add (entries (.pOpen secrets))).checkedIfNeeded
  | .addToCheck share value => (L.add (entries (.addToCheck share value))).checkedIfNeeded
  | .check => ([L], L.after)

def trace : List (Request F (Shared n F)) → Ledger n F → List (Ledger n F) × Ledger n F
  | [], L => ([], L)
  | request :: requests, L =>
    ((L.step request).1 ++ (trace requests (L.step request).2).1,
      (trace requests (L.step request).2).2)

variable {O alphai} {L : Ledger n F}

theorem check_eq : L.check O alphai =
    if ∀ C ∈ [L], C.Passes O alphai then .ok L.after else .error .mac_fail := by
  rw [check]
  simp only [List.mem_singleton, forall_eq]
  rfl

theorem checkIfNeeded_eq : L.checkIfNeeded O alphai =
    if ∀ C ∈ L.checkedIfNeeded.1, C.Passes O alphai then .ok L.checkedIfNeeded.2
    else .error .mac_fail := by
  rw [checkIfNeeded, checkedIfNeeded]
  split
  · exact check_eq
  · rw [if_pos nofun]
    rfl

theorem request_eq (request : Request F (Shared n F)) : L.request O alphai request =
    if ∀ C ∈ (L.step request).1, C.Passes O alphai then .ok (L.step request).2
    else .error .mac_fail := by
  cases request with
  | pOpen secrets => exact checkIfNeeded_eq
  | addToCheck share value => exact checkIfNeeded_eq
  | check => exact check_eq

theorem serve_eq (requests : List (Request F (Shared n F))) (L : Ledger n F) :
    L.serve O alphai requests =
      if ∀ C ∈ (trace requests L).1, C.Passes O alphai then .ok (trace requests L).2
      else .error .mac_fail := by
  induction requests generalizing L with
  | nil =>
      rw [serve, trace, if_pos nofun]
      rfl
  | cons request requests ih =>
      rw [serve, request_eq, trace]
      simp only [List.forall_mem_append]
      by_cases now : ∀ C ∈ (L.step request).1, C.Passes O alphai
      · rw [if_pos now]
        change serve O alphai requests (L.step request).2 = _
        simp only [ih, and_iff_right now]
      · rw [if_neg now, if_neg fun all => now all.1]
        rfl

omit [DecidableEq F] in
theorem passes_of_zero (zero : ∀ d ∈ L.pending, discrepancy alphai d = 0) : L.Passes O alphai := by
  rw [Passes]
  split
  · exact zero
  · refine Finset.sum_eq_zero fun l inside => ?_
    rw [List.getD_eq_getElem _ _ (Finset.mem_range.1 inside), zero _ (List.getElem_mem _), mul_zero]

omit [DecidableEq F] in
theorem trace_entries (requests : List (Request F (Shared n F))) (L : Ledger n F) :
    (trace requests L).1.flatMap pending ++ (trace requests L).2.pending =
      L.pending ++ requests.flatMap entries := by
  have needed (L : Ledger n F) :
      L.checkedIfNeeded.1.flatMap pending ++ L.checkedIfNeeded.2.pending = L.pending := by
    rw [checkedIfNeeded]
    split <;> simp [after]
  have one (L : Ledger n F) (request : Request F (Shared n F)) :
      (L.step request).1.flatMap pending ++ (L.step request).2.pending =
        L.pending ++ entries request := by
    cases request with
    | pOpen secrets => exact needed _
    | addToCheck share value => exact needed _
    | check => simp [step, after, entries]
  induction requests generalizing L with
  | nil => simp [trace]
  | cons request requests ih =>
      rw [trace, List.flatMap_append, List.append_assoc, ih, ← List.append_assoc, one,
        List.flatMap_cons, List.append_assoc]

end Ledger

end ProofOfCustody.Spdz
