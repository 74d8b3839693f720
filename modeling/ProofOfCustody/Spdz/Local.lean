import Mathlib
import ProofOfCustody.Spdz.MacCheckRuns
import ProofOfCustody.Spdz.Online

/-!
# The online phase over the network

A joint program of `Online` handles shared values as a whole. A `Local` program is the code of one
player, who has its own shares and opens values through its MAC check.
-/

namespace ProofOfCustody.Spdz
open Effect Network Process Networking Tools Shared

abbrev Kind.Part {n : Nat} (F : Type) : Kind n → Type
  | triple => Share F × Share F × Share F
  | square => Share F × Share F
  | bit => Share F
  | input _ => Share F × F

/-- The members of `OnlineOp` that change. -/
structure Members (n : Nat) (F : Type) where
  preprocessing : (κ : Kind n) → Nat → κ.Part F
  output : MacCheck F

instance {n : Nat} : DecidableEq (Kind n) := instDecidableEqKind

abbrev Local (n : Nat) (F : Type) := StateT (Members n F) (ExceptT Err (Play n))

/-- The place of a player, its share of the key, and what its MAC check rests on. -/
structure Seat (n : Nat) (F : Type) where
  outside : Outside F
  tree : TreeSum n
  my_num : Fin n
  alphai : F

variable {n : Nat} {F α β σ τ : Type}

namespace Local

def throw (e : Err) : Local n F α := fun _ => ExceptT.mk (pure (.error e))

def take (κ : Kind n) : Local n F (κ.Part F) := fun M =>
  pure (M.preprocessing κ 0, { M with
    preprocessing := fun κ' l => M.preprocessing κ' (if κ' = κ then l + 1 else l) })

def getTriple : Local n F (Share F × Share F × Share F) := take .triple
def getTwo : Local n F (Share F × Share F) := take .square
def getOne : Local n F (Share F) := take .bit
def getInput (player : Fin n) : Local n F (Share F × F) := take (.input player)

def defined : Option α → Local n F α
  | some x => pure x
  | none => throw .undefined

def index (xs : List α) (i : Nat) : Local n F α := defined xs[i]?

def forRange (body : Nat → σ → Local n F σ) : Nat → Nat → σ → Local n F σ
  | _, 0, s => pure s
  | lo, len + 1, s => body lo s >>= forRange body (lo + 1) len

def ofMacCheck (call : MacCheck F → Play n (α × MacCheck F)) : Local n F α := fun M =>
  ExceptT.mk do
    let (a, output) ← call M.output
    return .ok (a, { M with output })

theorem run_bind (l : Local n F α) (f : α → Local n F β) (M : Members n F) :
    ((l >>= f).run M).run = (l.run M).run >>= ExceptT.bindCont fun u => (f u.1).run u.2 := rfl

variable [Field F] [DecidableEq F]

def reveal (K : Seat n F) (a : List (Share F)) : Local n F (List F) :=
  ofMacCheck (MacCheck.pOpen K.outside K.tree K.my_num a)

def check (K : Seat n F) : Local n F PUnit :=
  ofMacCheck fun output => do
    let output ← MacCheck.check K.outside K.my_num output
    return (PUnit.unit, output)

/-- What is opened in a program is checked when it has returned. -/
def checked (K : Seat n F) (l : Local n F β) : Local n F β := do
  let b ← l
  check K
  return b

end Local

variable [Field F] {alphai : Fin n → F}

def Kind.part (my_num : Fin n) : (κ : Kind n) → κ.Material alphai → κ.Part F
  | triple, m => (m.a my_num, m.b my_num, m.c my_num)
  | square, m => (m.a my_num, m.aa my_num)
  | bit, m => m.bit my_num
  | input player, m => (m.share my_num, if player = my_num then m.rr else 0)

structure Holds (t : Tape (spdz alphai)) (L : Ledger n F) (M : Fin n → Members n F) : Prop where
  preprocessing : ∀ i κ l, (M i).preprocessing κ l = Kind.part i κ (t κ l)
  output : L.Kept alphai fun i => (M i).output

def dealt (t : Tape (spdz alphai)) (random : Fin n → Nat → UInt8) (i : Fin n) : Members n F where
  preprocessing κ l := Kind.part i κ (t κ l)
  output := .new (alphai i) (random i)

theorem holds_dealt (t : Tape (spdz alphai)) (random : Fin n → Nat → UInt8) :
    Holds t ⟨[], random⟩ (dealt t random) :=
  ⟨fun _ _ _ => rfl, Ledger.kept_new alphai random⟩

/-- Inputs are masked and sent to everyone; all else is opened by the MAC check. -/
def OpenedBy.checked : OpenedBy n → Bool
  | input _ => false
  | _ => true

def announced (events : List (Opening n F)) : List F :=
  (events.filter (·.step.checked)).map Opening.value

def Ends (r : Run (spdz alphai) α) (part : Fin n → α → β) (L : Ledger n F)
    (b : Fin n → Except Err (β × Members n F)) : Prop :=
  match r.result with
  | .ok a => ∃ M, (b = fun i => .ok (part i a, M i)) ∧ Holds r.rest L M
  | .error e => b = fun _ => .error e

theorem Ends.ok {r : Run (spdz alphai) α} {part : Fin n → α → β} {L : Ledger n F}
    {b : Fin n → Except Err (β × Members n F)} {a : α} (ends : Ends r part L b)
    (result : r.result = .ok a) :
    ∃ M, (b = fun i => .ok (part i a, M i)) ∧ Holds r.rest L M := by
  rw [Ends, result] at ends
  exact ends

theorem Ends.error {r : Run (spdz alphai) α} {part : Fin n → α → β} {L : Ledger n F}
    {b : Fin n → Except Err (β × Members n F)} {e : Err} (ends : Ends r part L b)
    (result : r.result = .error e) : b = fun _ => .error e := by
  rw [Ends, result] at ends
  exact ends

variable [DecidableEq F]

omit [DecidableEq F] in
theorem Ledger.serve_append [DecidableEq F] (O : Outside F)
    (requests requests' : List (Request F (Shared n F)))
    (L : Ledger n F) : L.serve O alphai (requests ++ requests') =
      L.serve O alphai requests >>= fun L' => L'.serve O alphai requests' := by
  induction requests generalizing L with
  | nil => rfl
  | cons r requests ih =>
      rw [List.cons_append, Ledger.serve, Ledger.serve]
      cases L.request O alphai r with
      | error e => rfl
      | ok L' => exact ih L'

/-- In every run of `p` the players open shared values in `W`, and each ends with its part of the
result, which is in `Q`. -/
def Localizes (O : Outside F) (W : Submodule F (Shared n F)) (Q : α → Prop) (part : Fin n → α → β)
    (p : Online alphai α) (l : Fin n → Local n F β) : Prop :=
  ∀ t, ∃ secrets : List (List (Shared n F)),
    (∀ s ∈ secrets.flatten, s ∈ W) ∧
    secrets.flatten.map val = announced (p.run t).events ∧
    (∀ a, (p.run t).result = .ok a → Q a) ∧
    ∀ L M, Holds t L M → Realizes (Ends (p.run t) part) (fun i => ((l i).run (M i)).run)
      (L.serve O alphai (secrets.map .pOpen))

def Local.session (O : Outside F) (T : TreeSum n) (l : Fin n → Local n F β) (t : Tape (spdz alphai))
    (random : Fin n → Nat → UInt8) (i : Fin n) : ExceptT Err (Play n) (β × Members n F) :=
  (Local.checked ⟨O, T, i, alphai i⟩ (l i)).run (dealt t random i)

/-- What the players ask of their MAC checks: a program that throws does not come to the last one. -/
def requested (r : Run (spdz alphai) α) (secrets : List (List (Shared n F))) :
    List (Request F (Shared n F)) :=
  secrets.map .pOpen ++ match r.result with
    | .ok _ => [.check]
    | .error _ => []

/-- The players have their parts of the result and nothing is left unchecked, or all have thrown. -/
def Concludes (r : Run (spdz alphai) α) (part : Fin n → α → β)
    (b : Fin n → Except Err (β × Members n F)) : Prop :=
  match r.result with
  | .ok a => ∃ M : Fin n → Members n F,
      (b = fun i => .ok (part i a, M i)) ∧ ∀ i, (M i).output.waitingForCheck = 0
  | .error e => b = fun _ => .error e

namespace Localizes
variable {O : Outside F} {W : Submodule F (Shared n F)} {Q : α → Prop} {part : Fin n → α → β}
  {p : Online alphai α} {l : Fin n → Local n F β}

theorem ret {a : α} (holds : Q a) :
    Localizes O W Q part (.ret a : Online alphai α) fun i => (pure (part i a) : Local n F β) :=
  fun _ => ⟨[], nofun, rfl, fun _ returned => Except.ok.inj returned ▸ holds,
    fun _ M held => .ret ⟨M, rfl, held⟩⟩

theorem ret_of {a : α} {b : Fin n → β} (holds : Q a) (same : ∀ i, b i = part i a) :
    Localizes O W Q part (.ret a : Online alphai α) fun i => (pure (b i) : Local n F β) :=
  funext same ▸ ret holds

theorem throw (e : Err) :
    Localizes O W Q part (Online.throw e : Online alphai α) fun _ => (Local.throw e : Local n F β) :=
  fun _ => ⟨[], nofun, rfl, nofun, fun _ _ _ => .ret rfl⟩

theorem congr {l' : Fin n → Local n F β} (localizes : Localizes O W Q part p l)
    (same : ∀ i, l' i = l i) : Localizes O W Q part p l' :=
  funext same ▸ localizes

theorem imp {Q' : α → Prop} (localizes : Localizes O W Q part p l) (weaker : ∀ a, Q a → Q' a) :
    Localizes O W Q' part p l := by
  intro t
  obtain ⟨secrets, inside, opened, holds, realizes⟩ := localizes t
  exact ⟨secrets, inside, opened, fun a returned => weaker a (holds a returned), realizes⟩

/-! The players see the condition of the joint program on their own shares. -/

section Guards
variable {c : Prop} [Decidable c] {c' : Fin n → Prop} [∀ i, Decidable (c' i)]
  (same : ∀ i, c' i ↔ c) (e : Err)
include same

theorem throwIf (passes : ¬c → Localizes O W Q part p l) :
    Localizes O W Q part (if c then Online.throw e else p) fun i =>
      if c' i then Local.throw e else l i := by
  by_cases holds : c
  · rw [if_pos holds]
    exact (throw e).congr fun i => if_pos ((same i).2 holds)
  · rw [if_neg holds]
    exact (passes holds).congr fun i => if_neg (mt (same i).1 holds)

theorem throwUnless (passes : c → Localizes O W Q part p l) :
    Localizes O W Q part (if c then p else Online.throw e) fun i =>
      if c' i then l i else Local.throw e := by
  by_cases holds : c
  · rw [if_pos holds]
    exact (passes holds).congr fun i => if_pos ((same i).2 holds)
  · rw [if_neg holds]
    exact (throw e).congr fun i => if_neg (mt (same i).1 holds)

end Guards

section Bind
variable {γ δ : Type} {Q' : γ → Prop} {part' : Fin n → γ → δ} {f : α → Online alphai γ}
  {g : Fin n → β → Local n F δ}

theorem bind (first : Localizes O W Q part p l)
    (second : ∀ a, Q a → Localizes O W Q' part' (f a) fun i => g i (part i a)) :
    Localizes O W Q' part' (p >>= f) fun i => l i >>= g i := by
  intro t
  obtain ⟨secrets, inside, opened, holds, realizes⟩ := first t
  let next (i : Fin n) : Except Err (β × Members n F) → Play n (Except Err (δ × Members n F)) :=
    ExceptT.bindCont fun b => ((g i b.1).run b.2)
  cases result : (p.run t).result with
  | error e =>
      rw [Program.run_bind_of_error result]
      refine ⟨secrets, inside, opened, nofun, fun L M held => ?_⟩
      refine (realizes L M held).next (f := next) fun L' _ b ends => ?_
      obtain rfl := ends.error result
      exact ⟨fun _ => .error e, fun _ => rfl, rfl⟩
  | ok a =>
      rw [Program.run_bind_of_ok result]
      obtain ⟨secrets', inside', opened', holds', realizes'⟩ :=
        second a (holds a result) (p.run t).rest
      refine ⟨secrets ++ secrets', ?_, ?_, holds', fun L M held => ?_⟩
      · rw [List.flatten_append]
        exact List.forall_mem_append.2 ⟨inside, inside'⟩
      · rw [List.flatten_append, List.map_append, opened, opened', Run.followedBy_events, announced,
          announced, announced, List.filter_append, List.map_append]
      · rw [List.map_append, Ledger.serve_append]
        refine (realizes L M held).bind (f := next) fun L' _ b ends => ?_
        obtain ⟨M', rfl, held'⟩ := ends.ok result
        exact realizes' L' M' held'

theorem map {part' : Fin n → γ → β} (localizes : Localizes O W Q part p l) (f : α → γ)
    (holds : ∀ a, Q a → Q' (f a)) (same : ∀ i a, Q a → part i a = part' i (f a)) :
    Localizes O W Q' part' (p >>= fun a => pure (f a)) l :=
  (localizes.bind (f := fun a => pure (f a)) (g := fun _ b => (pure b : Local n F β))
    fun a inside => .ret_of (holds a inside) fun i => same i a inside).congr fun i =>
      (bind_pure (l i)).symm

end Bind

theorem take (s : Site n) : Localizes O W (fun _ => True) (fun i => Kind.part i s.kind)
    (.draw (S := spdz alphai) s .ret) fun _ => Local.take s.kind := by
  refine fun t => ⟨[], nofun, rfl, fun _ _ => trivial, fun L M held => ?_⟩
  let M' (i : Fin n) : Members n F := { M i with
    preprocessing := fun κ l => (M i).preprocessing κ (if κ = s.kind then l + 1 else l) }
  refine .ret ⟨M', funext fun i => ?_, ⟨fun i κ l => ?_, held.output⟩⟩
  · change _ = Except.ok (Kind.part i s.kind (t s.kind 0), M' i)
    rw [← held.preprocessing]
  · change (M i).preprocessing κ (if κ = s.kind then l + 1 else l) =
      Kind.part i κ (t.pop (S := spdz alphai) s.kind κ l)
    rw [Tape.pop]
    by_cases same : κ = s.kind
    · subst same
      rw [if_pos rfl, Function.update_self, held.preprocessing]
    · rw [if_neg same, Function.update_of_ne same, held.preprocessing]

theorem defined {x : Option α} {y : Fin n → Option β} (holds : ∀ a, x = some a → Q a)
    (same : ∀ i, y i = x.map (part i)) :
    Localizes O W Q part (Online.defined x : Online alphai α) fun i => Local.defined (y i) := by
  obtain rfl : y = fun i => x.map (part i) := funext same
  cases x with
  | none => exact throw .undefined
  | some a => exact ret (holds a rfl)

theorem index {γ : Type} {f : Fin n → γ → β} {xs : List γ} {P : γ → Prop}
    (all : ∀ x ∈ xs, P x) (l : Nat) :
    Localizes O W P f (Online.index xs l : Online alphai γ) fun i => Local.index (xs.map (f i)) l :=
  defined (fun _ found => all _ (List.mem_of_getElem? found)) fun _ => List.getElem?_map

theorem definedClear {γ : Type} (x : Option γ) :
    Localizes O W (fun _ => True) (fun _ x => x) (Online.defined x : Online alphai γ) fun _ =>
      Local.defined x :=
  defined (fun _ _ => trivial) fun _ => x.map_id'.symm

theorem indexClear {γ : Type} (xs : List γ) (l : Nat) :
    Localizes O W (fun _ => True) (fun _ x => x) (Online.index xs l : Online alphai γ) fun _ =>
      Local.index xs l :=
  definedClear xs[l]?

theorem forRange {body : Nat → α → Online alphai α} {g : Fin n → Nat → β → Local n F β}
    (I : Nat → α → Prop) {lo len : Nat} {a : α} (start : I lo a)
    (step : ∀ k a, lo ≤ k → k < lo + len → I k a →
      Localizes O W (I (k + 1)) part (body k a) fun i => g i k (part i a)) :
    Localizes O W (I (lo + len)) part (Program.forRange body lo len a) fun i =>
      Local.forRange (g i) lo len (part i a) := by
  induction len generalizing lo a with
  | zero => exact .ret start
  | succ len ih =>
      refine (step lo a (Nat.le_refl lo) (by omega) start).bind fun a' holds => ?_
      have shift : lo + (len + 1) = lo + 1 + len := by omega
      rw [shift] at step ⊢
      exact ih holds fun k a lower upper => step k a (by omega) (by omega)

theorem foldlM {γ δ : Type} {f : Fin n → γ → δ} {body : α → γ → Online alphai α}
    {g : Fin n → β → δ → Local n F β} (I : Nat → α → Prop) {xs : List γ} {k : Nat} {a : α}
    (start : I k a) (step : ∀ k a, ∀ x ∈ xs, I k a →
      Localizes O W (I (k + 1)) part (body a x) fun i => g i (part i a) (f i x)) :
    Localizes O W (I (k + xs.length)) part (xs.foldlM body a) fun i =>
      (xs.map (f i)).foldlM (g i) (part i a) := by
  induction xs generalizing k a with
  | nil => exact .ret start
  | cons x xs ih =>
      refine (step k a x (by simp) start).bind fun a' holds => ?_
      have shift : k + (x :: xs).length = k + 1 + xs.length := by
        rw [List.length_cons]
        omega
      rw [shift]
      exact ih holds fun k a y member => step k a y (by simp [member])

theorem foldlMClear {γ : Type} {body : α → γ → Online alphai α} {g : Fin n → β → γ → Local n F β}
    {xs : List γ} {a : α} (start : Q a)
    (step : ∀ a, ∀ x ∈ xs, Q a → Localizes O W Q part (body a x) fun i => g i (part i a) x) :
    Localizes O W Q part (xs.foldlM body a) fun i => xs.foldlM (g i) (part i a) :=
  (foldlM (f := fun _ x => x) (fun _ => Q) (k := 0) start fun _ => step).congr fun _ => by
    rw [List.map_id']

theorem mapM {γ δ : Type} {f : Fin n → γ → δ} {body : γ → Online alphai α}
    {g : Fin n → δ → Local n F β} {xs : List γ}
    (each : ∀ x ∈ xs, Localizes O W Q part (body x) fun i => g i (f i x)) :
    Localizes O W (fun ys => ys.length = xs.length ∧ ∀ y ∈ ys, Q y) (fun i ys => ys.map (part i))
      (xs.mapM body) fun i => (xs.map (f i)).mapM (g i) := by
  induction xs with
  | nil => exact .ret ⟨rfl, fun y member => absurd member List.not_mem_nil⟩
  | cons x xs ih =>
      simp only [List.map_cons, List.mapM_cons]
      refine (each x (by simp)).bind fun y holds => ?_
      refine (ih fun x member => each x (by simp [member])).bind fun ys ⟨length, all⟩ => .ret ?_
      exact ⟨congrArg (· + 1) length, List.forall_mem_cons.2 ⟨holds, all⟩⟩

theorem mapMClear {γ : Type} {body : γ → Online alphai α} {g : Fin n → γ → Local n F β}
    {xs : List γ} (each : ∀ x ∈ xs, Localizes O W Q part (body x) fun i => g i x) :
    Localizes O W (fun ys => ys.length = xs.length ∧ ∀ y ∈ ys, Q y) (fun i ys => ys.map (part i))
      (xs.mapM body) fun i => xs.mapM (g i) :=
  (mapM (f := fun _ x => x) each).congr fun _ => by rw [List.map_id']

omit [Field F] [DecidableEq F] in
theorem call_realizes {γ : Type} {M : Fin n → Members n F} {c : Fin n → γ}
    {g : Fin n → MacCheck F → Play n (γ × MacCheck F)} {o : Except Fault (Ledger n F)}
    (answers : Realizes (fun L' a => ∃ output, a = (fun i => (c i, output i)) ∧ L'.Kept alphai output)
      (fun i => g i (M i).output) o) :
    Realizes (fun L' r => ∃ output : Fin n → MacCheck F,
        (r = fun i => .ok (c i, { M i with output := output i })) ∧ L'.Kept alphai output)
      (fun i => ((Local.ofMacCheck (g i)).run (M i)).run) o := by
  let write (i : Fin n) (r : γ × MacCheck F) : Play n (Except Err (γ × Members n F)) :=
    pure (.ok (r.1, { M i with output := r.2 }))
  refine answers.next (f := write) fun L' _ a answer => ?_
  obtain ⟨output, rfl, kept⟩ := answer
  exact ⟨_, fun _ => rfl, output, rfl, kept⟩

theorem reveal {T : TreeSum n} {m : Nat} (limits : Limits O T m) {step : OpenedBy n}
    (checked : step.checked) {a : List (Shared n F)} (inside : ∀ s ∈ a, s ∈ W)
    (short : a.length ≤ m) :
    Localizes O W (· = a.map val) (fun _ r => r) (Online.reveal step a : Online alphai _) fun i =>
      Local.reveal ⟨O, T, i, alphai i⟩ (a.map (· i)) := by
  intro t
  have run : (Online.reveal step a : Online alphai _).run t =
      ⟨[], a.map fun s => ⟨step, val s⟩, .ok (a.map val), t⟩ := by
    rw [Online.reveal]
    generalize a.map val = r
    induction a with
    | nil => rfl
    | cons s a ih =>
        rw [List.map_cons, Program.emitAll_cons, Program.run,
          ih (fun s member => inside s (by simp [member]))
          (Nat.le_of_succ_le short)]
        rfl
  rw [run]
  refine ⟨[a], by simpa using inside, ?_, fun _ returned => (Except.ok.inj returned).symm,
    fun L M held => ?_⟩
  · simp [announced, List.filter_map, Function.comp_def, checked]
  · have serve : L.serve O alphai ([a].map .pOpen) =
        (L.add (Ledger.entries (.pOpen a))).checkIfNeeded O alphai := by
      change ((L.add (Ledger.entries (.pOpen a))).checkIfNeeded O alphai >>= pure) = _
      exact bind_pure _
    rw [serve]
    refine (call_realizes (MacCheck.realizes_pOpen O limits held.output a short)).mono
      fun L' _ b answer => ?_
    obtain ⟨output, rfl, kept⟩ := answer
    exact ⟨fun i => { M i with output := output i }, rfl, held.preprocessing, kept⟩

/-! ## Runs with a last check -/

section Sessions
variable {T : TreeSum n} {M : Fin n → Members n F}

omit [DecidableEq F] in
theorem requested_entries (r : Run (spdz alphai) α) (secrets : List (List (Shared n F))) :
    (requested r secrets).flatMap Ledger.entries = secrets.flatten.map fun s => (s, val s) := by
  have opened : (secrets.map Request.pOpen).flatMap Ledger.entries =
      secrets.flatten.map fun s => (s, val s) := by
    rw [List.flatMap_map, List.map_flatten, List.flatMap_def]
    rfl
  rw [requested, List.flatMap_append, opened]
  split <;> simp [Ledger.entries]

theorem pending_of_check {L L' : Ledger n F} (accepted : L.check O alphai = .ok L') :
    L'.pending = [] := by
  rw [Ledger.check] at accepted
  split at accepted
  · cases accepted
    rfl
  · cases accepted

theorem check_realizes (bound : n ≤ 2 ^ 31) {L : Ledger n F} (held : L.Kept alphai fun i => (M i).output)
    (b : Fin n → β) :
    Realizes (fun (L' : Ledger n F) r => ∃ M' : Fin n → Members n F,
        (r = fun i => .ok (b i, M' i)) ∧ L'.Kept alphai fun i => (M' i).output)
      (fun i => ((do Local.check ⟨O, T, i, alphai i⟩; return b i : Local n F β).run (M i)).run)
      (L.check O alphai) := by
  let write (_ : Fin n) (output : MacCheck F) : Play n (PUnit × MacCheck F) :=
    pure (PUnit.unit, output)
  let answer (i : Fin n) : Except Err (PUnit × Members n F) →
      Play n (Except Err (β × Members n F)) :=
    ExceptT.bindCont fun u => pure (b i, u.2)
  have written : Realizes (fun L' u => ∃ output : Fin n → MacCheck F,
        (u = fun i => (PUnit.unit, output i)) ∧ L'.Kept alphai output)
      (fun i => MacCheck.check O i (M i).output >>= write i) (L.check O alphai) :=
    (MacCheck.realizes_check O bound held.toColumns held.counted
      (V := fun i => (M i).output.values) (k := fun i => (M i).output.next)
      fun i => ⟨rfl, rfl⟩).next (f := write)
      fun L' _ output checked => ⟨_, fun _ => rfl, output, rfl, checked.1⟩
  refine ((call_realizes (g := fun i output => MacCheck.check O i output >>= write i)
    written).next (f := answer) fun L' _ u checked => ?_).congr fun i => Local.run_bind _ _ _
  obtain ⟨output, rfl, kept⟩ := checked
  exact ⟨_, fun _ => rfl, fun i => { M i with output := output i }, rfl, kept⟩

/-- In every order of their steps the players end as the joint program does, unless what they have
opened together does not pass the checks. -/
theorem session_outcome (localizes : Localizes O W Q part p l) (bound : n ≤ 2 ^ 31)
    (t : Tape (spdz alphai)) (random : Fin n → Nat → UInt8) :
    ∃ secrets : List (List (Shared n F)), (∀ s ∈ secrets.flatten, s ∈ W) ∧
      secrets.flatten.map val = announced (p.run t).events ∧
      ((∀ C ∈ (Ledger.trace (requested (p.run t) secrets) ⟨[], random⟩).1, C.Passes O alphai) →
        ∃ b, Settles (fun i => (Local.session O T l t random i).run.run)
          (fun i => .ok (b i)) ∧ Concludes (p.run t) part b) ∧
      (¬(∀ C ∈ (Ledger.trace (requested (p.run t) secrets) ⟨[], random⟩).1, C.Passes O alphai) →
        Settles (fun i => (Local.session O T l t random i).run.run)
          fun _ => .error .mac_fail) := by
  obtain ⟨secrets, inside, opened, _, realizes⟩ := localizes t
  refine ⟨secrets, inside, opened, ?_⟩
  let last (i : Fin n) : Except Err (β × Members n F) → Play n (Except Err (β × Members n F)) :=
    ExceptT.bindCont fun b =>
      ((do Local.check ⟨O, T, i, alphai i⟩; return b.1 : Local n F β).run b.2)
  have whole : Realizes (fun _ b => Concludes (p.run t) part b)
      (Local.session O T l t random)
      (Ledger.serve O alphai (requested (p.run t) secrets) ⟨[], random⟩) := by
    rw [requested, Ledger.serve_append]
    refine (realizes _ _ (holds_dealt t random)).bind (f := last) fun L' _ b ends => ?_
    cases result : (p.run t).result with
    | error e =>
        obtain rfl := ends.error result
        refine .ret ?_
        rw [Concludes, result]
    | ok a =>
        obtain ⟨M', rfl, held'⟩ := ends.ok result
        have one : L'.serve O alphai [.check] = L'.check O alphai := by
          change L'.check O alphai >>= pure = _
          exact bind_pure _
        simp only [one]
        refine (check_realizes bound held'.output fun i => part i a).mono fun L'' accepted b ends => ?_
        obtain ⟨M'', rfl, kept⟩ := ends
        rw [Concludes, result]
        refine ⟨M'', rfl, fun i => ?_⟩
        rw [MacCheck.waiting_eq kept.toColumns kept.counted, pending_of_check accepted]
        rfl
  rw [Ledger.serve_eq] at whole
  refine ⟨fun passes => ?_, fun fails => ?_⟩
  · rw [if_pos passes] at whole
    obtain ⟨b, settles, concludes⟩ := whole.settles_ok
    exact ⟨b, settles, concludes⟩
  · rw [if_neg fails] at whole
    exact whole.settles_error

theorem all_or_none (localizes : Localizes O W Q part p l) (bound : n ≤ 2 ^ 31)
    (t : Tape (spdz alphai)) (random : Fin n → Nat → UInt8) :
    ∃ b, Settles (fun i => (Local.session O T l t random i).run.run) b ∧
      ((b = fun _ => .error .mac_fail) ∨
        ∃ b', (b = fun i => .ok (b' i)) ∧ Concludes (p.run t) part b') := by
  obtain ⟨secrets, _, _, succeeds, fails⟩ := localizes.session_outcome (T := T) bound t random
  by_cases passes : ∀ C ∈ (Ledger.trace (requested (p.run t) secrets) ⟨[], random⟩).1,
      C.Passes O alphai
  · obtain ⟨b, settles, concludes⟩ := succeeds passes
    exact ⟨_, settles, .inr ⟨b, rfl, concludes⟩⟩
  · exact ⟨_, fails passes, .inl rfl⟩

theorem settles (localizes : Localizes O (Authentic alphai) Q part p l) (bound : n ≤ 2 ^ 31)
    (t : Tape (spdz alphai)) (random : Fin n → Nat → UInt8) :
    ∃ b, Settles (fun i => (Local.session O T l t random i).run.run)
      (fun i => .ok (b i)) ∧ Concludes (p.run t) part b := by
  obtain ⟨secrets, authentic, _, succeeds, _⟩ := localizes.session_outcome (T := T) bound t random
  refine succeeds fun C member => Ledger.passes_of_zero fun d inside => ?_
  have covered : d ∈ (requested (p.run t) secrets).flatMap Ledger.entries := by
    have whole := Ledger.trace_entries (requested (p.run t) secrets) ⟨[], random⟩
    rw [List.nil_append] at whole
    rw [← whole]
    exact List.mem_append_left _ (List.mem_flatMap.2 ⟨C, member, inside⟩)
  rw [requested_entries] at covered
  obtain ⟨s, secret, rfl⟩ := List.mem_map.1 covered
  exact sub_eq_zero.2 ((mem_authentic _).1 (authentic s secret))

end Sessions

end Localizes

end ProofOfCustody.Spdz
