import Mathlib.Data.List.Forall2
import Mathlib.Logic.Function.Basic
import Mathlib.Tactic.Common

/-!
# Programs that draw material, announce events and fail

A program over a signature is a well-founded tree: it returns, throws, draws one item of material
at a site, or announces an event. `Program.run` feeds it from a tape that holds one queue for every
kind of material; `Program.Meets` is its weakest precondition when the drawn material is chosen by
an adversary among the admitted items.
-/

namespace ProofOfCustody.Effect

/-- A site is a place of the program text that draws; its kind names the queue that answers. -/
structure Signature where
  Site : Type
  Kind : Type
  kind : Site → Kind
  Material : Kind → Type
  Event : Type
  Error : Type

variable {S : Signature} {α β γ σ : Type}

inductive Program (S : Signature) (α : Type) : Type
  | ret (a : α)
  | throw (e : S.Error)
  | draw (s : S.Site) (k : S.Material (S.kind s) → Program S α)
  | emit (v : S.Event) (p : Program S α)

structure Draw (S : Signature) where
  site : S.Site
  material : S.Material (S.kind site)

abbrev Tape (S : Signature) := (κ : S.Kind) → Nat → S.Material κ

namespace Program

def bind : Program S α → (α → Program S β) → Program S β
  | ret a, f => f a
  | throw e, _ => throw e
  | draw s k, f => draw s fun m => (k m).bind f
  | emit v p, f => emit v (p.bind f)

instance : Monad (Program S) where
  pure := ret
  bind := bind

@[simp] theorem pure_eq (a : α) : (pure a : Program S α) = ret a := rfl
@[simp] theorem ret_bind (a : α) (f : α → Program S β) : ret a >>= f = f a := rfl
@[simp] theorem throw_bind (e : S.Error) (f : α → Program S β) : throw e >>= f = throw e := rfl
@[simp] theorem draw_bind (s : S.Site) (k : S.Material (S.kind s) → Program S α)
    (f : α → Program S β) : draw s k >>= f = draw s fun m => k m >>= f := rfl
@[simp] theorem emit_bind (v : S.Event) (p : Program S α) (f : α → Program S β) :
    emit v p >>= f = emit v (p >>= f) := rfl

theorem bind_ret (p : Program S α) : p >>= ret = p := by
  induction p with
  | ret a => rfl
  | throw e => rfl
  | draw s k ih => exact congrArg (draw s) (funext ih)
  | emit v p ih => exact congrArg (emit v) ih

theorem bind_assoc (p : Program S α) (f : α → Program S β) (g : β → Program S γ) :
    p >>= f >>= g = p >>= fun a => f a >>= g := by
  induction p with
  | ret a => rfl
  | throw e => rfl
  | draw s k ih => exact congrArg (draw s) (funext ih)
  | emit v p ih => exact congrArg (emit v) ih

instance : LawfulMonad (Program S) :=
  LawfulMonad.mk' (Program S) bind_ret (fun _ _ => rfl) bind_assoc

/-- The counted loop `for (i = lo; i < lo + len; i++) s = body i s`. -/
def forRange (body : Nat → σ → Program S σ) : Nat → Nat → σ → Program S σ
  | _, 0, s => ret s
  | lo, len + 1, s => body lo s >>= forRange body (lo + 1) len

def emitAll (vs : List S.Event) (p : Program S α) : Program S α := vs.foldr emit p

@[simp] theorem emitAll_nil (p : Program S α) : emitAll [] p = p := rfl
@[simp] theorem emitAll_cons (v : S.Event) (vs : List S.Event) (p : Program S α) :
    emitAll (v :: vs) p = emit v (emitAll vs p) := rfl

@[simp] theorem emitAll_bind (vs : List S.Event) (p : Program S α) (f : α → Program S β) :
    emitAll vs p >>= f = emitAll vs (p >>= f) := by
  induction vs with
  | nil => rfl
  | cons v vs ih => exact congrArg (emit v) ih

def Meets (A : Draw S → Prop) (Q : α → Prop) (E : S.Error → Prop) : Program S α → Prop
  | ret a => Q a
  | throw e => E e
  | draw s k => ∀ m, A ⟨s, m⟩ → Meets A Q E (k m)
  | emit _ p => Meets A Q E p

section Rules
variable {A A' : Draw S → Prop} {Q Q' : α → Prop} {E E' : S.Error → Prop}

@[simp] theorem meets_ret (a : α) : Meets A Q E (ret a) ↔ Q a := Iff.rfl
@[simp] theorem meets_throw (e : S.Error) : Meets A Q E (throw e : Program S α) ↔ E e := Iff.rfl
@[simp] theorem meets_draw (s : S.Site) (k : S.Material (S.kind s) → Program S α) :
    Meets A Q E (draw s k) ↔ ∀ m, A ⟨s, m⟩ → Meets A Q E (k m) := Iff.rfl
@[simp] theorem meets_emit (v : S.Event) (p : Program S α) :
    Meets A Q E (emit v p) ↔ Meets A Q E p := Iff.rfl

@[simp] theorem meets_emitAll (vs : List S.Event) (p : Program S α) :
    Meets A Q E (emitAll vs p) ↔ Meets A Q E p := by
  induction vs with
  | nil => rfl
  | cons v vs ih => exact ih

theorem Meets.mono {p : Program S α} (h : Meets A Q E p) (hok : ∀ d, A' d → A d)
    (hQ : ∀ a, Q a → Q' a) (hE : ∀ e, E e → E' e) : Meets A' Q' E' p := by
  induction p with
  | ret a => exact hQ a h
  | throw e => exact hE e h
  | draw s k ih => exact fun m hm => ih m (h m (hok _ hm))
  | emit v p ih => exact ih h

theorem Meets.imp {p : Program S α} (h : Meets A Q E p) (hQ : ∀ a, Q a → Q' a) :
    Meets A Q' E p :=
  h.mono (fun _ hd => hd) hQ (fun _ he => he)

theorem meets_bind {p : Program S α} {f : α → Program S β} {Q : β → Prop} :
    Meets A Q E (p >>= f) ↔ Meets A (fun a => Meets A Q E (f a)) E p := by
  induction p with
  | ret a => rfl
  | throw e => rfl
  | draw s k ih => exact forall_congr' fun m => imp_congr_right fun _ => ih m
  | emit v p ih => exact ih

theorem Meets.bind {p : Program S α} {f : α → Program S β} {Q : β → Prop} {P : α → Prop}
    (h : Meets A P E p) (hf : ∀ a, P a → Meets A Q E (f a)) : Meets A Q E (p >>= f) :=
  meets_bind.2 (h.imp hf)

theorem meets_true (p : Program S α) : Meets (fun _ => True) (fun _ => True) (fun _ => True) p := by
  induction p with
  | ret a => trivial
  | throw e => trivial
  | draw s k ih => exact fun m _ => ih m
  | emit v p ih => exact ih

theorem Meets.mapM {f : β → Program S α} {R : β → α → Prop} (xs : List β)
    (h : ∀ x ∈ xs, Meets A (R x) E (f x)) :
    Meets A (fun ys => List.Forall₂ R xs ys) E (xs.mapM f) := by
  induction xs with
  | nil => simp
  | cons x xs ih =>
      rw [List.mapM_cons]
      refine (h x (by simp)).bind fun y hy => ?_
      refine (ih fun z hz => h z (by simp [hz])).bind fun ys hys => ?_
      exact List.Forall₂.cons hy hys

theorem Meets.forRange {body : Nat → σ → Program S σ} (I : Nat → σ → Prop) (lo len : Nat) (s : σ)
    (start : I lo s)
    (step : ∀ i s, lo ≤ i → i < lo + len → I i s → Meets A (I (i + 1)) E (body i s)) :
    Meets A (I (lo + len)) E (forRange body lo len s) := by
  induction len generalizing lo s with
  | zero => exact start
  | succ len ih =>
      refine (step lo s (Nat.le_refl lo) (by omega) start).bind fun s' hs' => ?_
      have := ih (lo + 1) s' hs' fun i s'' lower upper => step i s'' (by omega) (by omega)
      rwa [show lo + 1 + len = lo + (len + 1) by omega] at this

end Rules

end Program

structure Run (S : Signature) (α : Type) where
  used : List (Draw S)
  events : List S.Event
  result : Except S.Error α
  rest : Tape S

namespace Run

def drew (d : Draw S) (r : Run S α) : Run S α := { r with used := d :: r.used }
def announced (v : S.Event) (r : Run S α) : Run S α := { r with events := v :: r.events }

@[simp] theorem drew_result (d : Draw S) (r : Run S α) : (r.drew d).result = r.result := rfl
@[simp] theorem drew_events (d : Draw S) (r : Run S α) : (r.drew d).events = r.events := rfl
@[simp] theorem drew_used (d : Draw S) (r : Run S α) : (r.drew d).used = d :: r.used := rfl
@[simp] theorem drew_rest (d : Draw S) (r : Run S α) : (r.drew d).rest = r.rest := rfl
@[simp] theorem announced_result (v : S.Event) (r : Run S α) :
    (r.announced v).result = r.result := rfl
@[simp] theorem announced_events (v : S.Event) (r : Run S α) :
    (r.announced v).events = v :: r.events := rfl
@[simp] theorem announced_used (v : S.Event) (r : Run S α) : (r.announced v).used = r.used := rfl
@[simp] theorem announced_rest (v : S.Event) (r : Run S α) : (r.announced v).rest = r.rest := rfl

end Run

namespace Tape
variable [DecidableEq S.Kind]

def pop (κ : S.Kind) (t : Tape S) : Tape S :=
  Function.update t κ fun i => t κ (i + 1)

end Tape

def Run.drawn [DecidableEq S.Kind] (κ : S.Kind) (r : Run S α) : Nat :=
  r.used.countP (S.kind ·.site = κ)

theorem Run.drew_drawn [DecidableEq S.Kind] (κ : S.Kind) (d : Draw S) (r : Run S α) :
    (r.drew d).drawn κ = r.drawn κ + if S.kind d.site = κ then 1 else 0 := by
  rw [Run.drawn, Run.drew_used, List.countP_cons, Run.drawn]
  simp only [decide_eq_true_eq]

namespace Program
variable [DecidableEq S.Kind]

def run : Program S α → Tape S → Run S α
  | ret a, t => ⟨[], [], .ok a, t⟩
  | throw e, t => ⟨[], [], .error e, t⟩
  | draw s k, t => (run (k (t (S.kind s) 0)) (t.pop (S.kind s))).drew ⟨s, t (S.kind s) 0⟩
  | emit v p, t => (run p t).announced v

end Program

def Run.followedBy (r : Run S α) (s : Run S β) : Run S β :=
  ⟨r.used ++ s.used, r.events ++ s.events, s.result, s.rest⟩

def Run.failing (r : Run S α) (e : S.Error) : Run S β := ⟨r.used, r.events, .error e, r.rest⟩

namespace Run

@[simp] theorem failing_result (r : Run S α) (e : S.Error) :
    (r.failing e : Run S β).result = .error e := rfl
@[simp] theorem failing_events (r : Run S α) (e : S.Error) :
    (r.failing e : Run S β).events = r.events := rfl
@[simp] theorem failing_rest (r : Run S α) (e : S.Error) :
    (r.failing e : Run S β).rest = r.rest := rfl
@[simp] theorem failing_failing (r : Run S α) (e e' : S.Error) :
    ((r.failing e : Run S β).failing e' : Run S γ) = r.failing e' := rfl
@[simp] theorem followedBy_failing (r : Run S α) (s : Run S β) (e : S.Error) :
    (r.followedBy (s.failing e) : Run S γ) = (r.followedBy s).failing e := rfl
@[simp] theorem followedBy_events (r : Run S α) (s : Run S β) :
    (r.followedBy s).events = r.events ++ s.events := rfl
@[simp] theorem followedBy_rest (r : Run S α) (s : Run S β) :
    (r.followedBy s).rest = s.rest := rfl
@[simp] theorem failing_drawn [DecidableEq S.Kind] (r : Run S α) (e : S.Error) (κ : S.Kind) :
    (r.failing e : Run S β).drawn κ = r.drawn κ := rfl
@[simp] theorem followedBy_drawn [DecidableEq S.Kind] (r : Run S α) (s : Run S β) (κ : S.Kind) :
    (r.followedBy s).drawn κ = r.drawn κ + s.drawn κ := List.countP_append

end Run

def Run.andThen [DecidableEq S.Kind] (r : Run S α) (f : α → Program S β) : Run S β :=
  match r.result with
  | .ok a =>
      let s := (f a).run r.rest
      ⟨r.used ++ s.used, r.events ++ s.events, s.result, s.rest⟩
  | .error e => ⟨r.used, r.events, .error e, r.rest⟩

namespace Program
variable [DecidableEq S.Kind]

theorem run_bind (p : Program S α) (f : α → Program S β) (t : Tape S) :
    (p >>= f).run t = (p.run t).andThen f := by
  induction p generalizing t with
  | ret a => rfl
  | throw e => rfl
  | draw s k ih =>
      rw [draw_bind, run, ih, run]
      simp only [Run.andThen, Run.drew]
      split <;> rfl
  | emit v p ih =>
      rw [emit_bind, run, ih, run]
      simp only [Run.andThen, Run.announced]
      split <;> rfl

theorem run_bind_ok {p : Program S α} {f : α → Program S β} {t : Tape S} {b : β}
    (h : ((p >>= f).run t).result = .ok b) :
    ∃ a, (p.run t).result = .ok a ∧ ((f a).run (p.run t).rest).result = .ok b := by
  rw [run_bind, Run.andThen] at h
  split at h
  · rename_i a returned
    exact ⟨a, returned, h⟩
  · cases h

theorem Meets.run {A : Draw S → Prop} {Q : α → Prop} {E : S.Error → Prop} {p : Program S α}
    (h : Meets A Q E p) (t : Tape S) (admitted : ∀ d ∈ (p.run t).used, A d) :
    (∃ a, (p.run t).result = .ok a ∧ Q a) ∨ (∃ e, (p.run t).result = .error e ∧ E e) := by
  induction p generalizing t with
  | ret a => exact .inl ⟨a, rfl, h⟩
  | throw e => exact .inr ⟨e, rfl, h⟩
  | draw s k ih =>
      refine ih _ (h _ (admitted _ (by simp [Program.run]))) _ fun d hd => admitted d ?_
      simp [Program.run, hd]
  | emit v p ih => exact ih h t fun d hd => admitted d hd

theorem used_from_tape (p : Program S α) (t : Tape S) {d : Draw S} (drawn : d ∈ (p.run t).used) :
    ∃ i, d.material = t (S.kind d.site) i := by
  induction p generalizing t with
  | ret a => simp [Program.run] at drawn
  | throw e => simp [Program.run] at drawn
  | draw s k ih =>
      rw [Program.run, Run.drew_used, List.mem_cons] at drawn
      rcases drawn with rfl | drawn
      · exact ⟨0, rfl⟩
      · obtain ⟨i, source⟩ := ih _ _ drawn
        rw [source, Tape.pop]
        by_cases same : S.kind d.site = S.kind s
        · exact ⟨i + 1, by rw [same, Function.update_self]⟩
        · exact ⟨i, by rw [Function.update_of_ne same]⟩
  | emit v p ih => exact ih t drawn

theorem run_rest (p : Program S α) (t : Tape S) (κ : S.Kind) (i : Nat) :
    (p.run t).rest κ i = t κ (i + (p.run t).drawn κ) := by
  induction p generalizing t with
  | ret a => rfl
  | throw e => rfl
  | draw s k ih =>
      rw [Program.run, Run.drew_rest, Run.drew_drawn, ih]
      by_cases same : S.kind s = κ
      · subst same
        rw [if_pos rfl, Tape.pop, Function.update_self, Nat.add_assoc]
      · rw [if_neg same, Tape.pop, Function.update_of_ne (Ne.symm same), Nat.add_zero]
  | emit v p ih => exact ih t

theorem run_bind_of_ok {p : Program S α} {f : α → Program S β} {t : Tape S} {a : α}
    (returned : (p.run t).result = .ok a) :
    (p >>= f).run t = (p.run t).followedBy ((f a).run (p.run t).rest) := by
  rw [run_bind, Run.andThen, returned]
  rfl

theorem run_bind_of_error {p : Program S α} {f : α → Program S β} {t : Tape S} {e : S.Error}
    (failed : (p.run t).result = .error e) : (p >>= f).run t = (p.run t).failing e := by
  rw [run_bind, Run.andThen, failed]
  rfl

theorem drawn_bind_ok {p : Program S α} {f : α → Program S β} {t : Tape S} {a : α}
    (returned : (p.run t).result = .ok a) (κ : S.Kind) :
    ((p >>= f).run t).result = ((f a).run (p.run t).rest).result ∧
      ((p >>= f).run t).drawn κ = (p.run t).drawn κ + ((f a).run (p.run t).rest).drawn κ := by
  rw [run_bind, Run.andThen, returned]
  exact ⟨rfl, List.countP_append⟩

theorem drawn_bind_error {p : Program S α} {f : α → Program S β} {t : Tape S} {e : S.Error}
    (failed : (p.run t).result = .error e) (κ : S.Kind) :
    ((p >>= f).run t).result = .error e ∧ ((p >>= f).run t).drawn κ = (p.run t).drawn κ := by
  rw [run_bind, Run.andThen, failed]
  exact ⟨rfl, rfl⟩

theorem Meets.run_ok {A : Draw S → Prop} {Q : α → Prop} {p : Program S α}
    (h : Meets A Q (fun _ => False) p) (t : Tape S) (admitted : ∀ d ∈ (p.run t).used, A d) :
    ∃ a, (p.run t).result = .ok a ∧ Q a := by
  rcases h.run t admitted with returned | ⟨_, _, absurd⟩
  · exact returned
  · exact absurd.elim

theorem Meets.returned {A : Draw S → Prop} {Q : α → Prop} {E : S.Error → Prop} {p : Program S α}
    (h : Meets A Q E p) {t : Tape S} (admitted : ∀ d ∈ (p.run t).used, A d) {a : α}
    (returned : (p.run t).result = .ok a) : Q a := by
  rcases h.run t admitted with ⟨_, same, holds⟩ | ⟨_, other, _⟩
  · cases returned.symm.trans same
    exact holds
  · cases returned.symm.trans other

def Extends (p p' : Program S α) : Prop :=
  ∀ t a, (p.run t).result = .ok a → p'.run t = p.run t

namespace Extends
variable {p p' p'' : Program S α}

theorem refl (p : Program S α) : Extends p p := fun _ _ _ => rfl

theorem trans (h : Extends p p') (h' : Extends p' p'') : Extends p p'' := by
  intro t a returned
  have same := h t a returned
  rw [h' t a (same ▸ returned), same]

theorem of_throw (e : S.Error) : Extends (throw e) p := nofun

theorem bind {f f' : α → Program S β} (h : Extends p p') (next : ∀ a, Extends (f a) (f' a)) :
    Extends (p >>= f) (p' >>= f') := by
  intro t b returned
  obtain ⟨a, first, second⟩ := run_bind_ok returned
  rw [run_bind, run_bind, h t a first, Run.andThen, Run.andThen, first]
  simp only [next a _ b second]

theorem emit (v : S.Event) (h : Extends p p') : Extends (.emit v p) (.emit v p') :=
  fun t a returned => congrArg (Run.announced v) (h t a returned)

end Extends

end Program

end ProofOfCustody.Effect
