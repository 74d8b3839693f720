import Mathlib.Data.Fin.Tuple.Basic
import Mathlib.Logic.Equiv.Prod
import ProofOfCustody.Effect.Program

/-!
# Couplings of two programs

Two programs are coupled when they draw at the same sites, and every block of draws comes with a
bijection of the drawn material under which the two announce the same events. A coupling yields
one bijection of whole tapes that maps every run of the first program to a run of the second with
the same events.
-/

namespace ProofOfCustody.Effect

variable {S : Signature} {α β γ δ : Type}

abbrev Similarity (S : Signature) := (s : S.Site) → S.Material (S.kind s) → S.Material (S.kind s) → Prop

namespace Program

def drawAll (s : S.Site) : (N : Nat) → ((Fin N → S.Material (S.kind s)) → Program S α) → Program S α
  | 0, k => k Fin.elim0
  | N + 1, k => draw s fun m => drawAll s N fun v => k (Fin.cons m v)

theorem drawAll_bind (s : S.Site) (N : Nat) (k : (Fin N → S.Material (S.kind s)) → Program S α)
    (f : α → Program S β) : drawAll s N k >>= f = drawAll s N fun v => k v >>= f := by
  induction N with
  | zero => rfl
  | succ N ih => exact congrArg (draw s) (funext fun m => ih _)

theorem meets_drawAll {A : Draw S → Prop} {Q : α → Prop} {E : S.Error → Prop} (s : S.Site) (N : Nat)
    (k : (Fin N → S.Material (S.kind s)) → Program S α) :
    Meets A Q E (drawAll s N k) ↔ ∀ v, (∀ i, A ⟨s, v i⟩) → Meets A Q E (k v) := by
  induction N with
  | zero => exact ⟨fun h v _ => Subsingleton.elim Fin.elim0 v ▸ h, fun h => h _ fun i => i.elim0⟩
  | succ N ih =>
      simp only [drawAll, meets_draw, ih]
      constructor
      · intro h v hv
        have := h (v 0) (hv 0) (Fin.tail v) fun i => hv i.succ
        rwa [Fin.cons_self_tail] at this
      · intro h m hm v hv
        exact h _ (Fin.cases hm hv)

end Program

inductive Coupled (sim : Similarity S) (R : α → β → Prop) : Program S α → Program S β → Prop
  | ret {a b} (related : R a b) : Coupled sim R (.ret a) (.ret b)
  | throw (e) : Coupled sim R (.throw e) (.throw e)
  | emit (v) {p q} (next : Coupled sim R p q) : Coupled sim R (.emit v p) (.emit v q)
  | draws (s : S.Site) (N : Nat)
      (e : (Fin N → S.Material (S.kind s)) ≃ (Fin N → S.Material (S.kind s)))
      (similar : ∀ v i, sim s (v i) (e v i)) {k l}
      (next : ∀ v, Coupled sim R (k v) (l (e v))) :
      Coupled sim R (Program.drawAll s N k) (Program.drawAll s N l)

namespace Coupled
variable {sim : Similarity S} {R : α → β → Prop} {p : Program S α} {q : Program S β}

theorem imp {R' : α → β → Prop} (h : Coupled sim R p q) (weaker : ∀ a b, R a b → R' a b) :
    Coupled sim R' p q := by
  induction h with
  | ret related => exact .ret (weaker _ _ related)
  | throw e => exact .throw e
  | emit v _ ih => exact .emit v ih
  | draws s N e similar _ ih => exact .draws s N e similar ih

theorem bind {f : α → Program S γ} {g : β → Program S δ} {Q : γ → δ → Prop}
    (h : Coupled sim R p q) (next : ∀ a b, R a b → Coupled sim Q (f a) (g b)) :
    Coupled sim Q (p >>= f) (q >>= g) := by
  induction h with
  | ret related => exact next _ _ related
  | throw e => exact .throw e
  | emit v _ ih => exact .emit v ih
  | draws s N e similar _ ih =>
      rw [Program.drawAll_bind, Program.drawAll_bind]
      exact .draws s N e similar ih

theorem draw (s : S.Site) (e : S.Material (S.kind s) ≃ S.Material (S.kind s))
    (similar : ∀ m, sim s m (e m)) {k : S.Material (S.kind s) → Program S α}
    {k' : S.Material (S.kind s) → Program S β} (next : ∀ m, Coupled sim R (k m) (k' (e m))) :
    Coupled sim R (.draw s k) (.draw s k') := by
  refine draws s 1 (Equiv.arrowCongr (Equiv.refl _) e) (fun v i => similar (v i))
    (k := fun v => k (v 0)) (l := fun v => k' (v 0)) ?_
  exact fun v => next (v 0)

theorem emitAll {vs vs' : List S.Event} (same : vs = vs') (h : Coupled sim R p q) :
    Coupled sim R (.emitAll vs p) (.emitAll vs' q) := by
  subst same
  induction vs with
  | nil => exact h
  | cons v vs ih => exact .emit v ih

theorem mapM {f : γ → Program S α} {g : γ → Program S β} (xs : List γ)
    (h : ∀ x ∈ xs, Coupled sim R (f x) (g x)) :
    Coupled sim (fun as bs => as.length = xs.length ∧ List.Forall₂ R as bs) (xs.mapM f)
      (xs.mapM g) := by
  induction xs with
  | nil => exact .ret ⟨rfl, .nil⟩
  | cons x xs ih =>
      rw [List.mapM_cons, List.mapM_cons]
      refine (h x (by simp)).bind fun a b related => ?_
      refine (ih fun y hy => h y (by simp [hy])).bind ?_
      rintro as bs ⟨length, rest⟩
      exact .ret ⟨congrArg (· + 1) length, .cons related rest⟩

theorem forRange {body : Nat → α → Program S α} {body' : Nat → β → Program S β}
    (I : Nat → α → β → Prop) (lo len : Nat) (s : α) (s' : β) (start : I lo s s')
    (step : ∀ i s s', lo ≤ i → i < lo + len → I i s s' →
      Coupled sim (I (i + 1)) (body i s) (body' i s')) :
    Coupled sim (I (lo + len)) (Program.forRange body lo len s)
      (Program.forRange body' lo len s') := by
  induction len generalizing lo s s' with
  | zero => exact .ret start
  | succ len ih =>
      refine (step lo s s' (Nat.le_refl lo) (by omega) start).bind fun a b related => ?_
      have := ih (lo + 1) a b related fun i a b lower upper => step i a b (by omega) (by omega)
      rwa [show lo + 1 + len = lo + (len + 1) by omega] at this

theorem and_meets {P : α → Prop} {P' : β → Prop} {E : S.Error → Prop}
    (h : Coupled sim R p q) (left : p.Meets (fun _ => True) P E)
    (right : q.Meets (fun _ => True) P' E) :
    Coupled sim (fun a b => R a b ∧ P a ∧ P' b) p q := by
  induction h with
  | ret related => exact .ret ⟨related, left, right⟩
  | throw e => exact .throw e
  | emit v _ ih => exact .emit v (ih left right)
  | draws s N e similar _ ih =>
      rw [Program.meets_drawAll] at left right
      exact .draws s N e similar fun v =>
        ih v (left v fun _ => trivial) (right (e v) fun _ => trivial)

end Coupled

namespace Tape
variable [DecidableEq S.Kind]

def take (κ : S.Kind) (N : Nat) (t : Tape S) : Fin N → S.Material κ := fun i => t κ i

def drop (κ : S.Kind) (N : Nat) (t : Tape S) : Tape S :=
  Function.update t κ fun i => t κ (i + N)

def put (κ : S.Kind) (N : Nat) (v : Fin N → S.Material κ) (t : Tape S) : Tape S :=
  Function.update t κ fun i => if h : i < N then v ⟨i, h⟩ else t κ (i - N)

def split (κ : S.Kind) (N : Nat) : Tape S ≃ (Fin N → S.Material κ) × Tape S where
  toFun t := (t.take κ N, t.drop κ N)
  invFun p := put κ N p.1 p.2
  left_inv t := by
    funext κ' i
    by_cases same : κ' = κ
    · subst same
      by_cases h : i < N
      · simp [put, take, h]
      · simp [put, drop, h, Nat.sub_add_cancel (Nat.le_of_not_lt h)]
    · simp [put, drop, same]
  right_inv p := by
    obtain ⟨v, t⟩ := p
    refine Prod.ext (funext fun i => ?_) (funext fun κ' => ?_)
    · simp [take, put]
    · by_cases same : κ' = κ
      · subst same
        funext i
        simp [drop, put]
      · simp [drop, put, same]

theorem put_same (κ : S.Kind) (N : Nat) (v : Fin N → S.Material κ) {t t' : Tape S}
    (same : t κ = t' κ) : put κ N v t κ = put κ N v t' κ := by
  simp only [put, Function.update_self, same]

theorem put_other {κ κ' : S.Kind} (other : κ' ≠ κ) (N : Nat) (v : Fin N → S.Material κ)
    (t : Tape S) : put κ N v t κ' = t κ' := by
  simp [put, other]

theorem put_take_drop (κ : S.Kind) (N : Nat) (t : Tape S) :
    put κ N (t.take κ N) (t.drop κ N) = t :=
  (split κ N).symm_apply_apply t

theorem drop_zero (κ : S.Kind) (t : Tape S) : t.drop κ 0 = t := by
  simp [drop]

theorem drop_pop (κ : S.Kind) (N : Nat) (t : Tape S) : (t.pop κ).drop κ N = t.drop κ (N + 1) := by
  simp [drop, pop, Nat.add_assoc]

theorem take_succ (κ : S.Kind) (N : Nat) (t : Tape S) :
    t.take κ (N + 1) = Fin.cons (t κ 0) ((t.pop κ).take κ N) := by
  funext i
  refine Fin.cases rfl (fun i => ?_) i
  simp [take, pop]

end Tape

def Run.drewAll (s : S.Site) (N : Nat) (v : Fin N → S.Material (S.kind s)) (r : Run S α) : Run S α :=
  { r with used := (List.ofFn fun i => ⟨s, v i⟩) ++ r.used }

theorem Program.run_drawAll [DecidableEq S.Kind] (s : S.Site) (N : Nat)
    (k : (Fin N → S.Material (S.kind s)) → Program S α) (t : Tape S) :
    (drawAll s N k).run t =
      ((k (t.take _ N)).run (t.drop (S.kind s) N)).drewAll s N (t.take _ N) := by
  induction N generalizing t with
  | zero =>
      rw [drawAll, Tape.drop_zero]
      simp only [Run.drewAll, List.ofFn_zero, List.nil_append]
      congr 2
      exact Subsingleton.elim _ _
  | succ N ih =>
      rw [drawAll, run, ih, Tape.drop_pop, Tape.take_succ]
      simp [Run.drewAll, Run.drew, List.ofFn_succ]

theorem Program.drawn_drawAll [DecidableEq S.Kind] (s : S.Site) (N : Nat)
    (k : (Fin N → S.Material (S.kind s)) → Program S α) (t : Tape S) :
    ((drawAll s N k).run t).result = ((k (t.take _ N)).run (t.drop (S.kind s) N)).result ∧
      ((drawAll s N k).run t).drawn (S.kind s) =
        N + ((k (t.take _ N)).run (t.drop (S.kind s) N)).drawn (S.kind s) := by
  have all : (List.ofFn fun i => (⟨s, t.take (S.kind s) N i⟩ : Draw S)).countP
      (S.kind ·.site = S.kind s) = N := by
    rw [List.countP_eq_length.2, List.length_ofFn]
    intro d hd
    obtain ⟨i, rfl⟩ := List.mem_ofFn.1 hd
    exact decide_eq_true rfl
  rw [run_drawAll, Run.drawn, Run.drewAll, List.countP_append, all]
  exact ⟨rfl, rfl⟩

theorem Program.Extends.drawAll [DecidableEq S.Kind] {s : S.Site} {N : Nat}
    {k k' : (Fin N → S.Material (S.kind s)) → Program S α} (h : ∀ v, Extends (k v) (k' v)) :
    Extends (Program.drawAll s N k) (Program.drawAll s N k') := by
  intro t a returned
  rw [run_drawAll] at returned ⊢
  rw [run_drawAll, h _ _ a returned]

theorem forall₂_ofFn {τ υ : Type} {P : τ → υ → Prop} {N : Nat} {f : Fin N → τ} {g : Fin N → υ}
    (h : ∀ i, P (f i) (g i)) : List.Forall₂ P (List.ofFn f) (List.ofFn g) := by
  induction N with
  | zero => simp
  | succ N ih =>
      rw [List.ofFn_succ, List.ofFn_succ]
      exact .cons (h 0) (ih fun i => h i.succ)

def SameResult (R : α → β → Prop) : Except S.Error α → Except S.Error β → Prop
  | .ok a, .ok b => R a b
  | .error e, .error e' => e = e'
  | _, _ => False

inductive SameDraw (sim : Similarity S) : Draw S → Draw S → Prop
  | intro {s m m'} (similar : sim s m m') : SameDraw sim ⟨s, m⟩ ⟨s, m'⟩

theorem SameResult.eq : {r r' : Except S.Error α} → SameResult Eq r r' → r = r'
  | .ok _, .ok _, h => congrArg Except.ok h
  | .error _, .error _, h => congrArg Except.error h

theorem SameResult.ok_iff {R : α → β → Prop} : {r : Except S.Error α} → {r' : Except S.Error β} →
    SameResult R r r' → ((∃ b, r' = .ok b) ↔ ∃ a, r = .ok a)
  | .ok a, .ok b, _ => ⟨fun _ => ⟨a, rfl⟩, fun _ => ⟨b, rfl⟩⟩
  | .error _, .error _, _ => ⟨nofun, nofun⟩

theorem SameDraw.similar {sim : Similarity S} {d d' : Draw S} (same : SameDraw sim d d') :
    ∃ m, sim d.site d.material m := by
  obtain ⟨similar⟩ := same
  exact ⟨_, similar⟩

/-- Two runs that nobody who sees the events can tell apart. -/
structure Matched (sim : Similarity S) (R : α → β → Prop) (r : Run S α) (r' : Run S β) : Prop where
  events : r'.events = r.events
  used : List.Forall₂ (SameDraw sim) r.used r'.used
  result : SameResult R r.result r'.result
  rest : r'.rest = r.rest

theorem Matched.forall_used {sim : Similarity S} {R : α → β → Prop} {r : Run S α} {r' : Run S β}
    (h : Matched sim R r r') {P : Draw S → Prop}
    (carried : ∀ d d', SameDraw sim d d' → (P d ↔ P d')) :
    (∀ d ∈ r.used, P d) ↔ ∀ d ∈ r'.used, P d := by
  have same := h.used
  generalize r.used = ds at same
  generalize r'.used = ds' at same
  induction same with
  | nil => simp
  | cons head _ ih =>
      rw [List.forall_mem_cons, List.forall_mem_cons]
      exact and_congr (carried _ _ head) ih

theorem Matched.drawn [DecidableEq S.Kind] {sim : Similarity S} {R : α → β → Prop} {r : Run S α}
    {r' : Run S β} (h : Matched sim R r r') (κ : S.Kind) : r'.drawn κ = r.drawn κ := by
  have same := h.used
  rw [Run.drawn, Run.drawn]
  generalize r.used = ds at same
  generalize r'.used = ds' at same
  induction same with
  | nil => rfl
  | cons head _ ih =>
      cases head
      rw [List.countP_cons, List.countP_cons, ih]

namespace Coupled
variable [DecidableEq S.Kind] {sim : Similarity S} {R : α → β → Prop} {p : Program S α}
  {q : Program S β}

def Keeps (sim : Similarity S) (e : Tape S → Tape S) : Prop :=
  ∀ κ, (∀ s, S.kind s = κ → ∀ m m', sim s m m' → m = m') → ∀ t, e t κ = t κ

theorem exists_equiv (h : Coupled sim R p q) :
    ∃ e : Tape S ≃ Tape S, Keeps sim e ∧ ∀ t, Matched sim R (p.run t) (q.run (e t)) := by
  induction h with
  | ret related => exact ⟨Equiv.refl _, fun _ _ _ => rfl, fun t => ⟨rfl, .nil, related, rfl⟩⟩
  | throw e => exact ⟨Equiv.refl _, fun _ _ _ => rfl, fun t => ⟨rfl, .nil, rfl, rfl⟩⟩
  | emit v _ ih =>
      obtain ⟨e, keeps, matched⟩ := ih
      exact ⟨e, keeps, fun t => ⟨congrArg (v :: ·) (matched t).events, (matched t).used,
        (matched t).result, (matched t).rest⟩⟩
  | @draws s N e similar k k' next ih =>
      choose E keeps matched using ih
      let whole : Tape S ≃ Tape S :=
        ((Tape.split (S.kind s) N).trans (Equiv.prodShear e E)).trans (Tape.split (S.kind s) N).symm
      have take_whole (t : Tape S) : (whole t).take _ N = e (t.take _ N) := by
        have := congrArg Prod.fst ((Tape.split (S.kind s) N).apply_symm_apply
          (Equiv.prodShear e E (Tape.split _ N t)))
        exact this
      have drop_whole (t : Tape S) : (whole t).drop (S.kind s) N =
          E (t.take _ N) (t.drop (S.kind s) N) := by
        have := congrArg Prod.snd ((Tape.split (S.kind s) N).apply_symm_apply
          (Equiv.prodShear e E (Tape.split _ N t)))
        exact this
      refine ⟨whole, ?_, fun t => ?_⟩
      · intro κ only t
        have tail : E (t.take _ N) (t.drop (S.kind s) N) κ = t.drop (S.kind s) N κ :=
          keeps _ κ only _
        change Tape.put (S.kind s) N (e (t.take _ N)) (E (t.take _ N) (t.drop _ N)) κ = t κ
        by_cases same : κ = S.kind s
        · subst same
          have head : e (t.take _ N) = t.take _ N :=
            funext fun i => (only s rfl _ _ (similar _ i)).symm
          rw [head, Tape.put_same _ _ _ tail, Tape.put_take_drop]
        · rw [Tape.put_other same, tail]
          simp [Tape.drop, same]
      · have inner := matched (t.take _ N) (t.drop (S.kind s) N)
        rw [Program.run_drawAll, Program.run_drawAll, take_whole, drop_whole]
        refine ⟨inner.events, ?_, inner.result, inner.rest⟩
        refine List.rel_append ?_ inner.used
        exact forall₂_ofFn fun i => .intro (similar _ i)

theorem similar_of_used (h : Coupled sim R p q) (t : Tape S) {d : Draw S}
    (drawn : d ∈ (p.run t).used) : ∃ m, sim d.site d.material m := by
  obtain ⟨e, _, matched⟩ := h.exists_equiv
  obtain ⟨i, bound, rfl⟩ := List.getElem_of_mem drawn
  have same := (List.forall₂_iff_get.1 (matched t).used).2 i bound
    ((matched t).used.length_eq ▸ bound)
  exact same.similar

end Coupled

theorem exists_glued {X ι : Type} {C : ι → X → Prop} (covered : ∀ x, ∃ i, C i x)
    (disjoint : ∀ i j x, C i x → C j x → i = j) (e : ι → X ≃ X)
    (kept : ∀ i x, C i (e i x) ↔ C i x) : ∃ E : X ≃ X, ∀ i x, C i x → E x = e i x := by
  choose c hc using covered
  have left (x : X) : (e (c (e (c x) x))).symm (e (c x) x) = x := by
    have same : c (e (c x) x) = c x := disjoint _ _ _ (hc _) ((kept _ _).2 (hc x))
    rw [same, Equiv.symm_apply_apply]
  have right (y : X) : e (c ((e (c y)).symm y)) ((e (c y)).symm y) = y := by
    have inside : C (c y) ((e (c y)).symm y) := by
      rw [← kept, Equiv.apply_symm_apply]
      exact hc y
    have same : c ((e (c y)).symm y) = c y := disjoint _ _ _ (hc _) inside
    rw [same, Equiv.apply_symm_apply]
  refine ⟨⟨fun x => e (c x) x, fun y => (e (c y)).symm y, left, right⟩, fun i x inside => ?_⟩
  obtain rfl := disjoint _ _ _ (hc x) inside
  rfl

end ProofOfCustody.Effect
