import ProofOfCustody.Effect.Coupling

/-!
# Failures that the events show

A program signals a set of events when it throws in exactly the runs that announce one of them.
-/

namespace ProofOfCustody.Effect.Program

variable {S : Signature} [DecidableEq S.Kind] {α β γ : Type} {mark : S.Event → Prop}

def Signals (mark : S.Event → Prop) (p : Program S α) : Prop :=
  ∀ t, (∃ v ∈ (p.run t).events, mark v) ↔ ∃ e, (p.run t).result = .error e

theorem signals_ret (a : α) : Signals mark (ret a) := by
  intro t
  constructor
  · rintro ⟨v, member, _⟩
    cases member
  · rintro ⟨e, failed⟩
    cases failed

theorem signals_draw {s : S.Site} {k : S.Material (S.kind s) → Program S α}
    (h : ∀ m, Signals mark (k m)) : Signals mark (draw s k) :=
  fun t => h _ (t.pop (S.kind s))

theorem signals_drawAll {s : S.Site} {N : Nat} {k : (Fin N → S.Material (S.kind s)) → Program S α}
    (h : ∀ v, Signals mark (k v)) : Signals mark (drawAll s N k) := by
  induction N with
  | zero => exact h _
  | succ N ih => exact signals_draw fun m => ih fun v => h _

theorem signals_emit {v : S.Event} (silent : ¬mark v) {p : Program S α} (h : Signals mark p) :
    Signals mark (emit v p) := by
  intro t
  rw [run, Run.announced_result, ← h t, Run.announced_events]
  simp only [List.mem_cons, exists_eq_or_imp, silent, false_or]

theorem signals_emitAll {vs : List S.Event} (silent : ∀ v ∈ vs, ¬mark v) {p : Program S α}
    (h : Signals mark p) : Signals mark (emitAll vs p) := by
  induction vs with
  | nil => exact h
  | cons v vs ih =>
      exact signals_emit (silent v (by simp)) (ih fun w hw => silent w (by simp [hw]))

theorem signals_check {v : S.Event} {c : Prop} [Decidable c] (exact : mark v ↔ c) (e : S.Error)
    (a : α) : Signals mark (emit v (if c then throw e else ret a)) := by
  intro t
  by_cases marked : c
  · rw [if_pos marked]
    exact ⟨fun _ => ⟨e, rfl⟩, fun _ => ⟨v, List.mem_singleton_self v, exact.2 marked⟩⟩
  · rw [if_neg marked]
    exact signals_emit (fun h => marked (exact.1 h)) (signals_ret a) t

theorem Signals.bind_meets {p : Program S α} {f : α → Program S β} {P : α → Prop}
    {E : S.Error → Prop} (h : Signals mark p) (meets : p.Meets (fun _ => True) P E)
    (next : ∀ a, P a → Signals mark (f a)) : Signals mark (p >>= f) := by
  intro t
  cases result : (p.run t).result with
  | error e =>
      rw [run_bind_of_error result, Run.failing_events, h t]
      exact ⟨fun _ => ⟨e, rfl⟩, fun _ => ⟨e, result⟩⟩
  | ok a =>
      have quiet : ¬∃ v ∈ (p.run t).events, mark v := by
        rw [h t, result]
        rintro ⟨e, failed⟩
        cases failed
      rw [run_bind_of_ok result, Run.followedBy_events]
      refine Iff.trans ?_ (next a (meets.returned (fun _ _ => trivial) result) (p.run t).rest)
      constructor
      · rintro ⟨v, member, marked⟩
        rcases List.mem_append.1 member with first | second
        · exact absurd ⟨v, first, marked⟩ quiet
        · exact ⟨v, second, marked⟩
      · rintro ⟨v, member, marked⟩
        exact ⟨v, List.mem_append_right _ member, marked⟩

theorem Signals.bind {p : Program S α} {f : α → Program S β} (h : Signals mark p)
    (next : ∀ a, Signals mark (f a)) : Signals mark (p >>= f) :=
  h.bind_meets (meets_true p) fun a _ => next a

theorem signals_mapM {f : γ → Program S α} (xs : List γ) (h : ∀ x, Signals mark (f x)) :
    Signals mark (xs.mapM f) := by
  induction xs with
  | nil => exact signals_ret _
  | cons x xs ih =>
      rw [List.mapM_cons]
      exact (h x).bind fun a => ih.bind fun as => signals_ret _

end ProofOfCustody.Effect.Program
