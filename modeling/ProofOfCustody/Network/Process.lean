import Mathlib.Data.Fintype.Basic
import Mathlib.Data.List.Basic
import Mathlib.Data.List.Nodup
import Mathlib.Data.List.FinRange
import Mathlib.Tactic.Common

/-!
# Sequential processes over channels

A process returns, sends a message to a peer, or waits for the next message of a peer. `Runs` lists
the actions it takes; everything a process has sent and received can be read off that list.
-/

namespace ProofOfCustody.Network

variable {ι M α β γ : Type}

inductive Process (ι M α : Type) : Type
  | ret (a : α)
  | send (peer : ι) (m : M) (next : Process ι M α)
  | recv (peer : ι) (next : M → Process ι M α)

inductive Action (ι M : Type) : Type
  | send (peer : ι) (m : M)
  | recv (peer : ι) (m : M)
deriving DecidableEq

namespace Process

def bind : Process ι M α → (α → Process ι M β) → Process ι M β
  | ret a, f => f a
  | send j m next, f => send j m (next.bind f)
  | recv j next, f => recv j fun m => (next m).bind f

instance : Monad (Process ι M) where
  pure := ret
  bind := bind

@[simp] theorem pure_eq (a : α) : (pure a : Process ι M α) = ret a := rfl
@[simp] theorem ret_bind (a : α) (f : α → Process ι M β) : ret a >>= f = f a := rfl
@[simp] theorem send_bind (j : ι) (m : M) (next : Process ι M α) (f : α → Process ι M β) :
    send j m next >>= f = send j m (next >>= f) := rfl
@[simp] theorem recv_bind (j : ι) (next : M → Process ι M α) (f : α → Process ι M β) :
    recv j next >>= f = recv j fun m => next m >>= f := rfl

theorem bind_ret (p : Process ι M α) : p >>= ret = p := by
  induction p with
  | ret a => rfl
  | send j m next ih => exact congrArg (send j m) ih
  | recv j next ih => exact congrArg (recv j) (funext ih)

theorem bind_assoc (p : Process ι M α) (f : α → Process ι M β) (g : β → Process ι M γ) :
    p >>= f >>= g = p >>= fun a => f a >>= g := by
  induction p with
  | ret a => rfl
  | send j m next ih => exact congrArg (send j m) ih
  | recv j next ih => exact congrArg (recv j) (funext ih)

instance : LawfulMonad (Process ι M) :=
  LawfulMonad.mk' (Process ι M) bind_ret (fun _ _ => rfl) bind_assoc

def sendTo (j : ι) (m : M) : Process ι M Unit := send j m (ret ())

def receive (j : ι) : Process ι M M := recv j ret

inductive Runs : Process ι M α → List (Action ι M) → Process ι M α → Prop
  | stop (p : Process ι M α) : Runs p [] p
  | send {j : ι} {m : M} {next q : Process ι M α} {L : List (Action ι M)} :
      Runs next L q → Runs (send j m next) (.send j m :: L) q
  | recv {j : ι} {m : M} {next : M → Process ι M α} {q : Process ι M α} {L : List (Action ι M)} :
      Runs (next m) L q → Runs (recv j next) (.recv j m :: L) q

@[simp] theorem runs_ret {a : α} {q : Process ι M α} {L : List (Action ι M)} :
    Runs (ret a) L q ↔ L = [] ∧ q = ret a := by
  constructor
  · intro run
    cases run with
    | stop => exact ⟨rfl, rfl⟩
  · rintro ⟨rfl, rfl⟩
    exact .stop _

theorem runs_send {j : ι} {m : M} {next : Process ι M α} {b : α} {L : List (Action ι M)} :
    Runs (send j m next) L (ret b) ↔ ∃ L', L = .send j m :: L' ∧ Runs next L' (ret b) := by
  constructor
  · intro run
    cases run with
    | send run => exact ⟨_, rfl, run⟩
  · rintro ⟨L', rfl, run⟩
    exact .send run

theorem runs_recv {j : ι} {next : M → Process ι M α} {b : α} {L : List (Action ι M)} :
    Runs (recv j next) L (ret b) ↔ ∃ m L', L = .recv j m :: L' ∧ Runs (next m) L' (ret b) := by
  constructor
  · intro run
    cases run with
    | recv run => exact ⟨_, _, rfl, run⟩
  · rintro ⟨m, L', rfl, run⟩
    exact .recv run

theorem Runs.append {p q r : Process ι M α} {L L' : List (Action ι M)} (first : Runs p L q)
    (second : Runs q L' r) : Runs p (L ++ L') r := by
  induction first with
  | stop p => exact second
  | send _ ih => exact .send (ih second)
  | recv _ ih => exact .recv (ih second)

theorem Runs.snoc_send {p next : Process ι M α} {j : ι} {m : M} {L : List (Action ι M)}
    (run : Runs p L (Process.send j m next)) : Runs p (L ++ [.send j m]) next :=
  run.append (.send (.stop next))

theorem Runs.snoc_recv {p : Process ι M α} {next : M → Process ι M α} {j : ι}
    {L : List (Action ι M)} (run : Runs p L (Process.recv j next)) (m : M) :
    Runs p (L ++ [.recv j m]) (next m) :=
  run.append (.recv (.stop (next m)))

theorem runs_bind {p : Process ι M α} {f : α → Process ι M β} {b : β} {L : List (Action ι M)} :
    Runs (p >>= f) L (ret b) ↔
      ∃ L₁ a L₂, L = L₁ ++ L₂ ∧ Runs p L₁ (ret a) ∧ Runs (f a) L₂ (ret b) := by
  constructor
  · intro run
    induction p generalizing L with
    | ret a => exact ⟨[], a, L, rfl, .stop _, run⟩
    | send j m next ih =>
        obtain ⟨L', rfl, rest⟩ := runs_send.1 run
        obtain ⟨L₁, a, L₂, rfl, first, second⟩ := ih rest
        exact ⟨.send j m :: L₁, a, L₂, rfl, .send first, second⟩
    | recv j next ih =>
        obtain ⟨m, L', rfl, rest⟩ := runs_recv.1 run
        obtain ⟨L₁, a, L₂, rfl, first, second⟩ := ih m rest
        exact ⟨.recv j m :: L₁, a, L₂, rfl, .recv first, second⟩
  · rintro ⟨L₁, a, L₂, rfl, first, second⟩
    induction p generalizing L₁ with
    | ret a' =>
        obtain ⟨rfl, same⟩ := runs_ret.1 first
        cases same
        exact second
    | send j m next ih =>
        obtain ⟨L', rfl, rest⟩ := runs_send.1 first
        exact .send (ih L' rest)
    | recv j next ih =>
        obtain ⟨m, L', rfl, rest⟩ := runs_recv.1 first
        exact .recv (ih m L' rest)

theorem runs_phase {X : Type} {p : Process ι M PUnit} {q : Process ι M β} {f : β → Process ι M γ}
    {S : List (Action ι M)} {R : X → List (Action ι M)} {g : X → β}
    (sends : ∀ u L, Runs p L (ret u) ↔ L = S)
    (takes : ∀ v L, Runs q L (ret v) ↔ ∃ x, L = R x ∧ v = g x) {c : γ} {L : List (Action ι M)} :
    Runs (p >>= fun _ => q >>= f) L (ret c) ↔
      ∃ x L', L = S ++ (R x ++ L') ∧ Runs (f (g x)) L' (ret c) := by
  constructor
  · intro run
    obtain ⟨_, u, _, rfl, first, rest⟩ := runs_bind.1 run
    obtain ⟨_, v, L', rfl, second, last⟩ := runs_bind.1 rest
    obtain rfl := (sends u _).1 first
    obtain ⟨x, rfl, rfl⟩ := (takes v _).1 second
    exact ⟨x, L', rfl, last⟩
  · rintro ⟨x, L', rfl, last⟩
    exact runs_bind.2 ⟨_, ⟨⟩, _, rfl, (sends _ _).2 rfl,
      runs_bind.2 ⟨_, _, _, rfl, (takes _ _).2 ⟨x, rfl, rfl⟩, last⟩⟩

@[simp] theorem runs_sendTo {j : ι} {m : M} {u : Unit} {L : List (Action ι M)} :
    Runs (sendTo j m) L (ret u) ↔ L = [.send j m] := by
  simp [sendTo, runs_send]

@[simp] theorem runs_receive {j : ι} {m : M} {L : List (Action ι M)} :
    Runs (receive j) L (ret m) ↔ L = [.recv j m] := by
  simp [receive, runs_recv]

theorem exists_runs_ret [Nonempty M] (p : Process ι M α) : ∃ L a, Runs p L (ret a) := by
  induction p with
  | ret a => exact ⟨[], a, .stop _⟩
  | send j m next ih =>
      obtain ⟨L, a, run⟩ := ih
      exact ⟨_, a, .send run⟩
  | recv j next ih =>
      obtain ⟨L, a, run⟩ := ih (Classical.arbitrary M)
      exact ⟨_, a, .recv run⟩

end Process

section Messages
variable [DecidableEq ι]

def sends (j : ι) (L : List (Action ι M)) : List M :=
  L.filterMap fun
    | .send i m => if i = j then some m else none
    | .recv _ _ => none

def recvs (j : ι) (L : List (Action ι M)) : List M :=
  L.filterMap fun
    | .send _ _ => none
    | .recv i m => if i = j then some m else none

variable (j : ι) (i : ι) (m : M) (L L' : List (Action ι M))

@[simp] theorem sends_nil : sends j ([] : List (Action ι M)) = [] := rfl
@[simp] theorem recvs_nil : recvs j ([] : List (Action ι M)) = [] := rfl

@[simp] theorem sends_append : sends j (L ++ L') = sends j L ++ sends j L' :=
  List.filterMap_append
@[simp] theorem recvs_append : recvs j (L ++ L') = recvs j L ++ recvs j L' :=
  List.filterMap_append

@[simp] theorem sends_cons_send :
    sends j (.send i m :: L) = if i = j then m :: sends j L else sends j L := by
  by_cases same : i = j <;> simp [sends, same]
@[simp] theorem sends_cons_recv : sends j (.recv i m :: L) = sends j L := by simp [sends]
@[simp] theorem recvs_cons_send : recvs j (.send i m :: L) = recvs j L := by simp [recvs]
@[simp] theorem recvs_cons_recv :
    recvs j (.recv i m :: L) = if i = j then m :: recvs j L else recvs j L := by
  by_cases same : i = j <;> simp [recvs, same]

def sendActions (js : List ι) (o : ι → List M) : List (Action ι M) :=
  js.flatMap fun j => (o j).map (.send j)

def recvActions (js : List ι) (x : ι → List M) : List (Action ι M) :=
  js.flatMap fun j => (x j).map (.recv j)

variable {j} in
theorem sends_map_send (ms : List M) :
    sends j (ms.map (Action.send i)) = if i = j then ms else [] := by
  induction ms with
  | nil => simp
  | cons m ms ih => by_cases same : i = j <;> simp_all

theorem recvs_map_recv (ms : List M) :
    recvs j (ms.map (Action.recv i)) = if i = j then ms else [] := by
  induction ms with
  | nil => simp
  | cons m ms ih => by_cases same : i = j <;> simp_all

@[simp] theorem recvs_sendActions (js : List ι) (o : ι → List M) :
    recvs j (sendActions js o) = [] := by
  simp only [recvs, List.filterMap_eq_nil_iff, sendActions, List.mem_flatMap, List.mem_map]
  rintro _ ⟨_, _, _, _, rfl⟩
  rfl

@[simp] theorem sends_recvActions (js : List ι) (x : ι → List M) :
    sends j (recvActions js x) = [] := by
  simp only [sends, List.filterMap_eq_nil_iff, recvActions, List.mem_flatMap, List.mem_map]
  rintro _ ⟨_, _, _, _, rfl⟩
  rfl

variable {j}

theorem sends_sendActions {js : List ι} (o : ι → List M) (distinct : js.Nodup) :
    sends j (sendActions js o) = if j ∈ js then o j else [] := by
  induction js with
  | nil => rfl
  | cons i js ih =>
      obtain ⟨fresh, distinct⟩ := List.nodup_cons.1 distinct
      rw [sendActions, List.flatMap_cons, sends_append, sends_map_send]
      change _ ++ sends j (sendActions js o) = _
      rw [ih distinct]
      by_cases same : i = j
      · subst same
        simp [fresh]
      · simp [same, Ne.symm same]

theorem recvs_recvActions {js : List ι} (x : ι → List M) (distinct : js.Nodup) :
    recvs j (recvActions js x) = if j ∈ js then x j else [] := by
  induction js with
  | nil => rfl
  | cons i js ih =>
      obtain ⟨fresh, distinct⟩ := List.nodup_cons.1 distinct
      rw [recvActions, List.flatMap_cons, recvs_append, recvs_map_recv]
      change _ ++ recvs j (recvActions js x) = _
      rw [ih distinct]
      by_cases same : i = j
      · subst same
        simp [fresh]
      · simp [same, Ne.symm same]

end Messages

namespace Process

theorem runs_forM {κ : Type} {p : κ → Process ι M PUnit} {S : κ → List (Action ι M)}
    (each : ∀ k L, Runs (p k) L (ret ⟨⟩) ↔ L = S k) (ks : List κ) (L : List (Action ι M)) :
    Runs (forM ks p) L (ret ⟨⟩) ↔ L = ks.flatMap S := by
  induction ks generalizing L with
  | nil => simp
  | cons k ks ih =>
      rw [List.forM_cons, runs_bind, List.flatMap_cons]
      constructor
      · rintro ⟨L₁, _, L₂, rfl, first, second⟩
        rw [(each k L₁).1 first, (ih L₂).1 second]
      · rintro rfl
        exact ⟨_, ⟨⟩, _, rfl, (each k _).2 rfl, (ih _).2 rfl⟩

theorem runs_forM_sendTo {κ : Type} (j : ι) (f : κ → M) (ks : List κ) (L : List (Action ι M)) :
    Runs (forM ks fun k => sendTo j (f k)) L (ret ⟨⟩) ↔ L = (ks.map f).map (.send j) := by
  rw [runs_forM (S := fun k => [.send j (f k)]) fun m L => runs_sendTo, ← List.map_eq_flatMap,
    List.map_map]
  rfl

theorem runs_mapM_receive {κ : Type} (j : ι) (f : M → β) (ks : List κ) (v : List β)
    (L : List (Action ι M)) :
    Runs (ks.mapM fun _ => receive j >>= fun m => ret (f m)) L (ret v) ↔
      ∃ ms : List M, ms.length = ks.length ∧ L = ms.map (.recv j) ∧ v = ms.map f := by
  induction ks generalizing v L with
  | nil =>
      simp only [List.mapM_nil, pure_eq, runs_ret, List.length_nil, List.length_eq_zero_iff]
      constructor
      · rintro ⟨rfl, same⟩
        cases same
        exact ⟨[], rfl, rfl, rfl⟩
      · rintro ⟨_, rfl, rfl, rfl⟩
        exact ⟨rfl, rfl⟩
  | cons k ks ih =>
      rw [List.mapM_cons, runs_bind]
      constructor
      · rintro ⟨L₁, b, _, rfl, first, rest⟩
        obtain ⟨_, m, _, rfl, taken, value⟩ := runs_bind.1 first
        obtain ⟨L₂, bs, _, rfl, second, last⟩ := runs_bind.1 rest
        obtain rfl := runs_receive.1 taken
        obtain ⟨rfl, same⟩ := runs_ret.1 value
        obtain ⟨rfl, whole⟩ := runs_ret.1 last
        cases same
        cases whole
        obtain ⟨ms, length, rfl, rfl⟩ := (ih _ _).1 second
        exact ⟨m :: ms, by simp [length], by simp, rfl⟩
      · rintro ⟨ms, length, rfl, rfl⟩
        obtain ⟨m, ms, rfl⟩ := List.exists_cons_of_length_eq_add_one length
        refine ⟨[.recv j m], f m, ms.map (.recv j), rfl, ?_, ?_⟩
        · exact runs_bind.2 ⟨_, m, [], rfl, runs_receive.2 rfl, .stop _⟩
        · refine runs_bind.2 ⟨_, ms.map f, [], (List.append_nil _).symm, (ih _ _).2 ?_, .stop _⟩
          exact ⟨ms, Nat.succ.inj length, rfl, rfl⟩

variable [DecidableEq ι]

theorem runs_forM_others {my : ι} {p : ι → Process ι M PUnit} {o : ι → List M}
    (each : ∀ j L, Runs (p j) L (ret ⟨⟩) ↔ L = (o j).map (.send j)) (js : List ι)
    (L : List (Action ι M)) :
    Runs (forM js fun j => if j ≠ my then p j else pure ⟨⟩) L (ret ⟨⟩) ↔
      L = sendActions (js.filter (· ≠ my)) o := by
  rw [runs_forM (S := fun j => if j ≠ my then (o j).map (.send j) else [])]
  · have same : (js.flatMap fun j => if j ≠ my then (o j).map (.send j) else []) =
        sendActions (js.filter (· ≠ my)) o := by
      induction js with
      | nil => rfl
      | cons j js ih =>
          rw [List.flatMap_cons, ih]
          by_cases own : j = my
          · rw [List.filter_cons_of_neg (by simp [own]), if_neg (by simp [own]), List.nil_append]
          · rw [List.filter_cons_of_pos (by simp [own]), if_pos own]
            rfl
    rw [same]
  · intro j L
    by_cases own : j = my
    · simp [own]
    · rw [if_pos own, if_pos own]
      exact each j L

/-- `for (j : js) if (j != my) os[j] = read(j);` -/
def readOthers (my : ι) (read : ι → Process ι M β) : List ι → (ι → β) → Process ι M (ι → β)
  | [], os => ret os
  | j :: js, os =>
    if j = my then readOthers my read js os
    else do
      let b ← read j
      readOthers my read js (Function.update os j b)

theorem runs_readOthers {X : Type} [Nonempty X] {e : X → List M} {f : X → β} {my : ι}
    {read : ι → Process ι M β}
    (each : ∀ j L b, Runs (read j) L (ret b) ↔ ∃ x, L = (e x).map (.recv j) ∧ b = f x)
    {js : List ι} (distinct : js.Nodup) (os v : ι → β) (L : List (Action ι M)) :
    Runs (readOthers my read js os) L (ret v) ↔ ∃ x : ι → X,
      L = recvActions (js.filter (· ≠ my)) (e ∘ x) ∧
      v = fun j => if j ∈ js ∧ j ≠ my then f (x j) else os j := by
  induction js generalizing os L with
  | nil =>
      obtain ⟨x⟩ := ‹Nonempty X›
      simp only [readOthers, runs_ret, recvActions, List.filter_nil, List.flatMap_nil,
        List.not_mem_nil, false_and, if_false]
      constructor
      · rintro ⟨rfl, same⟩
        cases same
        exact ⟨fun _ => x, rfl, rfl⟩
      · rintro ⟨_, rfl, rfl⟩
        exact ⟨rfl, rfl⟩
  | cons i js ih =>
      obtain ⟨fresh, distinct⟩ := List.nodup_cons.1 distinct
      by_cases own : i = my
      · subst own
        rw [readOthers, if_pos rfl, ih distinct, List.filter_cons_of_neg (by simp)]
        have skip (j : ι) : (j ∈ i :: js ∧ j ≠ i) ↔ (j ∈ js ∧ j ≠ i) := by
          constructor
          · rintro ⟨member, other⟩
            exact ⟨(List.mem_cons.1 member).resolve_left other, other⟩
          · rintro ⟨member, other⟩
            exact ⟨List.mem_cons_of_mem _ member, other⟩
        simp only [skip]
      · rw [readOthers, if_neg own, runs_bind, List.filter_cons_of_pos (by simp [own])]
        constructor
        · rintro ⟨_, _, _, rfl, first, second⟩
          obtain ⟨y, rfl, rfl⟩ := (each i _ _).1 first
          obtain ⟨x, rfl, rfl⟩ := (ih distinct _ _).1 second
          have unchanged {j : ι} (member : j ∈ js) : Function.update x i y j = x j := by
            apply Function.update_of_ne
            rintro rfl
            exact fresh member
          refine ⟨Function.update x i y, ?_, ?_⟩
          · rw [recvActions, recvActions, List.flatMap_cons, Function.comp_apply,
              Function.update_self]
            congr 1
            apply List.flatMap_congr
            intro j member
            rw [Function.comp_apply, Function.comp_apply, unchanged (List.mem_of_mem_filter member)]
          · funext j
            by_cases same : j = i
            · subst same
              simp [fresh, own]
            · simp [same]
        · rintro ⟨x, rfl, rfl⟩
          refine ⟨_, _, _, rfl, (each i _ _).2 ⟨x i, rfl, rfl⟩, (ih distinct _ _).2 ⟨x, rfl, ?_⟩⟩
          funext j
          by_cases same : j = i
          · subst same
            simp [fresh, own]
          · simp [same]

end Process

end ProofOfCustody.Network
