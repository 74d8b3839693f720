import Mathlib
import ProofOfCustody.Binary.Counter

/-!
# Loops of `OnlineOp` that count with an `int`

The bounds are unsigned, so the counter may wrap before it comes to them. The result is `none` where
a loop reads or writes outside a vector, which C++ leaves undefined.
-/

namespace ProofOfCustody.OnlineOp
open Binary

variable {α β γ σ τ : Type}

def entry (xs : List α) (i : Int) : Option α := if i < 0 then none else xs[i.toNat]?

/-- The two halves that `KXOR` and `KOR` push back in `m` rounds. -/
def splitPairs (a : List α) (m : Nat) : Option (List α × List α) := do
  let half_c ← (List.range m).mapM fun i => entry a (toInt32 (2 * i : Nat))
  let half_a ← (List.range m).mapM fun i => entry a (toInt32 (2 * i + 1 : Nat))
  return (half_c, half_a)

/-- The entries of `d` less the next ones, and the last entry. -/
def differences (sub : α → α → α) (d : List α) (k : Nat) : Option (List α) := do
  let e ← (List.range (k - 1)).mapM fun (i : Nat) => do
    let di ← entry d (toInt32 i)
    let next ← entry d (toInt32 (i + 1 : Nat))
    return sub di next
  let last ← entry d (k - 1 : Nat)
  return e ++ [last]

def sumEntries (add : α → α → α) (tmp : List α) (k : Nat) : Option α := do
  let bit ← entry tmp 0
  (List.range' 1 (k - 1)).foldlM (fun bit (i : Nat) => do
    let ti ← entry tmp (toInt32 i)
    return add bit ti) bit

/-- The loop of both overloads of `B2A`, where `scale b i` is the bit times the power `i` of two. -/
def sumPowers (scale : α → Nat → α) (add : α → α → α) (bits : List α) (k : Nat) : Option α := do
  let c ← entry bits 0
  (List.range' 1 (k - 1)).foldlM (fun c (i : Nat) => do
    let bi ← entry bits (toInt32 i)
    return add c (scale bi i)) c

/-- The loop of both overloads of `decompose`. -/
def shiftBits (bit : β → α) (shift : β → β) (x : β) (k : Nat) : Option (List α) :=
  if k = 0 then none
  else do
    let (bits, _) ← (List.range' 1 (k - 1)).foldlM (fun (bits, tmp) (i : Nat) =>
      if toInt32 i < 0 then none else some (bits ++ [bit (shift tmp)], shift tmp)) ([bit x], x)
    return bits

theorem entry_eq {xs : List α} {i : Nat} (inside : i < xs.length) : entry xs i = some xs[i] := by
  rw [entry, if_neg (by omega), Int.toNat_natCast, List.getElem?_eq_getElem inside]

theorem entry_toInt32 {xs : List α} {i : Nat} (small : i < 2 ^ 31) (inside : i < xs.length) :
    entry xs (toInt32 i) = some xs[i] := by
  rw [toInt32_natCast small, entry_eq inside]

theorem entry_wrapped (xs : List α) : entry xs (toInt32 (2 ^ 31 : Nat)) = none :=
  if_pos (toInt32_negative le_rfl (by norm_num))

theorem entry_map (f : α → β) (xs : List α) (i : Int) :
    entry (xs.map f) i = (entry xs i).map f := by
  rw [entry, entry]
  split
  · rfl
  · exact List.getElem?_map

theorem mem_of_entry {xs : List α} {i : Int} {x : α} (h : entry xs i = some x) : x ∈ xs := by
  rw [entry] at h
  split at h
  · cases h
  · exact List.mem_of_getElem? h

theorem mapM_eq_some_map {g : γ → Option α} {f : γ → α} {l : List γ}
    (defined : ∀ x ∈ l, g x = some (f x)) : l.mapM g = some (l.map f) := by
  induction l with
  | nil => rfl
  | cons x l ih =>
      rw [List.mapM_cons, defined x (by simp), ih fun y mem => defined y (by simp [mem])]
      rfl

theorem mapM_eq_none {g : γ → Option α} {l : List γ} {x : γ} (mem : x ∈ l) (undefined : g x = none) :
    l.mapM g = none := by
  induction l with
  | nil => cases mem
  | cons y l ih =>
      rw [List.mapM_cons]
      rcases List.mem_cons.1 mem with rfl | mem
      · rw [undefined]
        rfl
      · rw [ih mem]
        cases g y <;> rfl

theorem mapM_image {f : α → β} {g : γ → Option α} {g' : γ → Option β}
    (same : ∀ x, g' x = (g x).map f) (l : List γ) : l.mapM g' = (l.mapM g).map (List.map f) := by
  induction l with
  | nil => rfl
  | cons x l ih =>
      rw [List.mapM_cons, List.mapM_cons, same, ih]
      cases g x with
      | none => rfl
      | some a => cases l.mapM g <;> rfl

theorem of_mem_mapM {g : γ → Option α} {l : List γ} {ys : List α} (h : l.mapM g = some ys) :
    ∀ y ∈ ys, ∃ x, g x = some y := by
  induction l generalizing ys with
  | nil =>
      cases Option.some.inj h
      exact fun y mem => absurd mem List.not_mem_nil
  | cons x l ih =>
      rw [List.mapM_cons] at h
      obtain ⟨a, first, h⟩ := Option.bind_eq_some_iff.1 h
      obtain ⟨rest, others, h⟩ := Option.bind_eq_some_iff.1 h
      cases Option.some.inj h
      intro y mem
      rcases List.mem_cons.1 mem with rfl | mem
      · exact ⟨x, first⟩
      · exact ih others y mem

theorem foldlM_eq_some_foldl {g : σ → γ → Option σ} {f : σ → γ → σ} {l : List γ}
    (defined : ∀ x ∈ l, ∀ s, g s x = some (f s x)) (s : σ) : l.foldlM g s = some (l.foldl f s) := by
  induction l generalizing s with
  | nil => rfl
  | cons x l ih =>
      rw [List.foldlM_cons, defined x (by simp)]
      exact ih (fun y mem => defined y (by simp [mem])) _

theorem foldlM_eq_none {g : σ → γ → Option σ} {l : List γ} {x : γ} (mem : x ∈ l)
    (undefined : ∀ s, g s x = none) (s : σ) : l.foldlM g s = none := by
  induction l generalizing s with
  | nil => cases mem
  | cons y l ih =>
      rw [List.foldlM_cons]
      rcases List.mem_cons.1 mem with rfl | mem
      · rw [undefined]
        rfl
      · cases g s y with
        | none => rfl
        | some s' => exact ih mem s'

theorem foldlM_image {f : σ → τ} {g : σ → γ → Option σ} {g' : τ → γ → Option τ}
    (same : ∀ s x, g' (f s) x = (g s x).map f) (l : List γ) (s : σ) :
    l.foldlM g' (f s) = (l.foldlM g s).map f := by
  induction l generalizing s with
  | nil => rfl
  | cons x l ih =>
      rw [List.foldlM_cons, List.foldlM_cons, same]
      cases g s x with
      | none => rfl
      | some s' => exact ih s'

theorem foldlM_keeps {P : σ → Prop} {g : σ → γ → Option σ}
    (step : ∀ s x s', P s → g s x = some s' → P s') {l : List γ} {s s' : σ} (start : P s)
    (h : l.foldlM g s = some s') : P s' := by
  induction l generalizing s with
  | nil => exact Option.some.inj h ▸ start
  | cons x l ih =>
      rw [List.foldlM_cons] at h
      obtain ⟨_, first, rest⟩ := Option.bind_eq_some_iff.1 h
      exact ih (step _ _ _ start first) rest

theorem splitPairs_eq {a : List α} {m : Nat} (small : m ≤ 2 ^ 30) (inside : 2 * m ≤ a.length)
    (z : α) :
    splitPairs a m = some ((List.range m).map fun i => a.getD (2 * i) z,
      (List.range m).map fun i => a.getD (2 * i + 1) z) := by
  have half (index : Nat → Nat) (bound : ∀ i < m, index i < 2 * m) :
      (List.range m).mapM (fun i => entry a (toInt32 (index i))) =
        some ((List.range m).map fun i => a.getD (index i) z) := by
    refine mapM_eq_some_map fun i mem => ?_
    have := bound i (List.mem_range.1 mem)
    rw [entry_toInt32 (by omega) (by omega), List.getD_eq_getElem _ _ (by omega)]
  rw [splitPairs, half (2 * ·) fun i => by omega, half (2 * · + 1) fun i => by omega]
  rfl

theorem splitPairs_none {a : List α} {m : Nat} (large : 2 ^ 30 < m) : splitPairs a m = none := by
  have first : (List.range m).mapM (fun i => entry a (toInt32 (2 * i : Nat))) = none :=
    mapM_eq_none (List.mem_range.2 large) (entry_wrapped a)
  rw [splitPairs, first]
  rfl

theorem splitPairs_map (f : α → β) (a : List α) (m : Nat) :
    splitPairs (a.map f) m = (splitPairs a m).map (Prod.map (List.map f) (List.map f)) := by
  rw [splitPairs, splitPairs, mapM_image (fun _ => entry_map f a _),
    mapM_image (fun _ => entry_map f a _)]
  cases (List.range m).mapM (fun i => entry a (toInt32 (2 * i : Nat))) with
  | none => rfl
  | some half_c => cases (List.range m).mapM (fun i => entry a (toInt32 (2 * i + 1 : Nat))) <;> rfl

theorem mem_of_splitPairs {a : List α} {m : Nat} {half : List α × List α}
    (h : splitPairs a m = some half) : (∀ x ∈ half.1, x ∈ a) ∧ ∀ x ∈ half.2, x ∈ a := by
  obtain ⟨half_c, first, h⟩ := Option.bind_eq_some_iff.1 h
  obtain ⟨half_a, second, h⟩ := Option.bind_eq_some_iff.1 h
  cases Option.some.inj h
  refine ⟨fun x mem => ?_, fun x mem => ?_⟩
  · exact mem_of_entry (of_mem_mapM first x mem).choose_spec
  · exact mem_of_entry (of_mem_mapM second x mem).choose_spec

theorem differences_eq (sub : α → α → α) {d : List α} {k : Nat} (positive : 0 < k)
    (small : k ≤ 2 ^ 31) (length : d.length = k) (z : α) :
    differences sub d k =
      some ((List.range (k - 1)).map (fun i => sub (d.getD i z) (d.getD (i + 1) z)) ++
        [d.getD (k - 1) z]) := by
  rw [differences, mapM_eq_some_map (f := fun i => sub (d.getD i z) (d.getD (i + 1) z)) fun i mem => ?_,
    entry_eq (show k - 1 < d.length by omega), List.getD_eq_getElem _ _ (by omega)]
  · rfl
  · have := List.mem_range.1 mem
    rw [entry_toInt32 (by omega) (by omega), entry_toInt32 (by omega) (by omega),
      List.getD_eq_getElem _ _ (by omega), List.getD_eq_getElem _ _ (by omega)]
    rfl

theorem differences_none (sub : α → α → α) (d : List α) {k : Nat} (large : 2 ^ 31 < k) :
    differences sub d k = none := by
  rw [differences, mapM_eq_none (List.mem_range.2 (show 2 ^ 31 - 1 < k - 1 by omega))]
  · rfl
  · rw [show 2 ^ 31 - 1 + 1 = 2 ^ 31 by norm_num, entry_wrapped]
    cases entry d (toInt32 (2 ^ 31 - 1 : Nat)) <;> rfl

theorem differences_map {f : α → β} {sub : α → α → α} {sub' : β → β → β}
    (same : ∀ x y, sub' (f x) (f y) = f (sub x y)) (d : List α) (k : Nat) :
    differences sub' (d.map f) k = (differences sub d k).map (List.map f) := by
  have inner (i : Nat) : (do
      let di ← entry (d.map f) (toInt32 i)
      let next ← entry (d.map f) (toInt32 (i + 1 : Nat))
      return sub' di next) = (do
      let di ← entry d (toInt32 i)
      let next ← entry d (toInt32 (i + 1 : Nat))
      return sub di next : Option α).map f := by
    rw [entry_map, entry_map]
    cases entry d (toInt32 i) with
    | none => rfl
    | some x =>
        cases entry d (toInt32 (i + 1 : Nat)) with
        | none => rfl
        | some y => exact congrArg some (same x y)
  rw [differences, differences, mapM_image inner, entry_map]
  generalize List.mapM (m := Option) _ (List.range (k - 1)) = e
  cases e with
  | none => rfl
  | some e =>
      cases entry d (k - 1 : Nat) with
      | none => rfl
      | some last => exact congrArg some (by simp)

theorem differences_keeps {P : α → Prop} {sub : α → α → α} (closed : ∀ x y, P x → P y → P (sub x y))
    {d e : List α} {k : Nat} (all : ∀ x ∈ d, P x) (h : differences sub d k = some e) :
    ∀ x ∈ e, P x := by
  obtain ⟨inner, first, h⟩ := Option.bind_eq_some_iff.1 h
  obtain ⟨last, final, h⟩ := Option.bind_eq_some_iff.1 h
  cases Option.some.inj h
  intro x mem
  rcases List.mem_append.1 mem with mem | mem
  · obtain ⟨i, hx⟩ := of_mem_mapM first x mem
    obtain ⟨di, hi, hx⟩ := Option.bind_eq_some_iff.1 hx
    obtain ⟨next, hnext, hx⟩ := Option.bind_eq_some_iff.1 hx
    cases Option.some.inj hx
    exact closed _ _ (all _ (mem_of_entry hi)) (all _ (mem_of_entry hnext))
  · rw [List.mem_singleton.1 mem]
    exact all _ (mem_of_entry final)

theorem sumPowers_eq (scale : α → Nat → α) (add : α → α → α) {bits : List α} {k : Nat}
    (positive : 0 < k) (small : k ≤ 2 ^ 31) (length : bits.length = k) (z : α) :
    sumPowers scale add bits k =
      some ((List.range' 1 (k - 1)).foldl (fun c i => add c (scale (bits.getD i z) i))
        (bits.getD 0 z)) := by
  have first : entry bits 0 = some (bits.getD 0 z) := by
    rw [List.getD_eq_getElem _ _ (by omega)]
    exact entry_eq (i := 0) (by omega)
  rw [sumPowers, first]
  refine foldlM_eq_some_foldl (fun i mem c => ?_) _
  have := List.mem_range'_1.1 mem
  rw [entry_toInt32 (by omega) (by omega), List.getD_eq_getElem _ _ (by omega)]
  rfl

theorem sumPowers_none (scale : α → Nat → α) (add : α → α → α) (bits : List α) {k : Nat}
    (large : 2 ^ 31 < k) : sumPowers scale add bits k = none := by
  rw [sumPowers]
  cases entry bits 0 with
  | none => rfl
  | some c =>
      refine foldlM_eq_none (x := 2 ^ 31) (List.mem_range'_1.2 (by omega)) (fun c => ?_) c
      rw [entry_wrapped]
      rfl

theorem sumPowers_map {f : α → β} {scale : α → Nat → α} {scale' : β → Nat → β} {add : α → α → α}
    {add' : β → β → β} (scaled : ∀ x i, scale' (f x) i = f (scale x i))
    (same : ∀ x y, add' (f x) (f y) = f (add x y)) (bits : List α) (k : Nat) :
    sumPowers scale' add' (bits.map f) k = (sumPowers scale add bits k).map f := by
  rw [sumPowers, sumPowers, entry_map]
  cases entry bits 0 with
  | none => rfl
  | some c =>
      refine foldlM_image (fun s i => ?_) _ c
      rw [entry_map]
      cases entry bits (toInt32 i) with
      | none => rfl
      | some bi => exact congrArg some ((congrArg _ (scaled bi i)).trans (same s _))

theorem sumPowers_keeps {P : α → Prop} {scale : α → Nat → α} {add : α → α → α}
    (scaled : ∀ x i, P x → P (scale x i)) (closed : ∀ x y, P x → P y → P (add x y))
    {bits : List α} {k : Nat} {s : α} (all : ∀ x ∈ bits, P x)
    (h : sumPowers scale add bits k = some s) : P s := by
  obtain ⟨c, first, h⟩ := Option.bind_eq_some_iff.1 h
  refine foldlM_keeps (fun s i s' hs step => ?_) (all _ (mem_of_entry first)) h
  obtain ⟨bi, hi, step⟩ := Option.bind_eq_some_iff.1 step
  exact Option.some.inj step ▸ closed _ _ hs (scaled _ _ (all _ (mem_of_entry hi)))

theorem sumEntries_eq (add : α → α → α) {tmp : List α} {k : Nat} (positive : 0 < k)
    (small : k ≤ 2 ^ 31) (length : tmp.length = k) (z : α) :
    sumEntries add tmp k =
      some ((List.range' 1 (k - 1)).foldl (fun bit i => add bit (tmp.getD i z)) (tmp.getD 0 z)) :=
  sumPowers_eq (fun b _ => b) add positive small length z

theorem sumEntries_map {f : α → β} {add : α → α → α} {add' : β → β → β}
    (same : ∀ x y, add' (f x) (f y) = f (add x y)) (tmp : List α) (k : Nat) :
    sumEntries add' (tmp.map f) k = (sumEntries add tmp k).map f :=
  @sumPowers_map _ _ f (fun b _ => b) (fun b _ => b) _ _ (fun _ _ => rfl) same tmp k

theorem sumEntries_keeps {P : α → Prop} {add : α → α → α} (closed : ∀ x y, P x → P y → P (add x y))
    {tmp : List α} {k : Nat} {s : α} (all : ∀ x ∈ tmp, P x) (h : sumEntries add tmp k = some s) :
    P s :=
  @sumPowers_keeps _ P (fun b _ => b) _ (fun _ _ => id) closed _ _ _ all h

theorem shiftBits_eq (bit : β → α) (shift : β → β) (x : β) {k : Nat} (positive : 0 < k)
    (small : k ≤ 2 ^ 31) :
    shiftBits bit shift x k = some ((List.range k).map fun i => bit (shift^[i] x)) := by
  have rounds (m : Nat) : (List.range' 1 m).foldl
      (fun (s : List α × β) _ => (s.1 ++ [bit (shift s.2)], shift s.2)) ([bit x], x) =
        ((List.range (m + 1)).map fun i => bit (shift^[i] x), shift^[m] x) := by
    induction m with
    | zero => rfl
    | succ m ih =>
        rw [List.range'_1_concat, List.foldl_append, ih, List.range_succ (n := m + 1), List.map_append,
          Function.iterate_succ_apply']
        simp [Function.iterate_succ_apply']
  rw [shiftBits, if_neg (by omega), foldlM_eq_some_foldl (f := fun s _ =>
    (s.1 ++ [bit (shift s.2)], shift s.2)) fun i mem s => ?_, rounds, Nat.sub_add_cancel positive]
  · rfl
  · have := List.mem_range'_1.1 mem
    exact if_neg (by rw [toInt32_natCast (by omega)]; omega)

theorem shiftBits_none (bit : β → α) (shift : β → β) (x : β) {k : Nat} (large : 2 ^ 31 < k) :
    shiftBits bit shift x k = none := by
  rw [shiftBits, if_neg (by omega), foldlM_eq_none (x := 2 ^ 31) (List.mem_range'_1.2 (by omega))]
  · rfl
  · exact fun s => if_pos (toInt32_negative le_rfl (by norm_num))

end ProofOfCustody.OnlineOp
