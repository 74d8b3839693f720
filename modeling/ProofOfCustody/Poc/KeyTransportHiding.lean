import Mathlib
import ProofOfCustody.Poc.KeyTransportRun

/-!
# Phase one hides the key

The pad of one honest player turns the bits of any key into the bits of any other. The rest of the
material follows along, so nothing that is opened tells the two keys apart.
-/

namespace ProofOfCustody.Poc
open Effect Spdz Shared OnlineOp Binary

variable {n : Nat}

def maskOctet (m : List Bool) (i : Nat) : UInt8 :=
  UInt8.ofNat (toNat ((List.range 8).map fun k => m.getD (8 * i + k) false))

theorem testBit_maskOctet (m : List Bool) (i : Nat) {k : Nat} (bound : k < 8) :
    (maskOctet m i).toNat.testBit k = m.getD (8 * i + k) false := by
  have small := toNat_lt ((List.range 8).map fun k => m.getD (8 * i + k) false)
  rw [List.length_map, List.length_range] at small
  have inside : k < ((List.range 8).map fun k => m.getD (8 * i + k) false).length := by
    rw [List.length_map, List.length_range]
    exact bound
  rw [maskOctet, UInt8.toNat_ofNat_of_lt' small, testBit_toNat, List.getD_eq_getElem _ _ inside,
    List.getElem_map, List.getElem_range]

def flipOctets (m : List Bool) : Octets ≃ Octets :=
  Function.Involutive.toPerm (fun rnd i => rnd i ^^^ maskOctet m i) fun rnd => by
    funext i
    simp

theorem pad_flipOctets {m : List Bool} (length : m.length = 2 * PSIZE) (rnd : Octets) :
    pad (flipOctets m rnd) = List.zipWith xor (pad rnd) m := by
  apply List.ext_getElem (by simp [length])
  intro i hi _
  have whole : 8 * (i / 8) + i % 8 = i := Nat.div_add_mod i 8
  rw [List.getElem_zipWith]
  simp only [pad, List.getElem_ofFn]
  change (_ ^^^ maskOctet m (i / 8)).toNat.testBit (i % 8) = _
  rw [UInt8.toNat_xor, Nat.testBit_xor, testBit_maskOctet m _ (Nat.mod_lt i (by decide)), whole,
    List.getD_eq_getElem]

theorem getD_xor {bs cs : List Bool} (same : bs.length = cs.length) (j : Nat) :
    (List.zipWith xor bs cs).getD j false = xor (bs.getD j false) (cs.getD j false) := by
  by_cases inside : j < bs.length
  · rw [List.getD_eq_getElem _ _ (by simp [← same, inside]), List.getElem_zipWith,
      List.getD_eq_getElem _ _ inside, List.getD_eq_getElem _ _ (same ▸ inside)]
  · rw [List.getD_eq_default _ _ (by simp; omega), List.getD_eq_default _ _ (by omega),
      List.getD_eq_default _ _ (by omega)]
    rfl

theorem parity_update {h : Fin n} {l : List (Fin n)} (distinct : l.Nodup) (mem : h ∈ l)
    {f g : Fin n → Bool} {b : Bool} (others : ∀ i, i ≠ h → g i = f i) (mine : g h = xor (f h) b) :
    parity (l.map g) = xor (parity (l.map f)) b := by
  induction l with
  | nil => cases mem
  | cons i l ih =>
      rw [List.nodup_cons] at distinct
      rw [List.map_cons, List.map_cons, parity_cons, parity_cons]
      by_cases same : i = h
      · subst same
        have rest : l.map g = l.map f :=
          List.map_congr_left fun j hj => others j fun eq => distinct.1 (eq ▸ hj)
        rw [mine, rest, Bool.xor_assoc, Bool.xor_comm b, Bool.xor_assoc]
      · have later : h ∈ l := (List.mem_cons.1 mem).resolve_left fun eq => same eq.symm
        rw [others i same, ih distinct.2 later, Bool.xor_assoc]

theorem masked_flip {p : Nat} [NeZero p] (rnd : Fin n → Octets) (h : Fin n) (o : Octets)
    (x0 x1 x0' x1' : ZMod p) :
    let m := List.zipWith xor (keyWord x0 x1) (keyWord x0' x1')
    List.zipWith xor (keyWord x0 x1) (xorAll fun i => pad (Function.update rnd h o i)) =
      List.zipWith xor (keyWord x0' x1')
        (xorAll fun i => pad (Function.update rnd h (flipOctets m o) i)) := by
  intro m
  have length : m.length = 2 * PSIZE := by simp [m]
  apply List.ext_getElem (by simp)
  intro j hj _
  have bound : j < 2 * PSIZE := by
    rw [List.length_zipWith, length_keyWord, length_xorAll, min_self] at hj
    exact hj
  have left : j < (keyWord x0 x1).length := (length_keyWord x0 x1).symm ▸ bound
  have right : j < (keyWord x0' x1').length := (length_keyWord x0' x1').symm ▸ bound
  have changed := parity_update (h := h) (List.nodup_finRange n) (List.mem_finRange h)
    (f := fun i => (pad (Function.update rnd h o i)).getD j false)
    (g := fun i => (pad (Function.update rnd h (flipOctets m o) i)).getD j false)
    (b := m.getD j false) (fun i other => by simp [other]) (by
      rw [Function.update_self, Function.update_self, pad_flipOctets length, getD_xor (by simp [length])])
  rw [List.getElem_zipWith, List.getElem_zipWith]
  simp only [xorAll, List.getElem_map, List.getElem_range]
  rw [changed, getD_xor (by simp), List.getD_eq_getElem _ _ left, List.getD_eq_getElem _ _ right]
  have cancel (a b c : Bool) : xor a c = xor b (xor c (xor a b)) := by
    cases a <;> cases b <;> cases c <;> rfl
  exact cancel _ _ _

section Modulus
variable {p : Nat} [Fact p.Prime] {alphai : Fin n → ZMod p}

def hidden (h : Fin n) : Similarity (spdz alphai)
  | .triple, _, _ => True
  | .bit, _, _ => True
  | .square _, t, t' => t = t'
  | .input i, t, t' => i = h ∨ t = t'

inductive Progress
  | none
  | first (rejected : Nat)
  | both (rejected : Nat)

def Progress.Of (t : Tape (spdz alphai)) : Progress → Prop
  | .none => ∀ j, ¬Accepted t j
  | .first j => FirstAccepted t 0 j ∧ ∀ i, ¬Accepted t (j + 1 + i)
  | .both s => ∃ j j', j + j' = s ∧ FirstAccepted t 0 j ∧ FirstAccepted t (j + 1) j'

theorem Progress.covered (t : Tape (spdz alphai)) : ∃ i, Progress.Of t i := by
  by_cases one : ∃ j, Accepted t j
  · obtain ⟨j₀, accepted⟩ := one
    obtain ⟨j, _, first⟩ := exists_firstAccepted (Nat.zero_le j₀) accepted
    by_cases two : ∃ i, Accepted t (j + 1 + i)
    · obtain ⟨i, accepted'⟩ := two
      obtain ⟨j', _, second⟩ := exists_firstAccepted (Nat.le_add_right _ i) accepted'
      exact ⟨.both (j + j'), j, j', rfl, first, second⟩
    · exact ⟨.first j, first, not_exists.1 two⟩
  · exact ⟨.none, not_exists.1 one⟩

theorem Progress.disjoint (i j : Progress) (t : Tape (spdz alphai)) (hi : Progress.Of t i)
    (hj : Progress.Of t j) : i = j := by
  have start {k : Nat} (h : FirstAccepted t 0 k) : Accepted t k := by simpa using h.1
  cases i with
  | none =>
      cases j with
      | none => rfl
      | first k => exact absurd (start hj.1) (hi k)
      | both s =>
          obtain ⟨k, _, _, first, _⟩ := hj
          exact absurd (start first) (hi k)
  | first k =>
      cases j with
      | none => exact absurd (start hi.1) (hj k)
      | first k' => rw [hi.1.unique hj.1]
      | both s =>
          obtain ⟨k', k'', _, first, second⟩ := hj
          obtain rfl := hi.1.unique first
          exact absurd second.1 (hi.2 k'')
  | both s =>
      obtain ⟨k, k', rfl, first, second⟩ := hi
      cases j with
      | none => exact absurd (start first) (hj k)
      | first k'' =>
          obtain rfl := first.unique hj.1
          exact absurd second.1 (hj.2 k')
      | both s' =>
          obtain ⟨l, l', rfl, first', second'⟩ := hj
          obtain rfl := first.unique first'
          rw [second.unique second']

section Runs
variable [NeZero n]

theorem secondHalf_missed (small : p < 2 ^ PSIZE) {t : Tape (spdz alphai)}
    (missed : ∀ j, ¬Accepted t j) (fuel : Nat) (rnd : Fin n → Octets) (x1 : Shared n (ZMod p))
    (half : List (Shared n (ZMod p)) × List (Shared n (ZMod p))) :
    (secondHalf fuel rnd x1 half).run t = ((preRand fuel).run t).failing .outOfFuel := by
  have converted := A2B_missed small missed fuel x1
  have failed : ((A2B fuel x1).run t).result = .error .outOfFuel := by
    rw [converted, Run.failing_result]
  rw [secondHalf, Program.run_bind_of_error failed, converted, Run.failing_failing]

theorem firstHalf_missed (players : n < 2 ^ 31) (small : p < 2 ^ PSIZE) (fuel : Nat) (rnd : Fin n → Octets)
    (x0 : Shared n (ZMod p)) {t : Tape (spdz alphai)} :
    let shared := Program.run (sharedRandBits fun player => localBits (rnd player)) t
    (∀ j, ¬Accepted shared.rest j) →
    (firstHalf fuel rnd x0).run t =
      (shared.followedBy ((preRand fuel).run shared.rest)).failing .outOfFuel := by
  intro shared missed
  have meets : Program.Meets (fun _ : Draw (spdz alphai) => True) _ (fun _ => False)
      (sharedRandBits fun player => localBits (rnd player)) :=
    sharedRandBits_spec players (fun i => localBits_eq (rnd i)) fun i => length_pad (rnd i)
  obtain ⟨shared_bits, returned, encodes⟩ := meets.run_ok t fun _ _ => trivial
  have converted := A2B_missed small missed fuel x0
  have failed : ((A2B fuel x0).run shared.rest).result = .error .outOfFuel := by
    rw [converted, Run.failing_result]
  rw [firstHalf, Program.run_bind_of_ok returned,
    if_neg (not_not.2 (encodes.length_eq.trans (length_xorAll _))),
    Program.run_bind_of_error failed, converted, Run.failing_failing, Run.followedBy_failing]

theorem sharedRandBits_bits (players : n < 2 ^ 31) (rnd : Fin n → Octets) (t : Tape (spdz alphai))
    (i : Nat) :
    (Program.run (sharedRandBits fun player => localBits (rnd player)) t).rest .bit i = t .bit i := by
  have same (i : Fin n) := localBits_eq (rnd i)
  have length (i : Fin n) := length_pad (rnd i)
  have shape : Coupled noBits _
      (sharedRandBits fun player => localBits (rnd player) : Online alphai _)
      (sharedRandBits fun player => localBits (rnd player)) :=
    sharedRandBits_coupled players (h := 0) (fun _ _ => nofun) (fun _ _ => nofun)
      (fun _ _ _ => nofun) same same length length fun _ _ => rfl
  rw [Program.run_rest]
  exact congrArg (fun used => t .bit (i + used)) (drawn_of_noBits shape t)

omit [NeZero n] in
theorem firstHalf_extends {fuel fuel' : Nat} (more : fuel ≤ fuel') (rnd : Fin n → Octets)
    (x0 : Shared n (ZMod p)) :
    Program.Extends (firstHalf fuel rnd x0 : Online alphai _) (firstHalf fuel' rnd x0) := by
  apply (Program.Extends.refl _).bind
  intro shared_bits
  split
  · exact .refl _
  · exact (A2B_extends more x0).bind fun _ => .refl _

omit [NeZero n] in
theorem transportPhaseOne_extends {fuel fuel' : Nat} (more : fuel ≤ fuel') (rnd : Fin n → Octets)
    (x0 x1 : Shared n (ZMod p)) :
    Program.Extends (transportPhaseOne fuel rnd x0 x1 : Online alphai _)
      (transportPhaseOne fuel' rnd x0 x1) := by
  rw [transportPhaseOne_eq, transportPhaseOne_eq]
  exact (firstHalf_extends more rnd x0).bind fun half => (A2B_extends more x1).bind fun _ => .refl _

/-- What the two runs have in common: the openings, the revealed bits, the material left and how
often they draw. -/
structure Alike {α : Type} (r r' : Run (spdz alphai) (List Int × α)) : Prop where
  events : r'.events = r.events
  revealed : r'.result.map Prod.fst = r.result.map Prod.fst
  rest : r'.rest = r.rest
  drawn : ∀ κ, r'.drawn κ = r.drawn κ

theorem firstHalf_ends (players : n < 2 ^ 31) (small : p < 2 ^ PSIZE) {j : Nat} (rnd : Fin n → Octets)
    (x0 : Shared n (ZMod p)) (t : Tape (spdz alphai)) :
    FirstAccepted t 0 j ↔ (∃ half, ((firstHalf (j + 1) rnd x0).run t).result = .ok half) ∧
      bitsUsed ((firstHalf (j + 1) rnd x0).run t) = (j + 1) * PSIZE :=
  (firstHalf_run players small (j + 1) rnd x0 t).first_iff (Nat.lt_succ_self j)

theorem firstHalf_rest (players : n < 2 ^ 31) (small : p < 2 ^ PSIZE) {j : Nat} (rnd : Fin n → Octets)
    (x0 : Shared n (ZMod p)) {t : Tape (spdz alphai)} (first : FirstAccepted t 0 j) (i : Nat) :
    Accepted ((firstHalf (j + 1) rnd x0).run t).rest i ↔ Accepted t (j + 1 + i) := by
  apply accepted_shift
  intro i
  rw [Program.run_rest]
  exact congrArg (fun used => t .bit (i + used)) ((firstHalf_ends players small rnd x0 t).1 first).2

theorem both_iff (players : n < 2 ^ 31) (small : p < 2 ^ PSIZE) {s : Nat} (rnd : Fin n → Octets)
    (x0 x1 : Shared n (ZMod p)) (t : Tape (spdz alphai)) :
    Progress.Of t (.both s) ↔
      (∃ a, ((transportPhaseOne (s + 1) rnd x0 x1).run t).result = .ok a) ∧
        bitsUsed ((transportPhaseOne (s + 1) rnd x0 x1).run t) = (s + 2) * PSIZE := by
  rcases transportPhaseOne_run players small (s + 1) rnd x0 x1 t with
    ⟨k, k', _, _, first, second, returned, used⟩ | ⟨failed, missed⟩
  · rw [used]
    constructor
    · rintro ⟨j, j', rfl, first', second'⟩
      obtain rfl := first.unique first'
      obtain rfl := second.unique second'
      exact ⟨returned, rfl⟩
    · rintro ⟨_, same⟩
      have := Nat.eq_of_mul_eq_mul_right PSIZE_pos same
      exact ⟨k, k', by omega, first, second⟩
  · constructor
    · rintro ⟨j, j', rfl, first, second⟩
      exact absurd second (missed j j' (by omega) (by omega) first)
    · rintro ⟨⟨a, returned⟩, _⟩
      cases returned.symm.trans failed

section Bijections
variable (players : n < 2 ^ 31) {h : Fin n} {rnd rnd' : Fin n → Octets}
  (others : ∀ i, i ≠ h → rnd i = rnd' i) (small : p < 2 ^ PSIZE) (x0 x1 x0' x1' : Shared n (ZMod p))
include players others small

theorem exists_none : ∃ e : Tape (spdz alphai) ≃ Tape (spdz alphai), Coupled.Keeps (hidden h) e ∧
    (∀ t, Progress.Of (e t) .none ↔ Progress.Of t .none) ∧
    ∀ t, Progress.Of t .none → ∀ fuel, Alike ((transportPhaseOne fuel rnd x0 x1).run t)
      ((transportPhaseOne fuel rnd' x0' x1').run (e t)) := by
  have coupled : Coupled (hidden h) _
      (sharedRandBits fun player => localBits (rnd player) : Online alphai _)
      (sharedRandBits fun player => localBits (rnd' player)) :=
    sharedRandBits_coupled players (fun _ _ => trivial) (fun _ _ => .inl rfl)
      (fun _ _ _ => .inr rfl) (fun i => localBits_eq (rnd i)) (fun i => localBits_eq (rnd' i))
        (fun i => length_pad (rnd i))
      (fun i => length_pad (rnd' i)) fun i other => congrArg pad (others i other)
  obtain ⟨e, keeps, matched⟩ := coupled.exists_equiv
  have bits (t : Tape (spdz alphai)) (i : Nat) : (e t) .bit i = t .bit i := by
    rw [← sharedRandBits_bits players rnd' (e t), ← sharedRandBits_bits players rnd t,
      (matched t).rest]
  refine ⟨e, keeps, fun t => forall_congr' fun j => not_congr (accepted_same (bits t) j),
    fun t missed fuel => ?_⟩
  have missed' (j : Nat) : ¬Accepted (Program.run
      (sharedRandBits fun player => localBits (rnd player)) t).rest j := by
    rw [accepted_same (sharedRandBits_bits players rnd t)]
    exact missed j
  have one := firstHalf_missed players small fuel rnd x0 missed'
  rw [← (matched t).rest] at missed'
  have two := firstHalf_missed players small fuel rnd' x0' missed'
  have failed : ((firstHalf fuel rnd x0).run t).result = .error .outOfFuel := by
    rw [one, Run.failing_result]
  have failed' : ((firstHalf fuel rnd' x0').run (e t)).result = .error .outOfFuel := by
    rw [two, Run.failing_result]
  rw [transportPhaseOne_eq, transportPhaseOne_eq, Program.run_bind_of_error failed,
    Program.run_bind_of_error failed', one, two, Run.failing_failing, Run.failing_failing,
    (matched t).rest]
  constructor
  · rw [Run.failing_events, Run.failing_events, Run.followedBy_events, Run.followedBy_events,
      (matched t).events]
  · rw [Run.failing_result, Run.failing_result]
  · rw [Run.failing_rest, Run.failing_rest, Run.followedBy_rest, Run.followedBy_rest]
  · intro κ
    rw [Run.failing_drawn, Run.failing_drawn, Run.followedBy_drawn, Run.followedBy_drawn,
      (matched t).drawn]

theorem exists_first (j : Nat) :
    ∃ e : Tape (spdz alphai) ≃ Tape (spdz alphai), Coupled.Keeps (hidden h) e ∧
    (∀ t, Progress.Of (e t) (.first j) ↔ Progress.Of t (.first j)) ∧
    ∀ t, Progress.Of t (.first j) → ∀ fuel, j < fuel →
      Alike ((transportPhaseOne fuel rnd x0 x1).run t)
        ((transportPhaseOne fuel rnd' x0' x1').run (e t)) := by
  have coupled : Coupled (hidden h) _ (firstHalf (j + 1) rnd x0 : Online alphai _)
      (firstHalf (j + 1) rnd' x0') :=
    firstHalf_coupled players (fun _ _ => trivial) (fun _ _ => trivial) (fun _ _ => .inl rfl)
      (fun _ _ _ => .inr rfl) small (j + 1) others x0 x0'
  obtain ⟨e, keeps, matched⟩ := coupled.exists_equiv
  have ends (t : Tape (spdz alphai)) : FirstAccepted (e t) 0 j ↔ FirstAccepted t 0 j := by
    rw [firstHalf_ends players small rnd x0 t, firstHalf_ends players small rnd' x0' (e t),
      (matched t).result.ok_iff,
      bitsUsed, bitsUsed, (matched t).drawn]
  refine ⟨e, keeps, fun t => ?_, fun t progress fuel enough => ?_⟩
  · rw [Progress.Of, Progress.Of, ends t]
    refine and_congr_right fun first => forall_congr' fun i => not_congr ?_
    rw [← firstHalf_rest players small rnd x0 first,
      ← firstHalf_rest players small rnd' x0' ((ends t).2 first),
      (matched t).rest]
  · obtain ⟨first, missed⟩ := progress
    obtain ⟨⟨half, returned⟩, _⟩ := (firstHalf_ends players small rnd x0 t).1 first
    obtain ⟨⟨half', returned'⟩, _⟩ := (firstHalf_ends players small rnd' x0' (e t)).1 ((ends t).2 first)
    have none (i : Nat) : ¬Accepted ((firstHalf (j + 1) rnd x0).run t).rest i := by
      rw [firstHalf_rest players small rnd x0 first]
      exact missed i
    have same := firstHalf_extends enough rnd x0 t half returned
    have same' := firstHalf_extends enough rnd' x0' (e t) half' returned'
    rw [← same] at returned
    rw [← same'] at returned'
    rw [transportPhaseOne_eq, transportPhaseOne_eq, Program.run_bind_of_ok returned,
      Program.run_bind_of_ok returned', same, same', (matched t).rest,
      secondHalf_missed small none fuel rnd x1 half,
      secondHalf_missed small none fuel rnd' x1' half', Run.followedBy_failing,
      Run.followedBy_failing]
    constructor
    · rw [Run.failing_events, Run.failing_events, Run.followedBy_events, Run.followedBy_events,
        (matched t).events]
    · rw [Run.failing_result, Run.failing_result]
    · rw [Run.failing_rest, Run.failing_rest, Run.followedBy_rest, Run.followedBy_rest]
    · intro κ
      rw [Run.failing_drawn, Run.failing_drawn, Run.followedBy_drawn, Run.followedBy_drawn,
        (matched t).drawn]

theorem exists_both (s : Nat)
    (masked : List.zipWith xor (keyWord (val x0) (val x1)) (xorAll fun i => pad (rnd i)) =
      List.zipWith xor (keyWord (val x0') (val x1')) (xorAll fun i => pad (rnd' i))) :
    ∃ e : Tape (spdz alphai) ≃ Tape (spdz alphai), Coupled.Keeps (hidden h) e ∧
    (∀ t, Progress.Of (e t) (.both s) ↔ Progress.Of t (.both s)) ∧
    ∀ t, Progress.Of t (.both s) → ∀ fuel, s < fuel →
      Alike ((transportPhaseOne fuel rnd x0 x1).run t)
        ((transportPhaseOne fuel rnd' x0' x1').run (e t)) := by
  have coupled : Coupled (hidden h) (fun r r' => r.1 = r'.1)
      (transportPhaseOne (s + 1) rnd x0 x1 : Online alphai _)
      (transportPhaseOne (s + 1) rnd' x0' x1') := by
    rw [transportPhaseOne_eq, transportPhaseOne_eq]
    refine (firstHalf_coupled players (fun _ _ => trivial) (fun _ _ => trivial) (fun _ _ => .inl rfl)
      (fun _ _ _ => .inr rfl) small (s + 1) others x0 x0').bind ?_
    rintro half half' ⟨first, first'⟩
    exact secondHalf_coupled (fun _ _ => trivial) (fun _ _ => trivial) small (s + 1) x1 x1' masked
      first first'
  obtain ⟨e, keeps, matched⟩ := coupled.exists_equiv
  have ends (t : Tape (spdz alphai)) : Progress.Of (e t) (.both s) ↔ Progress.Of t (.both s) := by
    rw [both_iff players small rnd x0 x1 t, both_iff players small rnd' x0' x1' (e t),
      (matched t).result.ok_iff, bitsUsed,
      bitsUsed, (matched t).drawn]
  refine ⟨e, keeps, ends, fun t progress fuel enough => ?_⟩
  obtain ⟨⟨a, returned⟩, _⟩ := (both_iff players small rnd x0 x1 t).1 progress
  obtain ⟨⟨a', returned'⟩, _⟩ := (both_iff players small rnd' x0' x1' (e t)).1 ((ends t).2 progress)
  have related := (matched t).result
  rw [transportPhaseOne_extends enough rnd x0 x1 t a returned,
    transportPhaseOne_extends enough rnd' x0' x1' (e t) a' returned']
  refine ⟨(matched t).events, ?_, (matched t).rest, (matched t).drawn⟩
  rw [returned, returned'] at related ⊢
  exact congrArg Except.ok related.symm

theorem exists_tapes
    (masked : List.zipWith xor (keyWord (val x0) (val x1)) (xorAll fun i => pad (rnd i)) =
      List.zipWith xor (keyWord (val x0') (val x1')) (xorAll fun i => pad (rnd' i))) :
    ∃ e : Tape (spdz alphai) ≃ Tape (spdz alphai), Coupled.Keeps (hidden h) e ∧
    ∀ t, ∃ rounds, ∀ fuel, rounds < fuel →
      Alike ((transportPhaseOne fuel rnd x0 x1).run t)
        ((transportPhaseOne fuel rnd' x0' x1').run (e t)) := by
  have each (i : Progress) : ∃ e : Tape (spdz alphai) ≃ Tape (spdz alphai),
      Coupled.Keeps (hidden h) e ∧ (∀ t, Progress.Of (e t) i ↔ Progress.Of t i) ∧
      ∀ t, Progress.Of t i → ∃ rounds, ∀ fuel, rounds < fuel →
        Alike ((transportPhaseOne fuel rnd x0 x1).run t)
          ((transportPhaseOne fuel rnd' x0' x1').run (e t)) := by
    cases i with
    | none =>
        obtain ⟨e, keeps, kept, alike⟩ := exists_none players others small x0 x1 x0' x1'
        exact ⟨e, keeps, kept, fun t progress => ⟨0, fun fuel _ => alike t progress fuel⟩⟩
    | first j =>
        obtain ⟨e, keeps, kept, alike⟩ := exists_first players others small x0 x1 x0' x1' j
        exact ⟨e, keeps, kept, fun t progress => ⟨j, alike t progress⟩⟩
    | both s =>
        obtain ⟨e, keeps, kept, alike⟩ := exists_both players others small x0 x1 x0' x1' s masked
        exact ⟨e, keeps, kept, fun t progress => ⟨s, alike t progress⟩⟩
  choose e keeps kept alike using each
  obtain ⟨whole, same⟩ := exists_glued Progress.covered Progress.disjoint e kept
  refine ⟨whole, fun κ only t => ?_, fun t => ?_⟩
  · obtain ⟨i, progress⟩ := Progress.covered t
    rw [same i t progress]
    exact keeps i κ only t
  · obtain ⟨i, progress⟩ := Progress.covered t
    rw [same i t progress]
    exact alike i t progress

end Bijections

/-- The octets of an honest player, its input masks, the triples and the random bits that go with
one key are matched with those that go with another: the same values are opened and the same bits
are revealed, and nothing else of the material changes. -/
theorem transportPhaseOne_hiding (players : n < 2 ^ 31) (small : p < 2 ^ PSIZE) (h : Fin n)
    (rnd : Fin n → Octets) (x0 x1 x0' x1' : Shared n (ZMod p)) :
    ∃ E : Octets × Tape (spdz alphai) ≃ Octets × Tape (spdz alphai), ∀ o t,
      let t' := (E (o, t)).2
      t' .square = t .square ∧ (∀ i, i ≠ h → t' (.input i) = t (.input i)) ∧
      ∃ rounds, ∀ fuel, rounds < fuel →
        Alike ((transportPhaseOne fuel (Function.update rnd h o) x0 x1).run t)
          ((transportPhaseOne fuel (Function.update rnd h (E (o, t)).1) x0' x1').run t') := by
  let m := List.zipWith xor (keyWord (val x0) (val x1)) (keyWord (val x0') (val x1'))
  have tapes (o : Octets) : ∃ e : Tape (spdz alphai) ≃ Tape (spdz alphai),
      Coupled.Keeps (hidden h) e ∧ ∀ t, ∃ rounds, ∀ fuel, rounds < fuel →
        Alike ((transportPhaseOne fuel (Function.update rnd h o) x0 x1).run t)
          ((transportPhaseOne fuel (Function.update rnd h (flipOctets m o)) x0' x1').run (e t)) :=
    exists_tapes players
      (fun i other => by rw [Function.update_of_ne other, Function.update_of_ne other]) small
      x0 x1 x0' x1' (masked_flip rnd h o _ _ _ _)
  choose e keeps alike using tapes
  refine ⟨Equiv.prodShear (flipOctets m) e, fun o t => ⟨?_, fun i other => ?_, alike o t⟩⟩
  · refine keeps o _ (fun s kind a a' similar => ?_) t
    cases s with
    | square use => exact similar
    | triple | bit | input _ => cases kind
  · refine keeps o _ (fun s kind a a' similar => ?_) t
    cases s with
    | input j =>
        obtain rfl : j = i := by simpa using kind
        exact similar.resolve_left other
    | triple | bit | square _ => cases kind

end Runs

end Modulus

theorem transportPhaseOne_hiding_two :
    let alphai : Fin 2 → ZMod Params.prime381 := ![1, 2]
    let c := constant alphai
    ∃ E : Octets × Tape (spdz alphai) ≃ Octets × Tape (spdz alphai), ∀ o t,
      let t' := (E (o, t)).2
      t' .square = t .square ∧ (∀ i, i ≠ 1 → t' (.input i) = t (.input i)) ∧
      ∃ rounds, ∀ fuel, rounds < fuel →
        Alike ((transportPhaseOne fuel (Function.update (fun _ _ => 90) 1 o) (c 5) (c 7)).run t)
          ((transportPhaseOne fuel (Function.update (fun _ _ => 90) 1 (E (o, t)).1) (c 2)
            (c 3)).run t') :=
  transportPhaseOne_hiding (by decide) prime381_small 1 _ _ _ _ _

end ProofOfCustody.Poc
