import Mathlib
import ProofOfCustody.Spdz.Ledger

/-!
# Runs of the MAC check

The players that follow their code keep the ledger, in every order of their steps.
-/

namespace ProofOfCustody.Spdz
open Network Process Networking Tools Script Shared Binary
open Bls (SEED_SIZE)

variable {n : Nat} {F : Type} [Field F] [DecidableEq F]

/-- No `int` overflows when up to `m` values are opened at once. -/
structure Limits (O : Outside F) (T : TreeSum n) (m : Nat) : Prop where
  levels : n + T.opening_sum ≤ 2 ^ 31 + 1
  opening : 0 < T.opening_sum
  wide : 2 ≤ T.max_broadcast
  numbers : n * T.max_broadcast < 2 ^ 31
  count : m + POPEN_MAX ≤ 2 ^ 31
  octets : m * O.enc.size < 2 ^ 32

omit [Field F] [DecidableEq F] in
theorem Limits.players {O : Outside F} {T : TreeSum n} {m : Nat} (limits : Limits O T m) :
    n < 2 ^ 31 := by
  have wider : n * 1 ≤ n * T.max_broadcast := Nat.mul_le_mul_left n (by have := limits.wide; omega)
  have := limits.numbers
  omega

namespace MacCheck
variable (enc : Encoding F)

omit [DecidableEq F] in
theorem addOthers_unread {my_num : Fin n} (d : Fin n → F) (rest : Fin n → Octets)
    {players : List (Fin n)} (distinct : players.Nodup) (delta : F) (bundle : Fin n → OctetStream)
    (unread : ∀ i ∈ players, i ≠ my_num → (bundle i).unread = enc.pack (d i) ++ rest i) :
    ∃ bundle', addOthers enc my_num players delta bundle =
        .ok (delta + ((players.filter (· ≠ my_num)).map d).sum, bundle') ∧
      (∀ i ∈ players, i ≠ my_num → (bundle' i).unread = rest i) ∧
      ∀ i ∉ players, bundle' i = bundle i := by
  induction players generalizing delta bundle with
  | nil => exact ⟨bundle, by simp [addOthers, pure, Except.pure], nofun, fun _ _ => rfl⟩
  | cons i players ih =>
      obtain ⟨fresh, distinct⟩ := List.nodup_cons.1 distinct
      by_cases own : i = my_num
      · obtain ⟨bundle', added, left, same⟩ :=
          ih distinct delta bundle fun j member => unread j (List.mem_cons_of_mem _ member)
        refine ⟨bundle', ?_, fun j member other => ?_, fun j absent => same j ?_⟩
        · rw [addOthers, if_neg (by simp [own]), added, List.filter_cons_of_neg (by simp [own])]
        · exact left j ((List.mem_cons.1 member).resolve_left (own ▸ other)) other
        · exact fun member => absent (List.mem_cons_of_mem _ member)
      · obtain ⟨os, read, unread', _⟩ := (OctetStream.Reads.consume (enc.length_pack (d i))).whole
          (bundle i) (rest i) (unread i (by simp) own)
        have others (j : Fin n) (member : j ∈ players) : j ≠ i := fun same => fresh (same ▸ member)
        obtain ⟨bundle', added, left, same⟩ :=
          ih distinct (delta + d i) (Function.update bundle i os) fun j member other => by
            rw [Function.update_of_ne (others j member)]
            exact unread j (List.mem_cons_of_mem _ member) other
        refine ⟨bundle', ?_, fun j member other => ?_, fun j absent => ?_⟩
        · rw [addOthers, if_pos own, read, List.filter_cons_of_pos (by simp [own]), List.map_cons,
            List.sum_cons, ← add_assoc]
          change addOthers enc my_num players (delta + enc.unpack (enc.pack (d i))) _ = _
          rw [enc.unpack_pack, added]
        · rcases List.mem_cons.1 member with rfl | member
          · rw [same j fresh, Function.update_self, unread']
          · exact left j member other
        · obtain ⟨other, outside⟩ := not_or.1 (List.mem_cons.not.1 absent)
          rw [same j outside, Function.update_of_ne other]

omit [DecidableEq F] in
theorem sum_others (my_num : Fin n) (d : Fin n → F) :
    d my_num + (((List.finRange n).filter (· ≠ my_num)).map d).sum = ∑ i, d i := by
  have others : ((List.finRange n).filter (· ≠ my_num)).toFinset = Finset.univ.erase my_num := by
    ext i
    simp
  rw [← List.sum_toFinset _ ((List.nodup_finRange n).filter _), others,
    Finset.add_sum_erase _ _ (Finset.mem_univ my_num)]

theorem checkDeltas_packed {ε : Type} (my_num : Fin n) (d : Fin n → ε → F) (entries : List ε)
    {bundle : Fin n → OctetStream}
    (unread : ∀ i, i ≠ my_num → (bundle i).unread = (entries.map (d i)).flatMap enc.pack) :
    checkDeltas enc my_num (entries.map (d my_num)) bundle =
      if ∀ x ∈ entries, ∑ i, d i x = 0 then .ok PUnit.unit else .error .mac_fail := by
  induction entries generalizing bundle with
  | nil => simp [checkDeltas, pure, Except.pure]
  | cons x entries ih =>
      obtain ⟨bundle', added, left, _⟩ := addOthers_unread enc (fun i => d i x)
        (fun i => (entries.map (d i)).flatMap enc.pack) (List.nodup_finRange n) (d my_num x) bundle
        fun i _ other => unread i other
      rw [sum_others my_num fun i => d i x] at added
      rw [List.map_cons, checkDeltas, added]
      simp only
      by_cases zero : ∑ i, d i x = 0
      · rw [if_neg (not_not.2 zero), ih fun i other => left i (List.mem_finRange i) other]
        simp [zero]
      · rw [if_pos zero, if_neg fun all => zero (all x (by simp))]
        rfl

omit [DecidableEq F] in
theorem sumTau_packed (tau : Fin n → F) (players : List (Fin n)) (t : F) :
    sumTau enc players (fun i => ⟨enc.pack (tau i), 0, Nat.zero_le _⟩) t =
      .ok (t + (players.map tau).sum) := by
  induction players generalizing t with
  | nil => simp [sumTau, pure, Except.pure]
  | cons i players ih =>
      obtain ⟨os, read, _⟩ := (OctetStream.Reads.consume (enc.length_pack (tau i))).whole
        ⟨enc.pack (tau i), 0, Nat.zero_le _⟩ [] (by simp [OctetStream.unread])
      rw [sumTau, read]
      simp only
      rw [enc.unpack_pack, ih, List.map_cons, List.sum_cons, add_assoc]

omit [DecidableEq F] in
theorem foldl_combined (h v m : Nat → F) (k : Nat) : (List.range k).foldl
    (fun (a, gami) i => (a + v i * h i, gami + h i * m i)) ((0 : F), (0 : F)) =
      (∑ l ∈ Finset.range k, v l * h l, ∑ l ∈ Finset.range k, h l * m l) := by
  induction k with
  | zero => rfl
  | succ k ih => rw [List.range_succ, List.foldl_append, ih, Finset.sum_range_succ,
      Finset.sum_range_succ]; rfl

section Branches
variable (O : Outside F) {alphai : Fin n → F} {L : Ledger n F} {M : Fin n → MacCheck F}
  (columns : L.Columns alphai M) (bound : n ≤ 2 ^ 31)
include columns bound

theorem rounds_checkEach : Rounds 2 (fun i => (checkEach O i (M i)).run) fun i =>
    if ∀ d ∈ L.pending, Ledger.discrepancy alphai d = 0 then .ok ((M i).takeRandom SEED_SIZE).2
    else .error .mac_fail := by
  let delta (i : Fin n) (d : Entry n F) : F := d.2 * alphai i - (d.1 i).mac
  have deltas (i : Fin n) : (M i).deltas = L.pending.map (delta i) := by
    rw [MacCheck.deltas, columns.vals, columns.macs, columns.popen_cnt, columns.alphai_eq,
      Int.toNat_natCast, List.take_of_length_le (by simp), List.take_of_length_le (by simp),
      List.zipWith_map, List.zipWith_self]
  have sum_delta (d : Entry n F) : ∑ i, delta i d = 0 ↔ Ledger.discrepancy alphai d = 0 := by
    have : ∑ i, delta i d = -Ledger.discrepancy alphai d := by
      simp only [delta, Ledger.discrepancy, Finset.sum_sub_distrib, ← Finset.mul_sum, macSum_apply]
      ring
    rw [this, neg_eq_zero]
  have opened := rounds_commitAndOpen O.hash (fun i => ((M i).takeRandom SEED_SIZE).1) bound
    fun i => Function.update (fun _ => []) i (message O.enc (L.pending.map (delta i)))
  simp only [Function.update_self] at opened
  refine (opened.bind_ok (f := fun i bundle => do
    ExceptT.mk (.ret (checkDeltas O.enc i (L.pending.map (delta i))
      fun j => ⟨bundle j, 0, Nat.zero_le _⟩))
    return ((M i).takeRandom SEED_SIZE).2) ((Rounds.ret _).congr fun i => ?_)).congr fun i => ?_
  · rw [checkDeltas_packed O.enc i delta L.pending fun j _ => by
      simp [OctetStream.unread, message_eq]]
    simp only [sum_delta]
    split <;> rfl
  · rw [checkEach, deltas]
    rfl

omit bound [DecidableEq F] in
theorem sum_tau (h : Nat → F) :
    ∑ i, (M i).tau h = Ledger.combination alphai h L.pending := by
  let v (l : Nat) : F := (L.pending.getD l 0).2
  let m (i : Fin n) (l : Nat) : F := ((L.pending.getD l 0).1 i).mac
  have tau_eq (i : Fin n) : (M i).tau h = ∑ l ∈ Finset.range L.pending.length, h l * m i l -
      alphai i * ∑ l ∈ Finset.range L.pending.length, v l * h l := by
    have vals (l : Nat) : (M i).vals.getD l 0 = v l := by
      rw [columns.vals]
      exact List.getD_map _ 0 Prod.snd
    have macs (l : Nat) : (M i).macs.getD l 0 = m i l := by
      rw [columns.macs]
      exact List.getD_map _ 0 fun d : Entry n F => (d.1 i).mac
    simp only [tau, vals, macs, foldl_combined, columns.alphai_eq, columns.popen_cnt,
      Int.toNat_natCast]
  calc ∑ i, (M i).tau h
      = ∑ l ∈ Finset.range L.pending.length, h l * ∑ i, m i l -
          (∑ i, alphai i) * ∑ l ∈ Finset.range L.pending.length, v l * h l := by
        simp only [tau_eq, Finset.sum_sub_distrib, Finset.sum_mul, Finset.mul_sum]
        rw [Finset.sum_comm]
        congr 1
        exact Finset.sum_comm
    _ = ∑ l ∈ Finset.range L.pending.length, h l * (∑ i, m i l - (∑ i, alphai i) * v l) := by
        rw [Finset.mul_sum, ← Finset.sum_sub_distrib]
        refine Finset.sum_congr rfl fun l _ => ?_
        ring
    _ = Ledger.combination alphai h L.pending := rfl

theorem rounds_checkCombined : Rounds 4 (fun i => (checkCombined O i (M i)).run) fun i =>
    if Ledger.combination alphai (O.almost_randomize L.seed) L.pending = 0 then
      .ok ((((M i).takeRandom SEED_SIZE).2.takeRandom SEED_SIZE).2.takeRandom SEED_SIZE).2
    else .error .mac_fail := by
  let M₁ (i : Fin n) := ((M i).takeRandom SEED_SIZE).2
  let M₂ (i : Fin n) := ((M₁ i).takeRandom SEED_SIZE).2
  let h := O.almost_randomize L.seed
  have seeded := rounds_createRandomSeed O.hash (fun i => ((M₁ i).takeRandom SEED_SIZE).1)
    (fun i => List.ofFn ((M i).takeRandom SEED_SIZE).1) bound fun i => List.length_ofFn
  have same : sumSeeds (fun i => List.ofFn ((M i).takeRandom SEED_SIZE).1) SEED_SIZE = L.seed := by
    simp only [takeRandom, columns.random]
    rfl
  rw [same] at seeded
  have opened := rounds_commitAndOpen O.hash (fun i => ((M₂ i).takeRandom SEED_SIZE).1) bound
    fun i => Function.update (fun _ => []) i (O.enc.pack ((M i).tau h))
  simp only [Function.update_self] at opened
  refine (seeded.bind_ok (f := fun i seed => do
    let datas ← commitAndOpen O.hash i ((M₂ i).takeRandom SEED_SIZE).1
      (Function.update (fun _ => []) i (O.enc.pack ((M i).tau (O.almost_randomize seed))))
    let t ← ExceptT.mk (.ret (sumTau O.enc (List.finRange n)
      (fun i => ⟨datas i, 0, Nat.zero_le _⟩) 0))
    if t ≠ 0 then throw .mac_fail else return ((M₂ i).takeRandom SEED_SIZE).2)
    (opened.bind_ok ((Rounds.ret _).congr fun i => ?_))).congr fun i => rfl
  rw [sumTau_packed, zero_add, ← Fin.sum_univ_def, sum_tau columns]
  change ExceptT.run (if Ledger.combination alphai h L.pending ≠ 0 then _ else _) = _
  by_cases zero : Ledger.combination alphai h L.pending = 0
  · rw [if_neg (not_not.2 zero), if_pos zero]
    rfl
  · rw [if_pos zero, if_neg zero]
    rfl

end Branches

def Opened (V : Fin n → List F) (k : Fin n → Nat) (M : Fin n → MacCheck F) : Prop :=
  ∀ i, (M i).values = V i ∧ (M i).next = k i

omit [Field F] [DecidableEq F] in
theorem waiting_eq {alphai : Fin n → F} {L : Ledger n F}
    {M : Fin n → MacCheck F} (columns : L.Columns alphai M) (counted : L.pending.length < 2 ^ 31)
    (i : Fin n) : (M i).waitingForCheck = L.pending.length := by
  rw [waitingForCheck, columns.macs, columns.vals, List.length_map, List.length_map, max_self,
    toInt32_natCast counted]

section Requests
variable (O : Outside F) {alphai : Fin n → F} {L : Ledger n F} {M : Fin n → MacCheck F}
  {V : Fin n → List F} {k : Fin n → Nat}

theorem realizes_erase (columns : L.Columns alphai M) (opened : Opened V k M) {len : Nat}
    {M' : Fin n → MacCheck F} {q : Fin n → Play n (MacCheck F)}
    (rounds : Rounds len (fun i => (q i).run) fun i =>
      if L.Passes O alphai then .ok (M' i) else .error .mac_fail)
    (same : ∀ i, ∃ random, M' i = { M i with random })
    (random : ∀ i, (M' i).random = fun l => L.random i (L.used + l)) :
    Realizes (fun L' M' => L'.Kept alphai M' ∧ Opened V k M')
      (fun i => q i >>= fun M' => return M'.eraseChecked) (L.check O alphai) := by
  have first : Realizes (fun _ : Unit => (· = M')) q
      (if L.Passes O alphai then .ok () else .error .mac_fail) := .ofDecision rounds fun _ => rfl
  have decides : L.check O alphai = (if L.Passes O alphai then .ok () else .error .mac_fail) >>=
      fun _ => .ok ⟨[], fun i l => L.random i (L.used + l)⟩ := by
    rw [Ledger.check]
    split <;> rfl
  have erased (i : Fin n) : (M' i).eraseChecked =
      { M i with vals := [], macs := [], popen_cnt := 0, random := (M' i).random } := by
    obtain ⟨_, same⟩ := same i
    rw [eraseChecked, same]
    simp [columns.vals, columns.macs, columns.popen_cnt]
  rw [decides]
  refine first.bind fun _ _ a chosen => ?_
  rw [chosen]
  simp only [erased]
  exact .ret ⟨⟨⟨columns.alphai_eq, fun _ => rfl, fun _ => rfl, fun _ => rfl, random⟩, POPEN_MAX_pos⟩,
    opened⟩

variable (bound : n ≤ 2 ^ 31)
include bound

theorem realizes_check (columns : L.Columns alphai M) (counted : L.pending.length < 2 ^ 31)
    (opened : Opened V k M) :
    Realizes (fun L' M' => L'.Kept alphai M' ∧ Opened V k M') (fun i => check O i (M i))
      (L.check O alphai) := by
  have waiting := waiting_eq columns counted
  by_cases empty : L.pending.length = 0
  · have passes : L.Passes O alphai := by
      rw [Ledger.Passes, if_pos (by omega), List.eq_nil_of_length_eq_zero empty]
      exact fun d member => absurd member List.not_mem_nil
    have same : L.check O alphai = .ok L := by
      rw [Ledger.check, if_pos passes, Ledger.after, Ledger.used, if_pos empty]
      simp only [Nat.zero_add, ← List.eq_nil_of_length_eq_zero empty]
      rfl
    rw [same]
    refine (Realizes.ret ⟨⟨columns, empty ▸ POPEN_MAX_pos⟩, opened⟩).congr fun i => ?_
    rw [check, if_pos (by rw [waiting, empty]; rfl)]
  · have enough (i : Fin n) : ¬((M i).popen_cnt < 0 ∨ (M i).vals.length < (M i).popen_cnt ∨
        (M i).macs.length < (M i).popen_cnt) := by
      rw [columns.vals, columns.macs, columns.popen_cnt, List.length_map, List.length_map]
      omega
    have starts (i : Fin n) : check O i (M i) = (if L.pending.length < 10 then
        checkEach O i (M i) else checkCombined O i (M i)) >>= fun M' => return M'.eraseChecked := by
      have ten : (M i).popen_cnt < 10 ↔ L.pending.length < 10 := by
        rw [columns.popen_cnt]
        omega
      rw [check, if_neg (by rw [waiting]; omega), if_neg (enough i)]
      simp only [ten]
      split <;> rfl
    by_cases few : L.pending.length < 10
    · have rounds := rounds_checkEach O columns bound
      have passes : (∀ d ∈ L.pending, Ledger.discrepancy alphai d = 0) ↔ L.Passes O alphai := by
        rw [Ledger.Passes, if_pos few]
      simp only [passes] at rounds
      refine (realizes_erase O columns opened rounds (fun i => ⟨_, rfl⟩) fun i => ?_).congr
        fun i => by rw [starts, if_pos few]
      rw [Ledger.used, if_neg empty, if_pos few, ← columns.random]
      rfl
    · have rounds := rounds_checkCombined O columns bound
      have passes : Ledger.combination alphai (O.almost_randomize L.seed) L.pending = 0 ↔
          L.Passes O alphai := by
        rw [Ledger.Passes, if_neg few]
      simp only [passes] at rounds
      refine (realizes_erase O columns opened rounds (fun i => ⟨_, rfl⟩) fun i => ?_).congr
        fun i => by rw [starts, if_neg few]
      rw [Ledger.used, if_neg empty, if_neg few, ← columns.random]
      funext l
      change (M i).random (SEED_SIZE + (SEED_SIZE + (SEED_SIZE + l))) = _
      congr 1
      omega

theorem realizes_checkIfNeeded (columns : L.Columns alphai M) (counted : L.pending.length < 2 ^ 31)
    (opened : Opened V k M) :
    Realizes (fun L' M' => L'.Kept alphai M' ∧ Opened V k M') (fun i => checkIfNeeded O i (M i))
      (L.checkIfNeeded O alphai) := by
  have waiting (i : Fin n) : (M i).waitingForCheck ≥ POPEN_MAX ↔ L.pending.length ≥ POPEN_MAX := by
    rw [waiting_eq columns counted]
    exact Int.ofNat_le
  by_cases needed : L.pending.length ≥ POPEN_MAX
  · rw [Ledger.checkIfNeeded, if_pos needed]
    refine (realizes_check O bound columns counted opened).congr fun i => ?_
    rw [checkIfNeeded, if_pos ((waiting i).2 needed)]
  · rw [Ledger.checkIfNeeded, if_neg needed]
    refine (Realizes.ret ⟨⟨columns, Nat.lt_of_not_le needed⟩, opened⟩).congr fun i => ?_
    rw [checkIfNeeded, if_neg (mt (waiting i).1 needed)]

omit [Field F] [DecidableEq F] bound in
theorem foldl_prepareOpen (S : List (Share F)) (M : MacCheck F) : S.foldl prepareOpen M =
    { M with values := M.values ++ S.map Share.share, macs := M.macs ++ S.map Share.mac } := by
  induction S generalizing M with
  | nil => simp
  | cons s S ih =>
      rw [List.foldl_cons, ih]
      simp [prepareOpen]

omit [Field F] [DecidableEq F] bound in
theorem finalizeAll_eq (M : MacCheck F) (rest : List F) (left : M.values.drop M.next = rest) :
    finalizeAll rest.length M = .ok (rest, { M with next := M.next + rest.length }) := by
  induction rest generalizing M with
  | nil => rfl
  | cons value rest ih =>
      have inside : M.values[M.next]? = some value := by
        rw [← List.head?_drop, left]
        rfl
      have left' : M.values.drop (M.next + 1) = rest := by
        rw [← List.drop_drop, left]
        rfl
      rw [List.length_cons, finalizeAll, finalizeOpen, inside]
      change (finalizeAll rest.length { M with next := M.next + 1 } >>= fun r =>
        Except.ok (value :: r.1, r.2)) = _
      rw [ih { M with next := M.next + 1 } left']
      change Except.ok _ = Except.ok _
      rw [Nat.add_right_comm, Nat.add_assoc]

theorem realizes_addToCheck (kept : L.Kept alphai M) (share : Shared n F) (value : F) :
    Realizes (fun L' M' => L'.Kept alphai M') (fun i => addToCheck O i (share i) value (M i))
      ((L.add (Ledger.entries (.addToCheck share value))).checkIfNeeded O alphai) := by
  let M₁ (i : Fin n) : MacCheck F := { M i with
    macs := (M i).macs ++ [(share i).mac]
    vals := (M i).vals ++ [value]
    popen_cnt := (M i).popen_cnt + 1 }
  have columns : (L.add [(share, value)]).Columns alphai M₁ :=
    { alphai_eq := kept.alphai_eq
      vals := by simp [M₁, kept.vals, Ledger.add]
      macs := by simp [M₁, kept.macs, Ledger.add]
      popen_cnt := by simp [M₁, kept.popen_cnt, Ledger.add]
      random := kept.random }
  have counted : (L.add [(share, value)]).pending.length < 2 ^ 31 := by
    have few := kept.few
    rw [POPEN_MAX] at few
    rw [Ledger.add, List.length_append, List.length_singleton]
    omega
  exact (realizes_checkIfNeeded O bound columns counted (V := fun i => (M i).values)
    (k := fun i => (M i).next) fun _ => ⟨rfl, rfl⟩).mono fun _ _ _ answer => answer.1

omit bound
variable {T : TreeSum n} {m : Nat} (limits : Limits O T m)
include limits

theorem realizes_pOpen (kept : L.Kept alphai M) (secrets : List (Shared n F))
    (short : secrets.length ≤ m) :
    Realizes (fun L' a => ∃ M', a = (fun i => (secrets.map val, M' i)) ∧ L'.Kept alphai M')
      (fun i => pOpen O T i (secrets.map (· i)) (M i))
      ((L.add (Ledger.entries (.pOpen secrets))).checkIfNeeded O alphai) := by
  have octets : secrets.length * O.enc.size < 2 ^ 32 :=
    (Nat.mul_le_mul_right _ short).trans_lt limits.octets
  have room : L.pending.length + secrets.length < 2 ^ 31 := by
    have := kept.few
    have := limits.count
    omega
  obtain ⟨len, opened⟩ := T.rounds_run O.enc limits.levels limits.opening limits.wide limits.numbers
    octets fun i (l : Fin secrets.length) => (secrets[l] i).share
  have share (i : Fin n) : (List.ofFn fun l : Fin secrets.length => (secrets[l] i).share) =
      secrets.map fun s => (s i).share :=
    List.ofFn_getElem_eq_map secrets fun s => (s i).share
  have sums : List.ofFn (∑ i, fun l : Fin secrets.length => (secrets[l] i).share) =
      secrets.map val := by
    rw [← List.ofFn_getElem_eq_map]
    congr 1
    funext l
    rw [Finset.sum_apply, val_apply]
    rfl
  simp only [share, sums] at opened
  let prepared (i : Fin n) := (secrets.map (· i)).foldl prepareOpen (M i).initOpen
  have prepared_eq (i : Fin n) : prepared i = { (M i).initOpen with
      values := secrets.map fun s => (s i).share
      macs := (M i).macs ++ secrets.map fun s => (s i).mac } := by
    simp only [prepared, foldl_prepareOpen, List.map_map]
    rfl
  have summed : Realizes (fun (_ : Unit) a => a = fun _ => secrets.map val)
      (fun i => T.run O.enc i (prepared i).values) (.ok ()) :=
    .ofRounds (opened.congr fun i => by rw [prepared_eq]) rfl
  have nonnegative (i : Fin n) : ¬toInt32 (secrets.map (· i)).length < 0 := by
    rw [List.length_map, toInt32_natCast (by omega)]
    omega
  refine (Realizes.next
    (f := fun i M => ExceptT.mk (.ret (finalizeAll (secrets.map (· i)).length M)))
    (Q := fun L' M' => L'.Kept alphai M' ∧ Opened (fun _ => secrets.map val) 0 M') ?_
    fun L' _ M' answer => ?_).congr fun i => by rw [pOpen, if_neg (nonnegative i)]
  · refine summed.bind (f := fun i values => checkIfNeeded O i { prepared i with
      values := values
      vals := (prepared i).vals ++ values
      values_opened := toInt32 ((prepared i).values_opened + values.length)
      popen_cnt := toInt32 ((prepared i).popen_cnt + values.length) }) (g := fun _ =>
        (L.add (Ledger.entries (.pOpen secrets))).checkIfNeeded O alphai) fun _ _ a chosen => ?_
    rw [chosen]
    refine realizes_checkIfNeeded O limits.players.le ⟨fun i => ?_, fun i => ?_, fun i => ?_, fun i => ?_,
      fun i => ?_⟩ ?_ fun i => ?_
    · rw [prepared_eq]
      exact kept.alphai_eq i
    · simp [prepared_eq, initOpen, kept.vals, Ledger.add, Ledger.entries]
    · simp [prepared_eq, kept.macs, Ledger.add, Ledger.entries]
    · have sum : (prepared i).popen_cnt + ((secrets.map val).length : Int) =
          ((L.pending.length + secrets.length : Nat) : Int) := by
        rw [prepared_eq, List.length_map, Nat.cast_add, ← kept.popen_cnt i]
        rfl
      change toInt32 ((prepared i).popen_cnt + ((secrets.map val).length : Int)) = _
      rw [sum, toInt32_natCast room]
      simp [Ledger.add, Ledger.entries]
    · rw [prepared_eq]
      exact kept.random i
    · simpa [Ledger.add, Ledger.entries] using room
    · simp [prepared_eq, initOpen]
  · obtain ⟨kept', held⟩ := answer
    have final (i : Fin n) : finalizeAll (secrets.map (· i)).length (M' i) =
        .ok (secrets.map val, { M' i with next := 0 + (secrets.map val).length }) := by
      have length : (secrets.map (· i)).length = (secrets.map val).length := by simp
      rw [length, finalizeAll_eq (M' i) (secrets.map val) (by rw [(held i).1, (held i).2]; rfl),
        (held i).2]
      rfl
    refine ⟨fun i => (secrets.map val, { M' i with next := 0 + (secrets.map val).length }),
      fun i => ?_, _, rfl, ⟨kept'.alphai_eq, kept'.vals, kept'.macs, kept'.popen_cnt,
        kept'.random⟩, kept'.few⟩
    rw [final]
    rfl

def Answering (alphai : Fin n → F) (values : List (List F)) (L : Ledger n F)
    (a : Fin n → List (List F) × MacCheck F) : Prop :=
  ∃ M, a = (fun i => (values, M i)) ∧ L.Kept alphai M

theorem realizes_request (kept : L.Kept alphai M) (r : Request F (Shared n F)) (short : r.AtMost m) :
    Realizes (Answering alphai (Ledger.opened r)) (fun i => request O T i (M i) (r.map (· i)))
      (L.request O alphai r) := by
  cases r with
  | pOpen secrets =>
      refine (realizes_pOpen O limits kept secrets short).next
        (f := fun _ (answer : List F × MacCheck F) => pure ([answer.1], answer.2))
        fun L' _ a answer => ?_
      obtain ⟨M', rfl, kept'⟩ := answer
      exact ⟨_, fun _ => rfl, M', rfl, kept'⟩
  | addToCheck share value =>
      exact (realizes_addToCheck O limits.players.le kept share value).next (f := fun _ M => pure ([], M))
        fun L' _ M' kept' => ⟨_, fun _ => rfl, M', rfl, kept'⟩
  | check =>
      exact (realizes_check O limits.players.le kept.toColumns kept.counted (V := fun i => (M i).values)
        (k := fun i => (M i).next) fun _ => ⟨rfl, rfl⟩).next (f := fun _ M => pure ([], M))
        fun L' _ M' answer => ⟨_, fun _ => rfl, M', rfl, answer.1⟩

theorem realizes_serve (kept : L.Kept alphai M) {requests : List (Request F (Shared n F))}
    (short : ∀ r ∈ requests, r.AtMost m) :
    Realizes (Answering alphai (requests.flatMap Ledger.opened))
      (fun i => serve O T i (requests.map (Request.map (· i))) (M i))
      (L.serve O alphai requests) := by
  induction requests generalizing L M with
  | nil => exact .ret ⟨M, rfl, kept⟩
  | cons r requests ih =>
      refine (realizes_request O limits kept r (short r (by simp))).bind
        (f := fun i (answer : List (List F) × MacCheck F) =>
          serve O T i (requests.map (Request.map (· i))) answer.2 >>= fun r =>
            pure (answer.1 ++ r.1, r.2))
        (g := fun L => L.serve O alphai requests) fun L' _ a first => ?_
      obtain ⟨M', rfl, kept'⟩ := first
      refine (ih kept' fun r member => short r (by simp [member])).next
        (f := fun i (answer : List (List F) × MacCheck F) =>
        pure (Ledger.opened r ++ answer.1, answer.2)) fun L'' _ a second => ?_
      obtain ⟨M'', rfl, kept''⟩ := second
      exact ⟨_, fun _ => rfl, M'', rfl, kept''⟩

end Requests

/-! ## Sessions -/

section Sessions
variable (O : Outside F) (T : TreeSum n) (alphai : Fin n → F) (random : Fin n → Nat → UInt8)
  (requests : List (Request F (Shared n F)))

def session (my_num : Fin n) : Play n (List (List F) × MacCheck F) :=
  serve O T my_num ((requests ++ [Request.check]).map (Request.map fun s : Shared n F => s my_num))
    (new (alphai my_num) (random my_num))

def checks : List (Ledger n F) := (Ledger.trace (requests ++ [.check]) ⟨[], random⟩).1

omit [DecidableEq F] in
theorem trace_snoc_check (L : Ledger n F) :
    (Ledger.trace (requests ++ [.check]) L).2.pending = [] := by
  induction requests generalizing L with
  | nil => rfl
  | cons r requests ih => exact ih _

omit [DecidableEq F] in
theorem checks_entries :
    (checks random requests).flatMap Ledger.pending = requests.flatMap Ledger.entries := by
  have whole := Ledger.trace_entries (requests ++ [.check]) ⟨[], random⟩
  rw [trace_snoc_check, List.append_nil] at whole
  rw [checks, whole]
  simp [Ledger.entries]

/-- All that is opened goes through one check, and the session fails exactly when a check does not
pass. When it succeeds nothing waits to be checked. -/
theorem session_exact {m : Nat} (limits : Limits O T m) (short : ∀ r ∈ requests, r.AtMost m) :
    (checks random requests).flatMap Ledger.pending = requests.flatMap Ledger.entries ∧
    ((∀ C ∈ checks random requests, C.Passes O alphai) →
      ∃ M : Fin n → MacCheck F, (∀ i, (M i).waitingForCheck = 0) ∧
        Settles (fun i => (session O T alphai random requests i).run)
          fun i => .ok (requests.flatMap Ledger.opened, M i)) ∧
    (¬(∀ C ∈ checks random requests, C.Passes O alphai) →
      Settles (fun i => (session O T alphai random requests i).run) fun _ => .error .mac_fail) := by
  have within : ∀ r ∈ requests ++ [.check], r.AtMost m :=
    List.forall_mem_append.2 ⟨short, by simp [Request.AtMost]⟩
  have realizes := realizes_serve O limits (Ledger.kept_new alphai random) within
  rw [Ledger.serve_eq] at realizes
  change Realizes _ _ (if ∀ C ∈ checks random requests, C.Passes O alphai then _ else _) at realizes
  refine ⟨checks_entries random requests, fun passes => ?_, fun fails => ?_⟩
  · rw [if_pos passes] at realizes
    obtain ⟨a, settles, M, rfl, kept⟩ := realizes.settles_ok
    refine ⟨M, fun i => ?_, ?_⟩
    · rw [waiting_eq kept.toColumns kept.counted, trace_snoc_check]
      rfl
    · rwa [List.flatMap_append, List.flatMap_singleton, Ledger.opened, List.append_nil] at settles
  · rw [if_neg fails] at realizes
    exact realizes.settles_error

def plainOutside : Outside (ZMod 3) := ⟨TreeSum.oneOctet, id, fun _ _ => 1⟩

theorem plainLimits : Limits plainOutside (⟨2, 2, 2⟩ : TreeSum 4) 2 where
  levels := by decide
  opening := by decide
  wide := by decide
  numbers := by decide
  count := by decide
  octets := by decide

/-- The second value is opened without a MAC. -/
def openTwo : List (Request (ZMod 3) (Shared 4 (ZMod 3))) :=
  [.pOpen [constant (fun _ => 1) (1 + 1), fun _ => ⟨1, 0⟩]]

theorem session_exact_openTwo :
    (checks (fun _ _ => 0) openTwo).flatMap Ledger.pending = openTwo.flatMap Ledger.entries ∧
    Settles (fun i => (session plainOutside ⟨2, 2, 2⟩ (fun _ => 1) (fun _ _ => 0) openTwo i).run)
      fun _ => .error .mac_fail := by
  obtain ⟨whole, _, fails⟩ := session_exact plainOutside ⟨2, 2, 2⟩ (fun _ => 1) (fun _ _ => 0) openTwo
    plainLimits (by simp [openTwo, Request.AtMost])
  refine ⟨whole, fails ?_⟩
  decide

theorem session_authentic {m : Nat} (limits : Limits O T m) (short : ∀ r ∈ requests, r.AtMost m)
    (authentic : ∀ r ∈ requests, ∀ d ∈ Ledger.entries r,
      macSum d.1 = (∑ j, alphai j) * d.2) :
    ∃ M : Fin n → MacCheck F, (∀ i, (M i).waitingForCheck = 0) ∧
      Settles (fun i => (session O T alphai random requests i).run)
        fun i => .ok (requests.flatMap Ledger.opened, M i) := by
  obtain ⟨whole, succeeds, _⟩ := session_exact O T alphai random requests limits short
  refine succeeds fun C member => Ledger.passes_of_zero fun d inside => ?_
  have covered : d ∈ requests.flatMap Ledger.entries := by
    rw [← whole]
    exact List.mem_flatMap.2 ⟨C, member, inside⟩
  obtain ⟨r, asked, entry⟩ := List.mem_flatMap.1 covered
  exact sub_eq_zero.2 (authentic r asked d entry)

end Sessions

def openConstant : List (Request (ZMod 3) (Shared 4 (ZMod 3))) :=
  [.pOpen [constant (fun _ => 1) (1 + 1)]]

theorem session_authentic_openConstant : ∃ M : Fin 4 → MacCheck (ZMod 3),
    (∀ i, (M i).waitingForCheck = 0) ∧
      Settles (fun i => (session plainOutside ⟨2, 2, 2⟩ (fun _ => 1) (fun _ _ => 0) openConstant i).run)
        fun i => .ok (openConstant.flatMap Ledger.opened, M i) :=
  session_authentic plainOutside ⟨2, 2, 2⟩ (fun _ => 1) (fun _ _ => 0) openConstant
    plainLimits (by simp [openConstant, Request.AtMost]) (by
      intro r asked d entry
      obtain rfl := List.mem_singleton.1 asked
      obtain rfl := List.mem_singleton.1 entry
      exact (mem_authentic _).1 (constant_authentic _ _))

end MacCheck

end ProofOfCustody.Spdz
