import Mathlib
import ProofOfCustody.Spdz.TreeSum

/-!
# Runs of a tree of sums

The sums travel to the base player in rounds of one level each, and back in rounds of one depth each.
-/

namespace ProofOfCustody.Spdz
open Network Process Networking Tools Script

section Values
variable {F : Type} [AddCommMonoid F] (enc : Encoding F)

omit [AddCommMonoid F] in
theorem packAll_data (values : List F) (os : OctetStream) :
    (packAll enc values os).data = os.data ++ values.flatMap enc.pack := by
  induction values generalizing os with
  | nil => simp [packAll]
  | cons v values ih =>
      change (packAll enc values (os.append (enc.pack v))).data = _
      rw [ih, OctetStream.append, List.flatMap_cons, List.append_assoc]

def message (values : List F) : Octets := (packAll enc values .empty).data

omit [AddCommMonoid F] in
theorem message_eq (values : List F) : message enc values = values.flatMap enc.pack := by
  rw [message, packAll_data]
  rfl

omit [AddCommMonoid F] in
theorem length_message (values : List F) :
    (message enc values).length = values.length * enc.size := by
  rw [message_eq]
  induction values with
  | nil => simp
  | cons v values ih =>
      rw [List.flatMap_cons, List.length_append, ih, enc.length_pack, List.length_cons]
      ring

theorem reads_addAll (vs ws : List F) (same : vs.length = ws.length) :
    OctetStream.Reads (addAll enc vs) (ws.flatMap enc.pack) (List.zipWith (· + ·) vs ws) := by
  induction vs generalizing ws with
  | nil =>
      obtain rfl := List.length_eq_zero_iff.1 same.symm
      exact .ret []
  | cons v vs ih =>
      obtain ⟨w, ws, rfl⟩ := List.exists_cons_of_length_eq_add_one same.symm
      have tail := (ih ws (Nat.succ.inj same)).map ((v + w) :: ·)
      rw [List.flatMap_cons, List.zipWith_cons_cons]
      refine (OctetStream.Reads.consume (enc.length_pack w)).bind
        (f := fun x os => addAll enc vs os >>= fun r =>
        pure ((v + enc.unpack x) :: r.1, r.2)) ?_
      simpa only [enc.unpack_pack] using tail

omit [AddCommMonoid F] in
theorem reads_unpackAll (vs ws : List F) (same : vs.length = ws.length) :
    OctetStream.Reads (unpackAll enc vs) (ws.flatMap enc.pack) ws := by
  induction vs generalizing ws with
  | nil =>
      obtain rfl := List.length_eq_zero_iff.1 same.symm
      exact .ret []
  | cons v vs ih =>
      obtain ⟨w, ws, rfl⟩ := List.exists_cons_of_length_eq_add_one same.symm
      have tail := (ih ws (Nat.succ.inj same)).map (w :: ·)
      rw [List.flatMap_cons]
      refine (OctetStream.Reads.consume (enc.length_pack w)).bind
        (f := fun x os => unpackAll enc vs os >>= fun r =>
        pure (enc.unpack x :: r.1, r.2)) ?_
      simpa only [enc.unpack_pack] using tail

variable {n k : Nat}

theorem zipWith_add_ofFn (v w : Fin k → F) :
    List.zipWith (· + ·) (List.ofFn v) (List.ofFn w) = List.ofFn (v + w) := by
  refine List.ext_getElem (by simp) fun i _ _ => ?_
  simp

theorem ofStream_addAll (v w : Fin k → F) :
    ∃ os, (Play.ofStream (addAll enc (List.ofFn v) ⟨message enc (List.ofFn w), 0, Nat.zero_le _⟩) :
      Play n (List F × OctetStream)) = pure (List.ofFn (v + w), os) := by
  obtain ⟨os, read, _⟩ := (reads_addAll enc (List.ofFn v) (List.ofFn w) (by simp)).whole
    ⟨message enc (List.ofFn w), 0, Nat.zero_le _⟩ [] (by simp [OctetStream.unread, message_eq])
  rw [zipWith_add_ofFn] at read
  exact ⟨os, by rw [read]; rfl⟩

omit [AddCommMonoid F] in
theorem ofStream_unpackAll {values : List F} (w : Fin k → F) (length : values.length = k) :
    ∃ os, (Play.ofStream (unpackAll enc values ⟨message enc (List.ofFn w), 0, Nat.zero_le _⟩) :
      Play n (List F × OctetStream)) = pure (List.ofFn w, os) := by
  obtain ⟨os, read, _⟩ := (reads_unpackAll enc values (List.ofFn w) (by simp [length])).whole
    ⟨message enc (List.ofFn w), 0, Nat.zero_le _⟩ [] (by simp [OctetStream.unread, message_eq])
  exact ⟨os, by rw [read]; rfl⟩

end Values

namespace TreeSum
variable {n : Nat} (T : TreeSum n)

theorem relative_eq (i : Fin n) : T.relative i =
    if i.val < T.base_player then i + n - T.base_player else i - T.base_player := by
  have hi := i.isLt
  have hb := T.base_player.isLt
  rw [relative]
  split
  · rw [Nat.mod_eq_of_lt (by omega)]
    omega
  · rw [show i.val + (n - T.base_player) = (i - T.base_player) + n by omega, Nat.add_mod_right,
      Nat.mod_eq_of_lt (by omega)]

theorem relative_lt (i : Fin n) : T.relative i < n := Nat.mod_lt _ (Fin.pos i)

theorem player_val (r : Nat) : (T.player r).val = (T.base_player + r) % n := rfl

theorem player_relative (i : Fin n) : T.player (T.relative i) = i := by
  have hi := i.isLt
  have hb := T.base_player.isLt
  refine Fin.ext ?_
  rw [player_val, relative_eq]
  split
  · rw [show T.base_player + (i + n - T.base_player) = i + n by omega, Nat.add_mod_right,
      Nat.mod_eq_of_lt hi]
  · rw [show T.base_player + (i - T.base_player) = i.val by omega, Nat.mod_eq_of_lt hi]

theorem relative_player {r : Nat} (bound : r < n) : T.relative (T.player r) = r := by
  have hb := T.base_player.isLt
  have value : (T.player r).val = if T.base_player + r < n then T.base_player + r
      else T.base_player + r - n := by
    rw [player_val]
    split
    · exact Nat.mod_eq_of_lt (by assumption)
    · rw [Nat.mod_eq_sub_mod (by omega), Nat.mod_eq_of_lt (by omega)]
  rw [relative_eq, value]
  split <;> split <;> omega

theorem player_eq_iff {r : Nat} (bound : r < n) (i : Fin n) :
    T.player r = i ↔ r = T.relative i := by
  constructor
  · rintro rfl
    exact (T.relative_player bound).symm
  · rintro rfl
    exact T.player_relative i

theorem relative_base : T.relative T.base_player = 0 := by
  rw [relative_eq, if_neg (lt_irrefl _), Nat.sub_self]

theorem relative_eq_zero {i : Fin n} : T.relative i = 0 ↔ i = T.base_player := by
  constructor
  · intro zero
    rw [← T.player_relative i, zero, ← T.relative_base, T.player_relative]
  · rintro rfl
    exact T.relative_base

theorem sum_relative {M : Type} [AddCommMonoid M] (w : Fin n → M) :
    ∑ r ∈ Finset.range n, w (T.player r) = ∑ i, w i := by
  refine Finset.sum_bij' (fun r _ => T.player r) (fun i _ => T.relative i) ?_ ?_ ?_ ?_ ?_
  · exact fun _ _ => Finset.mem_univ _
  · exact fun i _ => Finset.mem_range.2 (T.relative_lt i)
  · exact fun r h => T.relative_player (Finset.mem_range.1 h)
  · exact fun i _ => T.player_relative i
  · exact fun _ _ => rfl

theorem mem_senders {sum last r : Nat} (some : 0 < sum) (q : Nat) :
    q ∈ senders sum last r ↔ r ≤ q ∧ q < last ∧ q % sum = r % sum := by
  induction size : last - r using Nat.strong_induction_on generalizing r with
  | _ _ ih =>
      rw [senders]
      by_cases inside : r < last
      · rw [if_pos ⟨some, inside⟩, List.mem_cons, ih _ (by omega) rfl, Nat.add_mod_right]
        constructor
        · rintro (rfl | ⟨later, bound, same⟩)
          · exact ⟨le_refl _, inside, rfl⟩
          · exact ⟨by omega, bound, same⟩
        · rintro ⟨later, bound, same⟩
          rcases later.eq_or_lt with rfl | more
          · exact .inl rfl
          · refine .inr ⟨?_, bound, same⟩
            -- equal residues lie a multiple of `sum` apart
            have apart : sum ∣ q - r := (Nat.modEq_iff_dvd' later).1 same.symm
            have := Nat.le_of_dvd (by omega) apart
            omega
      · rw [if_neg fun both => inside both.2]
        simp only [List.not_mem_nil, false_iff]
        omega

theorem senders_nodup (sum last r : Nat) : (senders sum last r).Nodup := by
  induction size : last - r using Nat.strong_induction_on generalizing r with
  | _ _ ih =>
      rw [senders]
      by_cases inside : 0 < sum ∧ r < last
      · rw [if_pos inside, List.nodup_cons]
        refine ⟨fun member => ?_, ih _ (by omega) _ rfl⟩
        have := ((mem_senders inside.1 _).1 member).1
        omega
      · rw [if_neg inside]
        exact .nil

theorem mem_senders_level {sum last r : Nat} (inner : r < sum) (q : Nat) :
    q ∈ senders sum last (r + sum) ↔ (sum ≤ q ∧ q < last) ∧ q % sum = r := by
  rw [mem_senders (by omega), Nat.add_mod_right, Nat.mod_eq_of_lt inner]
  constructor
  · rintro ⟨later, bound, same⟩
    exact ⟨⟨by omega, bound⟩, same⟩
  · rintro ⟨⟨outer, bound⟩, same⟩
    refine ⟨?_, bound, same⟩
    have := Nat.div_add_mod q sum
    have : 1 ≤ q / sum := (Nat.le_div_iff_mul_le (by omega)).2 (by omega)
    have : sum * 1 ≤ sum * (q / sum) := Nat.mul_le_mul_left sum this
    omega

section Map
variable (m : Nat → Octets) {qs : List Nat} (distinct : qs.Nodup) (inside : ∀ q ∈ qs, q < n) (i : Fin n)
include distinct inside

theorem recvs_map : recvs i (qs.map fun q => .recv (T.player q) (m q)) =
    if T.relative i ∈ qs then [m (T.relative i)] else [] := by
  induction qs with
  | nil => rfl
  | cons q qs ih =>
      obtain ⟨fresh, distinct⟩ := List.nodup_cons.1 distinct
      rw [List.map_cons, recvs_cons_recv, ih distinct fun q' h => inside q' (by simp [h])]
      by_cases same : T.relative i = q
      · subst same
        simp [T.player_relative, fresh]
      · simp [T.player_eq_iff (inside q (by simp)), same, Ne.symm same]

theorem sends_map : sends i (qs.map fun q => .send (T.player q) (m q)) =
    if T.relative i ∈ qs then [m (T.relative i)] else [] := by
  induction qs with
  | nil => rfl
  | cons q qs ih =>
      obtain ⟨fresh, distinct⟩ := List.nodup_cons.1 distinct
      rw [List.map_cons, sends_cons_send, ih distinct fun q' h => inside q' (by simp [h])]
      by_cases same : T.relative i = q
      · subst same
        simp [T.player_relative, fresh]
      · simp [T.player_eq_iff (inside q (by simp)), same, Ne.symm same]

end Map

variable {F : Type} [AddCommMonoid F] (enc : Encoding F) {k : Nat}

def summed (W : Nat → Fin k → F) (sum last r : Nat) : Fin k → F :=
  if r < sum then W r + ((senders sum last (r + sum)).map W).sum else W r

theorem returns_addOpenings (octets : k * enc.size < 2 ^ 32) (W : Nat → Fin k → F) (qs : List Nat)
    (v : Fin k → F) :
    Play.Returns (qs.foldlM (fun values r => do
      let os ← Play.receive (T.player r)
      if os.data.length % 2 ^ 32 < values.length * enc.size then
        throw (.not_enough_information (values.length * enc.size) os.data.length)
      else
        let (values, _) ← Play.ofStream (addAll enc values os)
        return values) (List.ofFn v))
      (qs.map fun r => .recv (T.player r) (message enc (List.ofFn (W r))))
      (List.ofFn (v + (qs.map W).sum)) := by
  induction qs generalizing v with
  | nil => simpa using Play.returns_pure (List.ofFn v)
  | cons r qs ih =>
      rw [List.foldlM_cons, List.map_cons, List.map_cons, List.sum_cons, ← add_assoc]
      refine Play.Returns.bind (L := [_]) ?_ (ih (v + W r))
      refine (Play.returns_receive _ _).next ?_
      obtain ⟨os, added⟩ := ofStream_addAll enc v (W r)
      have length : (message enc (List.ofFn (W r))).length = k * enc.size := by
        rw [length_message, List.length_ofFn]
      have enough : ¬(message enc (List.ofFn (W r))).length % 2 ^ 32 <
          (List.ofFn v).length * enc.size := by
        rw [length, Nat.mod_eq_of_lt octets, List.length_ofFn]
        exact lt_irrefl _
      rw [if_neg enough, added]
      rfl

theorem sumLevel_eq (r sum last : Nat) (values : List F) : T.sumLevel enc r sum last values =
    (if sum ≤ r ∧ r < last then Play.send (T.player (r % sum)) (message enc values)
      else pure PUnit.unit) >>= fun _ =>
        if r < sum then T.addOpenings enc values r sum last else pure values := by
  rw [sumLevel]
  split
  · rfl
  · rw [pure_bind]

theorem rounds_sumLevel (octets : k * enc.size < 2 ^ 32) (W : Nat → Fin k → F) {sum last : Nat}
    (some : 0 < sum) (bound : last ≤ n) :
    Rounds 1 (fun i => (T.sumLevel enc (T.relative i) sum last (List.ofFn (W (T.relative i)))).run)
      fun i => .ok (List.ofFn (summed W sum last (T.relative i))) := by
  let S (i : Fin n) : List (Action (Fin n) Octets) :=
    if sum ≤ T.relative i ∧ T.relative i < last then
      [.send (T.player (T.relative i % sum)) (message enc (List.ofFn (W (T.relative i))))]
    else []
  let R (i : Fin n) : List (Action (Fin n) Octets) :=
    if T.relative i < sum then (senders sum last (T.relative i + sum)).map fun q =>
      .recv (T.player q) (message enc (List.ofFn (W q)))
    else []
  refine Rounds.single (S := S) (R := R) (fun i => ?_) (fun i e member => ?_)
    (fun i e member => ?_) fun i j => ?_
  · rw [sumLevel_eq]
    refine Play.Returns.bind (a := PUnit.unit) ?_ ?_
    · simp only [S]
      split
      · exact Play.returns_send _ _
      · exact Play.returns_pure _
    · simp only [R, summed]
      split
      · exact T.returns_addOpenings enc octets W _ _
      · exact Play.returns_pure _
  · simp only [S] at member
    split at member
    · exact ⟨_, _, List.mem_singleton.1 member⟩
    · simp at member
  · simp only [R] at member
    split at member
    · obtain ⟨q, _, rfl⟩ := List.mem_map.1 member
      exact ⟨_, _, rfl⟩
    · simp at member
  · -- `i` sends to `j` exactly when it is among the senders that `j` waits for
    have sent : sends j (S i) =
        if (sum ≤ T.relative i ∧ T.relative i < last) ∧ T.relative i % sum = T.relative j then
          [message enc (List.ofFn (W (T.relative i)))] else [] := by
      have inner : T.relative i % sum < n :=
        (Nat.mod_le _ _).trans_lt (T.relative_lt i)
      by_cases outer : sum ≤ T.relative i ∧ T.relative i < last
      · simp [S, outer, T.player_eq_iff inner]
      · simp [S, outer]
    by_cases receiver : T.relative j < sum
    · have inside (q : Nat) (member : q ∈ senders sum last (T.relative j + sum)) : q < n :=
        ((mem_senders_level receiver q).1 member).1.2.trans_le bound
      rw [sent, show R j = _ from if_pos receiver, T.recvs_map _ (senders_nodup _ _ _) inside]
      simp only [mem_senders_level receiver]
    · rw [sent, show R j = _ from if_neg receiver, recvs_nil, if_neg]
      rintro ⟨_, same⟩
      exact receiver (same ▸ Nat.mod_lt _ some)

theorem sum_summed (W : Nat → Fin k → F) {sum last : Nat} (some : 0 < sum) (less : sum ≤ last) :
    ∑ r ∈ Finset.range sum, summed W sum last r = ∑ r ∈ Finset.range last, W r := by
  have each (r : Nat) (h : r ∈ Finset.range sum) : summed W sum last r =
      W r + ∑ q ∈ Finset.Ico sum last with q % sum = r, W q := by
    rw [summed, if_pos (Finset.mem_range.1 h), ← List.sum_toFinset _ (senders_nodup _ _ _)]
    congr 2
    ext q
    rw [List.mem_toFinset, mem_senders_level (Finset.mem_range.1 h), Finset.mem_filter,
      Finset.mem_Ico]
  rw [Finset.sum_congr rfl each, Finset.sum_add_distrib,
    Finset.sum_fiberwise_of_maps_to fun q _ => Finset.mem_range.2 (Nat.mod_lt q some),
    Finset.sum_range_add_sum_Ico _ less]

theorem rounds_sumLoop (opening : 0 < T.opening_sum) (octets : k * enc.size < 2 ^ 32) (last : Nat)
    (bound : last ≤ n) (levels : last + T.opening_sum ≤ 2 ^ 31 + 1) (W : Nat → Fin k → F) :
    ∃ (len : Nat) (W' : Nat → Fin k → F),
      Rounds len (fun i => (T.sumLoop enc (T.relative i) last (List.ofFn (W (T.relative i)))).run)
        (fun i => .ok (List.ofFn (W' (T.relative i)))) ∧
      (0 < last → W' 0 = ∑ r ∈ Finset.range last, W r) := by
  induction last using Nat.strong_induction_on generalizing W with
  | _ last ih =>
      have fits : ¬(T.opening_sum = 0 ∨ 2 ^ 31 ≤ last + T.opening_sum - 2) := by omega
      by_cases stop : T.nextPlayers last = 0
      · refine ⟨0, W, (Rounds.ret_ok _).congr fun i => ?_, fun positive => ?_⟩
        · rw [sumLoop, if_neg fits, dif_pos stop]
        · rw [nextPlayers, Nat.div_eq_zero_iff] at stop
          rw [show last = 1 by omega, Finset.sum_range_one]
      · have less := T.nextPlayers_lt stop
        have some := Nat.pos_of_ne_zero stop
        obtain ⟨len, W', rounds, value⟩ :=
          ih _ less (by omega) (by omega) (summed W (T.nextPlayers last) last)
        refine ⟨1 + len, W', ?_, fun _ => ?_⟩
        · refine ((T.rounds_sumLevel enc octets W some bound).bind_ok rounds).congr fun i => ?_
          rw [sumLoop, if_neg fits, dif_neg stop]
        · rw [value some, sum_summed W some less.le]

/-! ## Passing the sums on -/

def depth (r : Nat) : Nat :=
  if _outer : 2 ≤ T.max_broadcast ∧ r ≠ 0 then depth (r / T.max_broadcast) + 1 else 0
termination_by r
decreasing_by exact Nat.div_lt_self (Nat.pos_of_ne_zero _outer.2) _outer.1

theorem depth_le (r : Nat) : T.depth r ≤ r := by
  induction r using Nat.strong_induction_on with
  | _ r ih =>
      rw [depth]
      split
      · rename_i outer
        have closer := Nat.div_lt_self (Nat.pos_of_ne_zero outer.2) outer.1
        have := ih _ closer
        omega
      · exact Nat.zero_le r

def children (r : Nat) : List Nat :=
  if r = 0 then (List.range (min T.max_broadcast n)).drop 1
  else (List.range T.max_broadcast).flatMap fun i =>
    if r * T.max_broadcast + i < n then [r * T.max_broadcast + i] else []

theorem mem_children (wide : 2 ≤ T.max_broadcast) (r q : Nat) :
    q ∈ T.children r ↔ q < n ∧ q ≠ 0 ∧ q / T.max_broadcast = r := by
  rw [children]
  split
  · rename_i base
    subst base
    rw [List.drop_one, List.range_eq_range', List.tail_range', List.mem_range'_1,
      Nat.div_eq_zero_iff]
    omega
  · rename_i other
    rw [List.mem_flatMap]
    constructor
    · rintro ⟨i, member, inside⟩
      split at inside
      · obtain rfl := List.mem_singleton.1 inside
        have small := List.mem_range.1 member
        refine ⟨by assumption, ?_, ?_⟩
        · have : 0 < r * T.max_broadcast := Nat.mul_pos (by omega) (by omega)
          omega
        · rw [Nat.mul_comm, Nat.mul_add_div (by omega), Nat.div_eq_of_lt small, Nat.add_zero]
      · simp at inside
    · rintro ⟨bound, _, rfl⟩
      refine ⟨q % T.max_broadcast, List.mem_range.2 (Nat.mod_lt _ (by omega)), ?_⟩
      rw [Nat.div_add_mod', if_pos bound]
      exact List.mem_singleton_self q

theorem children_nodup (r : Nat) : (T.children r).Nodup := by
  rw [children]
  split
  · exact List.nodup_range.drop
  · refine List.nodup_flatMap.2 ⟨fun i _ => ?_, ?_⟩
    · split
      · exact List.nodup_singleton _
      · exact .nil
    · refine List.nodup_range.imp fun {i i'} other => ?_
      intro q first second
      simp only [List.mem_ite_nil_right, List.mem_singleton] at first second
      omega

variable {values : List F} (total : Fin k → F)

def passing (r : Nat) : Script (Fin n) Octets :=
  (if r = 0 then [] else [(T.depth (r / T.max_broadcast),
    .recv (T.player (r / T.max_broadcast)) (message enc (List.ofFn total)))]) ++
  atRound (T.depth r) ((T.children r).map fun q =>
    .send (T.player q) (message enc (List.ofFn total)))

omit [AddCommMonoid F] in
theorem returns_receiveValues (sender : Fin n) (length : values.length = k) :
    Play.Returns (receiveValues enc values sender)
      [.recv sender (message enc (List.ofFn total))]
      (List.ofFn total, message enc (List.ofFn total)) := by
  refine (Play.returns_receive _ _).next ?_
  obtain ⟨os, read⟩ := ofStream_unpackAll enc total length
  rw [read]
  rfl

theorem receiver_eq (numbers : n * T.max_broadcast < 2 ^ 31) {r i : Nat} (player : r < n)
    (child : i < T.max_broadcast) : T.receiver r i = pure (r * T.max_broadcast + i) := by
  have below : (r + 1) * T.max_broadcast ≤ n * T.max_broadcast := Nat.mul_le_mul_right _ player
  rw [Nat.succ_mul] at below
  rw [receiver, if_neg (by omega)]

omit [AddCommMonoid F] in
theorem returns_passing (wide : 2 ≤ T.max_broadcast) (numbers : n * T.max_broadcast < 2 ^ 31)
    (i : Fin n) (length : values.length = k)
    (base : T.relative i = 0 → values = List.ofFn total) :
    Play.Returns (T.broadcast enc i values >>= T.finish enc i)
      (actions (T.passing enc total (T.relative i))) (List.ofFn total) := by
  have bound := T.relative_lt i
  have first : T.receiver (T.relative i) 0 = pure (T.relative i * T.max_broadcast) :=
    T.receiver_eq numbers bound (by omega)
  rw [passing, actions_append, actions_atRound]
  by_cases zero : T.relative i = 0
  · obtain rfl := T.relative_eq_zero.1 zero
    obtain rfl := base zero
    rw [if_pos zero, zero]
    refine Play.Returns.next (a := List.ofFn total) ?_ ?_
    · rw [broadcast, if_pos rfl]
      refine Play.Returns.next (a := PUnit.unit) ?_ rfl
      rw [children, if_pos rfl, List.map_eq_flatMap]
      exact Play.returns_forM_send _ _ _ fun q _ => Play.returns_send _ _
    · rw [finish, first, pure_bind, if_neg (by rw [zero]; omega)]
  · have other : i ≠ T.base_player := fun same => zero (T.relative_eq_zero.2 same)
    have receives := returns_receiveValues enc total (T.player (T.relative i / T.max_broadcast)) length
    rw [if_neg zero]
    by_cases inner : T.relative i * T.max_broadcast < n
    · refine Play.Returns.next (a := List.ofFn total) ?_ ?_
      · rw [broadcast, if_neg other, first, pure_bind, if_pos inner]
        refine receives.bind (Play.Returns.next (a := PUnit.unit) ?_ rfl)
        rw [children, if_neg zero, List.map_flatMap]
        refine Play.returns_forM_send _ _ _ fun q member => ?_
        rw [T.receiver_eq numbers bound (List.mem_range.1 member), pure_bind]
        by_cases receiver : T.relative i * T.max_broadcast + q < n
        · simpa only [if_pos receiver, List.map_cons, List.map_nil] using Play.returns_send _ _
        · simpa only [if_neg receiver, List.map_nil] using Play.returns_pure _
      · rw [finish, first, pure_bind, if_neg (by omega)]
    · have leaf : T.children (T.relative i) = [] := by
        refine List.eq_nil_iff_forall_not_mem.2 fun q member => ?_
        obtain ⟨small, _, parent⟩ := (T.mem_children wide _ _).1 member
        have := Nat.div_mul_le_self q T.max_broadcast
        rw [parent] at this
        omega
      rw [leaf, List.map_nil, List.append_nil, broadcast, if_neg other, first, pure_bind,
        if_neg inner, pure_bind, finish, first, pure_bind, if_pos (by omega)]
      exact receives.next rfl

omit [AddCommMonoid F] in
theorem mem_atRound_send {d : Nat} {qs : List Nat} {m : Octets} {e : Nat × Action (Fin n) Octets}
    (member : e ∈ atRound d (qs.map fun q => Action.send (T.player q) m)) :
    ∃ q, e = (d, .send (T.player q) m) := by
  obtain ⟨_, inside, rfl⟩ := List.mem_map.1 member
  obtain ⟨q, _, rfl⟩ := List.mem_map.1 inside
  exact ⟨q, rfl⟩

omit [AddCommMonoid F] in
theorem rounds_passing (wide : 2 ≤ T.max_broadcast) (numbers : n * T.max_broadcast < 2 ^ 31)
    {values : Fin n → List F}
    (length : ∀ i, (values i).length = k) (base : ∀ i, T.relative i = 0 → values i = List.ofFn total) :
    Rounds n (fun i => (T.broadcast enc i (values i) >>= T.finish enc i).run)
      fun _ => .ok (List.ofFn total) := by
  refine ⟨fun i => T.passing enc total (T.relative i),
    fun i => T.returns_passing enc total wide numbers i (length i) (base i), fun i => ?_,
    fun i e member => ?_,
    fun i j => ?_⟩
  · refine List.pairwise_append.2 ⟨?_, ?_, fun e he e' he' => ?_⟩
    · split
      · exact .nil
      · exact List.pairwise_singleton _ _
    · refine List.pairwise_of_forall_mem_list fun e he e' he' => ?_
      obtain ⟨_, rfl⟩ := T.mem_atRound_send he
      obtain ⟨_, rfl⟩ := T.mem_atRound_send he'
      exact le_refl _
    · obtain ⟨_, rfl⟩ := T.mem_atRound_send he'
      split at he
      · simp at he
      · rename_i other
        obtain rfl := List.mem_singleton.1 he
        have later : T.depth (T.relative i) = T.depth (T.relative i / T.max_broadcast) + 1 := by
          rw [depth, dif_pos ⟨wide, other⟩]
        simp only [rank]
        omega
  · have bound := T.relative_lt i
    rcases List.mem_append.1 member with received | sent
    · split at received
      · simp at received
      · obtain rfl := List.mem_singleton.1 received
        exact ((T.depth_le _).trans (Nat.div_le_self _ _)).trans_lt bound
    · obtain ⟨_, rfl⟩ := T.mem_atRound_send sent
      exact (T.depth_le _).trans_lt bound
  · have inside (q : Nat) (member : q ∈ T.children (T.relative i)) : q < n :=
      ((T.mem_children wide _ q).1 member).1
    have inner : T.relative j / T.max_broadcast < n :=
      (Nat.div_le_self _ _).trans_lt (T.relative_lt j)
    have waiting (d : Nat) (qs : List Nat) : recvsAt i (atRound d (qs.map fun q =>
        Action.send (T.player q) (message enc (List.ofFn total)))) = [] := by
      refine List.filterMap_eq_nil_iff.2 fun e member => ?_
      obtain ⟨_, rfl⟩ := T.mem_atRound_send member
      rfl
    have received : recvsAt i (T.passing enc total (T.relative j)) =
        if T.relative j ≠ 0 ∧ T.relative j / T.max_broadcast = T.relative i then
          [(T.depth (T.relative i), message enc (List.ofFn total))] else [] := by
      rw [passing, recvsAt_append, waiting, List.append_nil]
      by_cases base : T.relative j = 0
      · simp [base, recvsAt]
      · by_cases parent : T.relative j / T.max_broadcast = T.relative i
        · rw [if_neg base, recvsAt_cons_recv, parent, if_pos (T.player_relative i), if_pos ⟨base, rfl⟩]
          rfl
        · rw [if_neg base, recvsAt_cons_recv, if_neg (parent ∘ (T.player_eq_iff inner i).1),
            if_neg (parent ∘ And.right)]
          rfl
    have sent : sendsAt j (T.passing enc total (T.relative i)) =
        if T.relative j ∈ T.children (T.relative i) then
          [(T.depth (T.relative i), message enc (List.ofFn total))] else [] := by
      have none : sendsAt j (if T.relative i = 0 then ([] : Script (Fin n) Octets) else
          [(T.depth (T.relative i / T.max_broadcast), .recv (T.player (T.relative i / T.max_broadcast))
            (message enc (List.ofFn total)))]) = [] := by
        split
        · rfl
        · rw [sendsAt_cons_recv]
          rfl
      rw [passing, sendsAt_append, none, List.nil_append, sendsAt_atRound,
        T.sends_map (fun _ => message enc (List.ofFn total)) (T.children_nodup _) inside]
      split <;> rfl
    rw [sent, received]
    simp only [T.mem_children wide, T.relative_lt j, true_and]

theorem run_eq (i : Fin n) (values : List F) : T.run enc i values =
    T.sumLoop enc (T.relative i) n values >>= fun values =>
      T.broadcast enc i values >>= T.finish enc i :=
  bind_assoc _ _ _

section Whole
variable (levels : n + T.opening_sum ≤ 2 ^ 31 + 1) (opening : 0 < T.opening_sum)
  (wide : 2 ≤ T.max_broadcast) (numbers : n * T.max_broadcast < 2 ^ 31)
  (octets : k * enc.size < 2 ^ 32)
include levels opening wide numbers octets

theorem rounds_run (w : Fin n → Fin k → F) :
    ∃ len, Rounds len (fun i => (T.run enc i (List.ofFn (w i))).run)
      fun _ => .ok (List.ofFn (∑ j, w j)) := by
  obtain ⟨len, W, sums, value⟩ := T.rounds_sumLoop enc opening octets n le_rfl levels
    fun r => w (T.player r)
  have passed : Rounds n (fun i =>
      (T.broadcast enc i (List.ofFn (W (T.relative i))) >>= T.finish enc i).run)
      fun _ => .ok (List.ofFn (∑ j, w j)) :=
    T.rounds_passing enc _ wide numbers (fun _ => List.length_ofFn) fun i base => by
      rw [base, value (Fin.pos i), T.sum_relative]
  refine ⟨len + n, (Rounds.bind_ok (f := fun i values => T.broadcast enc i values >>= T.finish enc i)
    sums passed).congr fun i => ?_⟩
  rw [run_eq, T.player_relative]

/-- However the messages are interleaved, opening comes to an end, and with every player holding the
sums of the values of all players. -/
theorem run_settles (w : Fin n → Fin k → F) :
    Settles (fun i => (T.run enc i (List.ofFn (w i))).run) fun _ => .ok (List.ofFn (∑ j, w j)) := by
  obtain ⟨len, rounds⟩ := T.rounds_run enc levels opening wide numbers octets w
  exact rounds.settles

end Whole

def oneOctet : Encoding (ZMod 3) where
  size := 1
  pack x := [UInt8.ofNat x.val]
  unpack o := (o.headD 0).toNat
  length_pack _ := rfl
  unpack_pack := by decide

theorem run_settles_four : Settles
    (fun i => ((⟨2, 2, 2⟩ : TreeSum 4).run oneOctet i (List.ofFn fun _ : Fin 2 => (i.val : ZMod 3))).run)
    fun _ => .ok (List.ofFn (∑ j : Fin 4, fun _ : Fin 2 => (j.val : ZMod 3))) :=
  TreeSum.run_settles ⟨2, 2, 2⟩ oneOctet (by decide) (by decide) (by decide) (by decide) (by decide) _

end TreeSum

end ProofOfCustody.Spdz
