import Mathlib
import ProofOfCustody.Bls.KeygenSpec
import ProofOfCustody.OnlineOp.Inputs
import ProofOfCustody.OnlineOp.LocalSpec

/-!
# Private inputs

`Input` of one player. The players take turns: one sends its masked inputs to all others, who wait
for them.
-/

namespace ProofOfCustody.Processor
open Effect Spdz Network Process Networking Tools OnlineOp.Local

variable {n : Nat} {F : Type} [Field F]

structure Input (n : Nat) (F : Type) where
  os : Fin n → OctetStream
  /-- What `shares[player].next()` will yield. -/
  shares : Fin n → List (Share F)

namespace Input

def resetAll : Input n F := ⟨fun _ => .empty, fun _ => []⟩

def addMine (K : Seat n F) (input : F) (I : Input n F) : Local n F (Input n F) := do
  let player := K.my_num
  let (share, rr) ← Local.getInput player
  let t := input - rr
  return { I with
    os := Function.update I.os player ((I.os player).append (K.outside.enc.pack t))
    shares := Function.update I.shares player (I.shares player ++ [share + constant K t]) }

/-- The value of the mask is not used. -/
def addOther (player : Fin n) (I : Input n F) : Local n F (Input n F) := do
  let (share, _) ← Local.getInput player
  return { I with shares := Function.update I.shares player (I.shares player ++ [share]) }

def addFromAll (K : Seat n F) (input : F) (I : Input n F) : Local n F (Input n F) :=
  (List.finRange n).foldlM (fun I i => if i = K.my_num then addMine K input I else addOther i I) I

/-- The loop of `exchange`: `send_mine` or `receive_player` -/
def exchangeWith (my_num : Fin n) :
    List (Fin n) → (Fin n → OctetStream) → Process (Fin n) Octets (Fin n → OctetStream)
  | [], os => ret os
  | i :: players, os =>
    if i = my_num then do
      Bls.sendAll my_num (os my_num).data
      exchangeWith my_num players os
    else do
      let o ← receive i
      exchangeWith my_num players (Function.update os i (.append o .empty))

def exchange (K : Seat n F) (I : Input n F) : Local n F (Input n F) := fun M =>
  ExceptT.mk (ExceptT.lift (exchangeWith K.my_num (List.finRange n) I.os) >>= fun os =>
    pure (.ok ({ I with os }, M)))

/-- `finalize_mine` and `finalize_other` -/
def finalize (K : Seat n F) (player : Fin n) (I : Input n F) : Local n F (Share F × Input n F) :=
  match I.shares player with
  | [] => Local.throw .undefined
  | share :: rest =>
    let I := { I with shares := Function.update I.shares player rest }
    if player = K.my_num then return (share, I)
    else fun M => ExceptT.mk (Play.ofStream ((I.os player).consume K.outside.enc.size) >>= fun r =>
      pure (.ok ((share + constant K (K.outside.enc.unpack r.1),
        { I with os := Function.update I.os player r.2 }), M)))

end Input

def getInputs (K : Seat n F) (party : Fin n) (inputs : F) : Local n F (Share F) := do
  let input0 : Input n F := .resetAll
  let input0 ← input0.addFromAll K inputs
  let input0 ← input0.exchange K
  let (sa, _) ← input0.finalize K party
  return sa

namespace Input

def delivered (os : OctetStream) : OctetStream := .append os.data .empty

theorem rounds_turn (k : Fin n) (os : Fin n → Fin n → OctetStream) :
    Rounds 1 (fun i => if k = i then (do Bls.sendAll i (os i i).data; return os i)
        else (do let o ← receive k; return Function.update (os i) k (.append o .empty)))
      fun i => if k = i then os i else Function.update (os i) k (delivered (os k k)) := by
  refine Rounds.single
    (S := fun i => if k = i then sendActions (Bls.others i) fun _ => [(os i i).data] else [])
    (R := fun i => if k = i then [] else [.recv k (os k k).data]) (fun i => ?_) (fun i e member => ?_)
    (fun i e member => ?_) fun i j => ?_
  · by_cases own : k = i
    · simp only [if_pos own]
      rw [List.append_nil]
      refine runs_bind.2 ⟨_, PUnit.unit, [], (List.append_nil _).symm, ?_, .stop _⟩
      exact (Bls.runs_sendAll i _ _ _).2 rfl
    · simp only [if_neg own]
      exact runs_bind.2 ⟨_, _, [], (List.append_nil _).symm, runs_receive.2 rfl, .stop _⟩
  · split at member
    · obtain ⟨j, _, inside⟩ := List.mem_flatMap.1 member
      obtain ⟨m, _, rfl⟩ := List.mem_map.1 inside
      exact ⟨j, m, rfl⟩
    · exact absurd member List.not_mem_nil
  · split at member
    · exact absurd member List.not_mem_nil
    · obtain rfl := List.mem_singleton.1 member
      exact ⟨_, _, rfl⟩
  · by_cases sender : k = i
    · subst sender
      rw [if_pos rfl, sends_sendActions _ (Bls.nodup_others k)]
      by_cases own : k = j
      · simp [own]
      · simp [own, Ne.symm own]
    · rw [if_neg sender]
      by_cases own : k = j
      · simp [own]
      · simp [own, sender]

theorem rounds_exchangeWith (players : List (Fin n)) (os : Fin n → Fin n → OctetStream) :
    Rounds players.length (fun i => exchangeWith i players (os i)) fun i j =>
      if j ∈ players ∧ j ≠ i then delivered (os j j) else os i j := by
  induction players generalizing os with
  | nil => exact (Rounds.ret os).congr fun i => rfl
  | cons k players ih =>
      let os' (i : Fin n) : Fin n → OctetStream :=
        if k = i then os i else Function.update (os i) k (delivered (os k k))
      have kept (j : Fin n) : os' j j = os j j := by
        by_cases own : k = j
        · simp [os', own]
        · simp [os', own, Ne.symm own]
      have rest := (rounds_turn k os).bind (f := fun i os => exchangeWith i players os) (ih os')
      have whole : (fun i j => if j ∈ k :: players ∧ j ≠ i then delivered (os j j) else os i j) =
          fun i j => if j ∈ players ∧ j ≠ i then delivered (os' j j) else os' i j := by
        funext i j
        rw [kept]
        by_cases same : j = k
        · subst same
          by_cases own : j = i
          · simp [os', own]
          · by_cases again : j ∈ players <;> simp [os', own, again]
        · have unchanged : os' i j = os i j := by
            by_cases own : k = i
            · simp [os', own]
            · simp [os', own, same]
          simp only [unchanged, List.mem_cons, same, false_or]
      rw [whole, List.length_cons, Nat.add_comm]
      refine rest.congr fun i => ?_
      by_cases own : k = i
      · rw [exchangeWith, if_pos own, if_pos own, bind_assoc]
        rfl
      · rw [exchangeWith, if_neg own, if_neg own, bind_assoc]
        rfl

section Added
variable (alphai : Fin n → F) (O : Outside F) (T : TreeSum n) (i : Fin n)

def entered (player : Fin n) (a : Shared n F × F) (I : Input n F) : Input n F :=
  if player = i then
    { os := Function.update I.os player ((I.os player).append (O.enc.pack a.2))
      shares := Function.update I.shares player
        (I.shares player ++ [a.1 i + constant (seat O T alphai i) a.2]) }
  else { I with shares := Function.update I.shares player (I.shares player ++ [a.1 i]) }

def enteredAll : List (Fin n) → List (Shared n F × F) → Input n F → Input n F
  | player :: players, a :: added, I =>
    enteredAll players added (entered alphai O T i player a I)
  | _, _, I => I

end Added

variable {alphai : Fin n → F} {O : Outside F} {T : TreeSum n} {W : Submodule F (Shared n F)}

section Added
variable {i player : Fin n} {a : Shared n F × F} {I : Input n F}

theorem entered_os : (entered alphai O T i player a I).os player =
    if player = i then (I.os player).append (O.enc.pack a.2) else I.os player := by
  unfold entered
  split <;> simp only [Function.update_self]

theorem entered_shares : (entered alphai O T i player a I).shares player = I.shares player ++
    if player = i then [a.1 i + constant (seat O T alphai i) a.2] else [a.1 i] := by
  unfold entered
  split <;> simp only [Function.update_self]

theorem entered_apart {j : Fin n} (apart : j ≠ player) :
    (entered alphai O T i player a I).os j = I.os j ∧
      (entered alphai O T i player a I).shares j = I.shares j := by
  unfold entered
  split <;> simp [apart]

theorem enteredAll_apart {players : List (Fin n)} {added : List (Shared n F × F)}
    (apart : player ∉ players) :
    (enteredAll alphai O T i players added I).os player = I.os player ∧
      (enteredAll alphai O T i players added I).shares player = I.shares player := by
  induction players generalizing added I with
  | nil => exact ⟨rfl, rfl⟩
  | cons k players ih =>
      rw [List.mem_cons, not_or] at apart
      cases added with
      | nil => exact ⟨rfl, rfl⟩
      | cons b added =>
          obtain ⟨os, shares⟩ := ih (I := entered alphai O T i k b I) apart.2
          obtain ⟨os', shares'⟩ := entered_apart (a := b) (I := I) apart.1
          exact ⟨os.trans os', shares.trans shares'⟩

theorem enteredAll_of_mem {players : List (Fin n)} {added : List (Shared n F × F)}
    (nodup : players.Nodup) (turn : (player, a) ∈ players.zip added) :
    (enteredAll alphai O T i players added I).os player =
        (entered alphai O T i player a I).os player ∧
      (enteredAll alphai O T i players added I).shares player =
        (entered alphai O T i player a I).shares player := by
  induction players generalizing added I with
  | nil => exact absurd turn (by simp)
  | cons k players ih =>
      cases added with
      | nil => exact absurd turn (by simp)
      | cons b added =>
          rw [List.nodup_cons] at nodup
          rw [List.zip_cons_cons, List.mem_cons] at turn
          rcases turn with head | tail
          · obtain ⟨rfl, rfl⟩ := Prod.mk.inj head
            exact enteredAll_apart nodup.1
          · have apart : player ≠ k := fun same => nodup.1 (same ▸ (List.of_mem_zip tail).1)
            obtain ⟨os, shares⟩ := ih (I := entered alphai O T i k b I) nodup.2 tail
            obtain ⟨os', shares'⟩ := entered_apart (a := b) (I := I) apart
            refine ⟨os.trans ?_, shares.trans ?_⟩
            · rw [entered_os, entered_os, os']
            · rw [entered_shares, entered_shares, shares']

end Added

variable [DecidableEq F]

theorem add_localizes (covers : Shared.Authentic alphai ≤ W) (inputs : Fin n → F) (player : Fin n)
    (I : Fin n → Input n F) :
    Localizes O W (fun a => a.1 ∈ W) (fun i a => entered alphai O T i player a (I i))
      (OnlineOp.addInput inputs player : Online alphai _) fun i =>
        if player = i then addMine (seat O T alphai i) (inputs i) (I i) else addOther player (I i) := by
  let next (i : Fin n) (r : Share F × F) : Input n F :=
    if player = i then
      { os := Function.update (I i).os i (((I i).os i).append (O.enc.pack (inputs i - r.2)))
        shares := Function.update (I i).shares i
          ((I i).shares i ++ [r.1 + constant (seat O T alphai i) (inputs i - r.2)]) }
    else { I i with shares := Function.update (I i).shares player ((I i).shares player ++ [r.1]) }
  refine ((Localizes.take (Site.input player)).bind
    (f := fun mask : InputMask alphai => .ret (mask.share, inputs player - mask.rr))
    (g := fun i r => pure (next i r))
    fun (mask : InputMask alphai) _ => .ret_of (covers mask.authentic) fun i => ?_).congr fun i => ?_
  · by_cases own : player = i
    · subst own
      simp only [next, entered, if_true, Kind.part]
    · simp only [next, entered, if_neg own, Kind.part]
  · by_cases own : player = i
    · subst own
      simp only [next, if_true]
      rfl
    · rw [if_neg own]
      simp only [next, if_neg own]
      rfl

theorem addAll_localizes (covers : Shared.Authentic alphai ≤ W) (inputs : Fin n → F)
    (players : List (Fin n)) (I : Fin n → Input n F) :
    Localizes O W (fun added => added.length = players.length ∧ ∀ a ∈ added, a.1 ∈ W)
      (fun i added => enteredAll alphai O T i players added (I i))
      (players.mapM (OnlineOp.addInput inputs) : Online alphai _) fun i =>
        players.foldlM (fun I player => if player = i then addMine (seat O T alphai i) (inputs i) I
          else addOther player I) (I i) := by
  induction players generalizing I with
  | nil => exact .ret ⟨rfl, fun a member => absurd member List.not_mem_nil⟩
  | cons player players ih =>
      rw [List.mapM_cons]
      refine ((add_localizes covers inputs player I).bind
        (f := fun a => players.mapM (OnlineOp.addInput inputs) >>= fun added => pure (a :: added))
        fun a inside => ?_).congr fun i => List.foldlM_cons
      refine (ih fun i => entered alphai O T i player a (I i)).map (a :: ·)
        (fun added h => ⟨congrArg (· + 1) h.1, List.forall_mem_cons.2 ⟨inside, h.2⟩⟩)
        fun i added _ => rfl

omit [DecidableEq F] in
theorem announced_broadcast (t : List F) (tape : Tape (spdz alphai)) :
    announced ((OnlineOp.broadcastInputs t : Online alphai Unit).run tape).events = [] ∧
      ((OnlineOp.broadcastInputs t : Online alphai Unit).run tape).rest = tape ∧
      ((OnlineOp.broadcastInputs t : Online alphai Unit).run tape).result = .ok () := by
  rw [OnlineOp.broadcastInputs]
  generalize sent : List.zipWith _ _ t = events
  have inputs : ∀ e ∈ events, e.step.checked = false := by
    rw [← sent]
    intro e member
    obtain ⟨x, _, rfl⟩ := List.mem_map.1 (List.map_uncurry_zip_eq_zipWith ▸ member)
    rfl
  clear sent
  induction events with
  | nil => exact ⟨rfl, rfl, rfl⟩
  | cons e events ih =>
      obtain ⟨none, rest, result⟩ := ih fun e member => inputs e (List.mem_cons_of_mem _ member)
      rw [Program.emitAll_cons]
      refine ⟨?_, rest, result⟩
      change announced (e :: _) = []
      rw [announced, List.filter_cons_of_neg (by simp [inputs e (List.mem_cons_self ..)])]
      exact none

theorem exchange_localizes (t : List F) (I : Fin n → Input n F) :
    Localizes O W (fun _ => True)
      (fun i _ => { I i with os := fun j => if j ≠ i then delivered ((I j).os j) else (I i).os j })
      (OnlineOp.broadcastInputs t : Online alphai Unit) fun i => exchange (seat O T alphai i) (I i) := by
  intro tape
  obtain ⟨none, rest, result⟩ := announced_broadcast t tape
  refine ⟨[], fun s member => absurd member List.not_mem_nil, none.symm, fun _ _ => trivial,
    fun L M held => ?_⟩
  let os (i j : Fin n) : OctetStream := if j ≠ i then delivered ((I j).os j) else (I i).os j
  let answer (i : Fin n) (os : Fin n → OctetStream) :
      Play n (Except Err (Input n F × Members n F)) := pure (.ok ({ I i with os }, M i))
  have rounds : Rounds (List.finRange n).length
      (fun i => (ExceptT.lift (exchangeWith i (List.finRange n) (I i).os) : Play n _).run)
      fun i => .ok (os i) := by
    have sent := rounds_exchangeWith (List.finRange n) fun i => (I i).os
    simp only [List.mem_finRange, true_and] at sent
    exact sent.lift
  refine .ofRounds (a := fun i => .ok ({ I i with os := os i }, M i))
    (rounds.bind_ok (f := answer) (.ret_ok _)) ?_
  rw [Ends, result, rest]
  exact ⟨M, rfl, held⟩

omit [DecidableEq F] in
theorem enteredAll_start {added : List (Shared n F × F)} (length : added.length = n)
    (i player : Fin n) :
    let I := enteredAll alphai O T i (List.finRange n) added .resetAll
    let a := added[player]
    I.shares player = (if player = i then [a.1 i + constant (seat O T alphai i) a.2] else [a.1 i]) ∧
      (player = i → (I.os player).data = O.enc.pack a.2) := by
  have turn : (player, added[player]) ∈ (List.finRange n).zip added := by
    rw [List.mem_iff_getElem]
    exact ⟨player, by simp [length], by simp⟩
  obtain ⟨os, shares⟩ := enteredAll_of_mem (O := O) (T := T) (i := i)
    (I := .resetAll) (List.nodup_finRange n) turn
  rw [entered_os] at os
  rw [entered_shares] at shares
  refine ⟨shares, fun own => ?_⟩
  rw [os, if_pos own]
  rfl

theorem finalize_localizes (covers : Shared.Authentic alphai ≤ W) {player : Fin n}
    {a : Shared n F × F} (inside : a.1 ∈ W) {I : Fin n → Input n F}
    (shares : ∀ i, (I i).shares player =
      if player = i then [a.1 i + constant (seat O T alphai i) a.2] else [a.1 i])
    (os : ∀ i, player ≠ i → (I i).os player = ⟨O.enc.pack a.2, 0, Nat.zero_le _⟩) :
    Localizes O W (· ∈ W) own
      (.ret (a.1 + Shared.constant alphai a.2) : Online alphai (Shared n F)) fun i =>
        (I i).finalize (seat O T alphai i) player >>= fun r => pure r.1 := by
  refine (Localizes.ret (add_mem inside (constant_mem covers a.2))).congr fun i => ?_
  rw [finalize, shares]
  by_cases mine : player = i
  · rw [if_pos mine]
    change (if player = i then _ else _) >>= _ = _
    rw [if_pos mine]
    rfl
  · obtain ⟨rest, read, _⟩ := (OctetStream.Reads.consume (O.enc.length_pack a.2)).whole
      ⟨O.enc.pack a.2, 0, Nat.zero_le _⟩ [] (by simp [OctetStream.unread])
    rw [if_neg mine]
    change (if player = i then _ else _) >>= _ = _
    rw [if_neg mine]
    funext M
    change ExceptT.mk (Play.ofStream (((I i).os player).consume O.enc.size) >>= _) >>= _ = _
    rw [os i mine, read]
    change (pure (a.1 i + constant (seat O T alphai i) (O.enc.unpack (O.enc.pack a.2)), M) :
      ExceptT Err (Play n) _) = _
    rw [O.enc.unpack_pack]
    rfl

end Input

variable {alphai : Fin n → F} {O : Outside F} {T : TreeSum n} {W : Submodule F (Shared n F)}
  [DecidableEq F]

theorem getInputs_localizes (covers : Shared.Authentic alphai ≤ W) (party : Fin n)
    (inputs : Fin n → F) :
    Localizes O W (· ∈ W) own (OnlineOp.getInputs party inputs : Online alphai _) fun i =>
      getInputs (seat O T alphai i) party (inputs i) := by
  refine ((Input.addAll_localizes covers inputs (List.finRange n) fun _ => .resetAll).bind
    (f := fun added => OnlineOp.broadcastInputs (added.map Prod.snd) >>= fun _ =>
      Online.index added party >>= fun a => pure (a.1 + Shared.constant alphai a.2))
    (g := fun i I => I.exchange (seat O T alphai i) >>= fun I =>
      I.finalize (seat O T alphai i) party >>= fun r => pure r.1)
    fun added entered => ?_).congr fun i => rfl
  have length : added.length = n := by simpa using entered.1
  refine (Input.exchange_localizes _ _).bind fun _ _ => ?_
  rw [Online.index_of_lt (by simp [length])]
  refine Input.finalize_localizes covers (entered.2 _ (List.getElem_mem _)) (fun i => ?_)
    fun i other => ?_
  · exact (Input.enteredAll_start length i party).1
  · change (if party ≠ i then _ else _) = _
    rw [if_pos other, Input.delivered]
    simp only [(Input.enteredAll_start length party party).2 rfl]
    rfl

end ProofOfCustody.Processor
