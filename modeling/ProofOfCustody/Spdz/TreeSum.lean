import Mathlib
import ProofOfCustody.Networking.Player

/-!
# Opening by a tree of sums

`TreeSum::run` adds up the values of all players towards the base player, a group of players at a
time, and passes the sums on from there, again in groups. Players are numbered from the base player.
The numbers are `int`s; that the sum of two of them is one too is taken for granted.
-/

namespace ProofOfCustody.Spdz
open Network Process Networking Tools

structure Encoding (F : Type) where
  size : Nat
  pack : F → Octets
  unpack : Octets → F
  length_pack : ∀ x, (pack x).length = size
  unpack_pack : ∀ x, unpack (pack x) = x

section Values
variable {F : Type} (enc : Encoding F)

def packAll (values : List F) (os : OctetStream) : OctetStream :=
  values.foldl (fun os v => os.append (enc.pack v)) os

/-- `values[i].unpack(os)` for every `i` -/
def unpackAll : List F → OctetStream → Except StreamError (List F × OctetStream)
  | [], os => return ([], os)
  | _ :: values, os => do
    let (x, os) ← os.consume enc.size
    let (values, os) ← unpackAll values os
    return (enc.unpack x :: values, os)

/-- `values[i].add(os)` for every `i` -/
def addAll [Add F] : List F → OctetStream → Except StreamError (List F × OctetStream)
  | [], os => return ([], os)
  | v :: values, os => do
    let (x, os) ← os.consume enc.size
    let (values, os) ← addAll values os
    return ((v + enc.unpack x) :: values, os)

end Values

structure TreeSum (n : Nat) where
  base_player : Fin n
  opening_sum : Nat
  max_broadcast : Nat

namespace TreeSum
variable {n : Nat} (T : TreeSum n) {F : Type} [Add F] (enc : Encoding F)

/-- `positive_modulo(my_num - base_player, num_players)` -/
def relative (my_num : Fin n) : Nat := (my_num + (n - T.base_player)) % n

/-- `(base_player + r) % num_players` -/
def player (r : Nat) : Fin n := ⟨(T.base_player + r) % n, Nat.mod_lt _ (Fin.pos T.base_player)⟩

/-- `for (; r < last_sum_players; r += sum_players)` -/
def senders (sum_players last_sum_players r : Nat) : List Nat :=
  if 0 < sum_players ∧ r < last_sum_players then
    r :: senders sum_players last_sum_players (r + sum_players)
  else []
termination_by last_sum_players - r

def addOpenings (values : List F) (my_relative_num sum_players last_sum_players : Nat) :
    Play n (List F) :=
  (senders sum_players last_sum_players (my_relative_num + sum_players)).foldlM (fun values r => do
    let os ← Play.receive (T.player r)
    -- the length is cast to `unsigned`
    if os.data.length % 2 ^ 32 < values.length * enc.size then
      throw (.not_enough_information (values.length * enc.size) os.data.length)
    else
      let (values, _) ← Play.ofStream (addAll enc values os)
      return values) values

/-- One iteration of the loop of `start`. -/
def sumLevel (my_relative_num sum_players last_sum_players : Nat) (values : List F) :
    Play n (List F) := do
  if sum_players ≤ my_relative_num ∧ my_relative_num < last_sum_players then
    Play.send (T.player (my_relative_num % sum_players)) (packAll enc values .empty).data
  if my_relative_num < sum_players then
    T.addOpenings enc values my_relative_num sum_players last_sum_players
  else return values

def nextPlayers (last_sum_players : Nat) : Nat :=
  (last_sum_players + T.opening_sum - 2) / T.opening_sum

theorem nextPlayers_lt {last : Nat} (more : T.nextPlayers last ≠ 0) : T.nextPlayers last < last := by
  obtain ⟨opening, enough⟩ : 0 < T.opening_sum ∧ T.opening_sum ≤ last + T.opening_sum - 2 := by
    rw [nextPlayers, Nat.div_ne_zero_iff] at more
    omega
  rw [nextPlayers, Nat.div_lt_iff_lt_mul opening]
  obtain ⟨k, one⟩ : ∃ k, T.opening_sum = k + 1 := ⟨T.opening_sum - 1, by omega⟩
  obtain ⟨l, rfl⟩ : ∃ l, last = l + 2 := ⟨last - 2, by omega⟩
  rw [one]
  have : (l + 2) * (k + 1) = l + 2 + (l * k + 2 * k) := by ring
  have : k ≤ l * k + 2 * k := by nlinarith
  omega

def sumLoop (my_relative_num last_sum_players : Nat) (values : List F) : Play n (List F) :=
  -- a division by zero, or an overflow of `sum_players - 2 + opening_sum`
  if T.opening_sum = 0 ∨ 2 ^ 31 ≤ last_sum_players + T.opening_sum - 2 then throw .undefined
  else
    let sum_players := T.nextPlayers last_sum_players
    if _more : sum_players = 0 then return values
    else do
      let values ← T.sumLevel enc my_relative_num sum_players last_sum_players values
      sumLoop my_relative_num sum_players values
termination_by last_sum_players
decreasing_by exact T.nextPlayers_lt _more

def receiveValues (values : List F) (sender : Fin n) : Play n (List F × Octets) := do
  let os ← Play.receive sender
  let (values, _) ← Play.ofStream (unpackAll enc values os)
  return (values, os.data)

/-- `my_relative_num * max_broadcast + i` -/
def receiver (my_relative_num i : Nat) : Play n Nat :=
  if 2 ^ 31 ≤ my_relative_num * T.max_broadcast + i then throw .undefined
  else return my_relative_num * T.max_broadcast + i

/-- The end of `start`: the base player sends the sums on, and so do the players further in. -/
def broadcast (my_num : Fin n) (values : List F) : Play n (List F) := do
  let my_relative_num := T.relative my_num
  if my_num = T.base_player then
    forM ((List.range (min T.max_broadcast n)).drop 1) fun i =>
      Play.send (T.player i) (packAll enc values .empty).data
    return values
  else
    let first ← T.receiver my_relative_num 0
    if first < n then
      let (values, os) ← receiveValues enc values (T.player (my_relative_num / T.max_broadcast))
      forM (List.range T.max_broadcast) fun i => do
        let relative_receiver ← T.receiver my_relative_num i
        if relative_receiver < n then Play.send (T.player relative_receiver) os else pure ⟨⟩
      return values
    else return values

def start (my_num : Fin n) (values : List F) : Play n (List F) := do
  let values ← T.sumLoop enc (T.relative my_num) n values
  T.broadcast enc my_num values

def finish (my_num : Fin n) (values : List F) : Play n (List F) := do
  let my_relative_num := T.relative my_num
  let first ← T.receiver my_relative_num 0
  if first ≥ n then
    let (values, _) ← receiveValues enc values (T.player (my_relative_num / T.max_broadcast))
    return values
  else return values

def run (my_num : Fin n) (values : List F) : Play n (List F) := do
  let values ← T.start enc my_num values
  T.finish enc my_num values

end TreeSum

end ProofOfCustody.Spdz
