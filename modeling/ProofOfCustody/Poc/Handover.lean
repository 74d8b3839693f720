import Mathlib
import ProofOfCustody.Bls.Commit

/-!
# The hand-over between the two processes

Stage one writes the local and the revealed bits into one text without separators and sends it
through a message queue. Stage two reads numbers from that text.
-/

namespace ProofOfCustody.Poc
open Bls

def MAXSIZE : Nat := 2048

/-- The buffer of a message; `mlen` octets of it count. -/
structure Msgbuf where
  mtype : Nat
  mlen : Nat
  mtext : List UInt8
  size : mtext.length = MAXSIZE

namespace Msgbuf

def empty : Msgbuf := ⟨0, 0, List.replicate MAXSIZE 0, List.length_replicate⟩

def fill (buf : Msgbuf) (mtype : Nat) (data : List UInt8) (fits : data.length ≤ MAXSIZE) : Msgbuf :=
  ⟨mtype, data.length, data ++ buf.mtext.drop data.length, by
    rw [List.length_append, List.length_drop, buf.size]
    omega⟩

def content (buf : Msgbuf) : List UInt8 := buf.mtext.take buf.mlen

@[simp] theorem fill_mtype (buf : Msgbuf) (mtype : Nat) (data : List UInt8)
    (fits : data.length ≤ MAXSIZE) : (buf.fill mtype data fits).mtype = mtype := rfl

@[simp] theorem fill_content (buf : Msgbuf) (mtype : Nat) (data : List UInt8)
    (fits : data.length ≤ MAXSIZE) : (buf.fill mtype data fits).content = data :=
  List.take_left

end Msgbuf

abbrev MsgQueue := List Msgbuf

def ipcMsgSend (queue : MsgQueue) (buf : Msgbuf) : MsgQueue := queue ++ [buf]

/-- The oldest message of a type; without one the call blocks. -/
def ipcMsgRecv (queue : MsgQueue) (mtype : Nat) : Option (Msgbuf × MsgQueue) :=
  (queue.find? (·.mtype = mtype)).map fun buf => (buf, queue.eraseP (·.mtype = mtype))

/-- `ss << x` -/
def insertInt (x : Int) : List Char :=
  (if x < 0 then ['-'] else []) ++ Nat.toDigits 10 x.natAbs

structure Istream where
  rest : List Char
  fail : Bool

/-- `is >> x`: a maximal run of digits after blanks and a sign. Without a digit the stream fails and
the variable keeps its value. -/
def extractInt (is : Istream) (x : Int) : Int × Istream :=
  if is.fail then (x, is)
  else
    let text := is.rest.dropWhile Char.isWhitespace
    let negative := text.head? = some '-'
    let text := if negative then text.tail else text
    let digits := text.takeWhile Char.isDigit
    if digits = [] then (x, ⟨text, true⟩)
    else
      let number : Int := Nat.ofDigitChars 10 digits 0
      (if negative then -number else number, ⟨text.dropWhile Char.isDigit, false⟩)

/-- `is >> xs[i]` for one entry after the other. -/
def extractInts (is : Istream) : List Int → List Int × Istream
  | [] => ([], is)
  | x :: xs =>
      let (x, is) := extractInt is x
      let (xs, is) := extractInts is xs
      (x :: xs, is)

theorem length_storeInt_le (l : Int) : (storeInt l).length ≤ MAXSIZE := by
  rw [storeInt, List.length_map, List.length_range]
  decide

def readInt : List UInt8 → Option Int
  | [b0, b1, b2, b3] => some (bytesToInt b0 b1 b2 b3)
  | _ => none

/-- Sends size, length and content; a text longer than the buffer is written over its end. -/
def stageOneSend (local_bits reveal_bits : List Int) (queue : MsgQueue) : Option MsgQueue :=
  let s := (local_bits.flatMap insertInt ++ reveal_bits.flatMap insertInt).map Char.toUInt8
  let size : Int := local_bits.length
  let len : Int := s.length
  if fits : s.length ≤ MAXSIZE then
    let buf := Msgbuf.empty.fill 1 (storeInt size) (length_storeInt_le size)
    let queue := ipcMsgSend queue buf
    let buf := buf.fill 2 (storeInt len) (length_storeInt_le len)
    let queue := ipcMsgSend queue buf
    let buf := buf.fill 3 s fits
    some (ipcMsgSend queue buf)
  else none

/-- Resizes both vectors and reads them; the loop over the second starts at its eleventh entry. -/
def readVectors (s : List Char) (size : Nat) : List Int × List Int :=
  let local_bits := List.replicate size 0
  let reveal_bits := List.replicate size 0
  let is : Istream := ⟨s, false⟩
  let (local_bits, is) := extractInts is local_bits
  let (tail, _) := extractInts is (reveal_bits.drop 10)
  (local_bits, reveal_bits.take 10 ++ tail)

/-- Receives both vectors and announces the end. Negative sizes exceed any memory, and the content
must fit into the resized string. -/
def stageTwoReceive (queue : MsgQueue) : Option ((List Int × List Int) × MsgQueue) := do
  let (buf, queue) ← ipcMsgRecv queue 1
  let size ← readInt buf.content
  let (buf, queue) ← ipcMsgRecv queue 2
  let len ← readInt buf.content
  let (buf, queue) ← ipcMsgRecv queue 3
  if 0 ≤ size ∧ 0 ≤ len ∧ buf.content.length ≤ len.toNat then
    let s := buf.content ++ List.replicate (len.toNat - buf.content.length) 0
    let buf := { buf with mtype := 4, mlen := 1 }
    some (readVectors (s.map UInt8.toChar) size.toNat, ipcMsgSend queue buf)
  else none

def handover (local_bits reveal_bits : List Int) : Option (List Int × List Int) :=
  (stageOneSend local_bits reveal_bits []).bind fun queue => (stageTwoReceive queue).map Prod.fst

def Bits (bs : List Int) : Prop := ∀ b ∈ bs, b = 0 ∨ b = 1

def bitChar (b : Int) : Char := if b = 0 then '0' else '1'

theorem isDigit_bitChar (b : Int) : (bitChar b).isDigit := by
  rw [bitChar]
  split <;> rfl

theorem toChar_bitChar (b : Int) : (bitChar b).toUInt8.toChar = bitChar b := by
  rw [bitChar]
  split <;> rfl

theorem flatMap_insertInt {bs : List Int} (bits : Bits bs) :
    bs.flatMap insertInt = bs.map bitChar := by
  induction bs with
  | nil => rfl
  | cons b bs ih =>
      rw [List.flatMap_cons, List.map_cons, ih fun c hc => bits c (by simp [hc])]
      rcases bits b (by simp) with rfl | rfl <;> rfl

def spelled (bs : List Int) : Nat := Nat.ofDigitChars 10 (bs.map bitChar) 0

theorem spelled_zeros (m : Nat) : spelled (List.replicate m 0) = 0 := by
  rw [spelled, List.map_replicate]
  exact Nat.ofDigitChars_replicate_zero

theorem spelled_one (m : Nat) : spelled (1 :: List.replicate m 0) = 10 ^ m := by
  rw [spelled, List.map_cons, List.map_replicate, Nat.ofDigitChars_cons]
  exact Nat.ofDigitChars_replicate_zero.trans (mul_one _)

theorem extractInts_empty (xs : List Int) (fail : Bool) :
    (extractInts ⟨[], fail⟩ xs).1 = xs ∧ (extractInts ⟨[], fail⟩ xs).2.rest = [] := by
  induction xs generalizing fail with
  | nil => exact ⟨rfl, rfl⟩
  | cons x xs ih =>
      have read : extractInt ⟨[], fail⟩ x = (x, ⟨[], true⟩) := by
        cases fail <;> rfl
      rw [extractInts, read]
      exact ⟨congrArg (x :: ·) (ih true).1, (ih true).2⟩

theorem extractInt_digits {bs : List Int} (nonempty : bs ≠ []) (x : Int) :
    extractInt ⟨bs.map bitChar, false⟩ x = ((spelled bs : Int), ⟨[], false⟩) := by
  obtain ⟨b, bs, rfl⟩ := List.exists_cons_of_ne_nil nonempty
  have digits : ∀ c ∈ (b :: bs).map bitChar, c.isDigit := by
    intro c hc
    obtain ⟨d, _, rfl⟩ := List.mem_map.1 hc
    exact isDigit_bitChar d
  have blanks : ((b :: bs).map bitChar).dropWhile Char.isWhitespace = (b :: bs).map bitChar := by
    rw [List.map_cons, List.dropWhile_cons_of_neg]
    rw [bitChar]
    split <;> decide
  have sign : ((b :: bs).map bitChar).head? ≠ some '-' := by
    rw [List.map_cons, List.head?_cons, bitChar]
    split <;> decide
  have run := List.takeWhile_eq_self_iff.2 digits
  have rest : ((b :: bs).map bitChar).dropWhile Char.isDigit = [] :=
    List.dropWhile_eq_nil_iff.2 digits
  have some_digit : (b :: bs).map bitChar ≠ [] := by simp
  simp only [extractInt, blanks, sign, if_false, run, some_digit, rest, spelled, Bool.false_eq_true]

theorem extractInts_digits (bs : List Int) (x : Int) (xs : List Int) :
    (extractInts ⟨bs.map bitChar, false⟩ (x :: xs)).1 =
        (if bs = [] then x else (spelled bs : Int)) :: xs ∧
      (extractInts ⟨bs.map bitChar, false⟩ (x :: xs)).2.rest = [] := by
  by_cases empty : bs = []
  · subst empty
    exact extractInts_empty (x :: xs) false
  · rw [extractInts, extractInt_digits empty, if_neg empty]
    exact ⟨congrArg ((spelled bs : Int) :: ·) (extractInts_empty xs false).1,
      (extractInts_empty xs false).2⟩

/-- The first extraction takes the whole text, so every other entry keeps its initial zero. -/
theorem readVectors_digits {bs : List Int} (nonempty : bs ≠ []) (m : Nat) :
    readVectors (bs.map bitChar) (m + 1) =
      ((spelled bs : Int) :: List.replicate m 0, List.replicate (m + 1) 0) := by
  have first := extractInts_digits bs 0 (List.replicate m 0)
  rw [if_neg nonempty, ← List.replicate_succ] at first
  obtain ⟨read, rest⟩ := first
  have later (xs : List Int) :
      (extractInts (extractInts ⟨bs.map bitChar, false⟩ (List.replicate (m + 1) 0)).2 xs).1 = xs := by
    have state : (extractInts ⟨bs.map bitChar, false⟩ (List.replicate (m + 1) 0)).2 = ⟨[], _⟩ :=
      congrArg₂ Istream.mk rest rfl
    rw [state]
    exact (extractInts_empty xs _).1
  simp only [readVectors, read, later, List.take_append_drop]

theorem readInt_storeInt {k : Nat} (small : k ≤ MAXSIZE) : readInt (storeInt k) = some (k : Int) := by
  have bound : k ≤ 2048 := small
  rw [storeInt_eq, readInt, bytesToInt_storeInt (by omega) (by omega)]

theorem ipcMsgRecv_head {buf : Msgbuf} {mtype : Nat} (same : buf.mtype = mtype) (queue : MsgQueue) :
    ipcMsgRecv (buf :: queue) mtype = some (buf, queue) := by
  rw [ipcMsgRecv, List.find?_cons_of_pos (by simpa using same),
    List.eraseP_cons_of_pos (by simpa using same)]
  rfl

theorem stageTwoReceive_eq {one two three : Msgbuf} {k : Nat} (type1 : one.mtype = 1)
    (type2 : two.mtype = 2) (type3 : three.mtype = 3) (size : readInt one.content = some (k : Int))
    (len : readInt two.content = some (three.content.length : Int)) :
    stageTwoReceive [one, two, three] =
      some (readVectors (three.content.map UInt8.toChar) k, [{ three with mtype := 4, mlen := 1 }]) := by
  rw [stageTwoReceive, ipcMsgRecv_head type1]
  simp only [Option.bind_eq_bind, Option.bind_some, size, ipcMsgRecv_head type2, len,
    ipcMsgRecv_head type3]
  rw [if_pos ⟨Int.natCast_nonneg _, Int.natCast_nonneg _, Nat.le_refl _⟩]
  simp only [Int.toNat_natCast, Nat.sub_self, List.replicate_zero, List.append_nil, ipcMsgSend,
    List.nil_append]

theorem ipcMsgSend_three (one two three : Msgbuf) :
    ipcMsgSend (ipcMsgSend (ipcMsgSend [] one) two) three = [one, two, three] := by
  simp [ipcMsgSend]

theorem stageOneSend_eq {local_bits reveal_bits : List Int} {s : List UInt8}
    (inserted : (local_bits.flatMap insertInt ++ reveal_bits.flatMap insertInt).map Char.toUInt8 = s)
    (fits : s.length ≤ MAXSIZE) :
    ∃ one two three : Msgbuf, stageOneSend local_bits reveal_bits [] = some [one, two, three] ∧
      one.mtype = 1 ∧ one.content = storeInt local_bits.length ∧
      two.mtype = 2 ∧ two.content = storeInt s.length ∧ three.mtype = 3 ∧ three.content = s := by
  let one := Msgbuf.empty.fill 1 (storeInt local_bits.length) (length_storeInt_le _)
  let two := one.fill 2 (storeInt s.length) (length_storeInt_le _)
  let three := two.fill 3 s fits
  refine ⟨one, two, three, ?_, rfl, Msgbuf.fill_content _ _ _ _, rfl, Msgbuf.fill_content _ _ _ _,
    rfl, Msgbuf.fill_content _ _ _ _⟩
  rw [stageOneSend, inserted, dif_pos fits]
  simp only [ipcMsgSend_three, one, two, three]

theorem handover_eq {local_bits reveal_bits : List Int} {text : List Char}
    (inserted : local_bits.flatMap insertInt ++ reveal_bits.flatMap insertInt = text)
    (octets : ∀ c ∈ text, c.toUInt8.toChar = c) (fits : text.length ≤ MAXSIZE)
    (size : local_bits.length ≤ MAXSIZE) :
    handover local_bits reveal_bits = some (readVectors text local_bits.length) := by
  have fits' : (text.map Char.toUInt8).length ≤ MAXSIZE := by rwa [List.length_map]
  have back : (text.map Char.toUInt8).map UInt8.toChar = text := by
    rw [List.map_map]
    exact (List.map_congr_left octets).trans (List.map_id _)
  obtain ⟨one, two, three, sent, type1, data1, type2, data2, type3, data3⟩ :=
    stageOneSend_eq (congrArg (List.map Char.toUInt8) inserted) fits'
  have received := stageTwoReceive_eq type1 type2 type3
    (by rw [data1, readInt_storeInt size]) (by rw [data2, data3, readInt_storeInt fits'])
  rw [handover, sent, Option.bind_some, received, Option.map_some, data3, back]

theorem text_eq {local_bits reveal_bits : List Int} (bits : Bits local_bits)
    (bits' : Bits reveal_bits) :
    local_bits.flatMap insertInt ++ reveal_bits.flatMap insertInt =
      (local_bits ++ reveal_bits).map bitChar := by
  rw [flatMap_insertInt bits, flatMap_insertInt bits', List.map_append]

theorem handover_bits {local_bits reveal_bits : List Int} (bits : Bits local_bits)
    (bits' : Bits reveal_bits) (same : local_bits.length = reveal_bits.length)
    (fits : 2 * local_bits.length ≤ MAXSIZE) :
    handover local_bits reveal_bits =
      some (readVectors ((local_bits ++ reveal_bits).map bitChar) local_bits.length) := by
  refine handover_eq (text_eq bits bits') ?_ ?_ (by omega)
  · intro c hc
    obtain ⟨b, _, rfl⟩ := List.mem_map.1 hc
    exact toChar_bitChar b
  · rw [List.length_map, List.length_append]
    omega

theorem handover_exact {local_bits reveal_bits : List Int} (bits : Bits local_bits)
    (bits' : Bits reveal_bits) (same : local_bits.length = reveal_bits.length)
    (fits : 2 * local_bits.length ≤ MAXSIZE) :
    handover local_bits reveal_bits = some (local_bits, reveal_bits) ↔
      ∀ b ∈ local_bits ++ reveal_bits, b = 0 := by
  rw [handover_bits bits bits' same fits]
  cases local_bits with
  | nil =>
      obtain rfl : reveal_bits = [] := List.length_eq_zero_iff.1 same.symm
      exact ⟨fun _ => nofun, fun _ => rfl⟩
  | cons b bs =>
      rw [List.length_cons] at same ⊢
      rw [readVectors_digits (by simp), Option.some.injEq, Prod.mk.injEq, List.cons.injEq]
      constructor
      · rintro ⟨⟨head, tail⟩, revealed⟩
        have zeros : bs ++ reveal_bits = List.replicate (bs.length + (bs.length + 1)) 0 := by
          rw [List.replicate_add, tail, revealed]
        rcases bits b (by simp) with rfl | rfl
        · rw [List.cons_append, zeros, ← List.replicate_succ]
          exact fun c hc => List.eq_of_mem_replicate hc
        · rw [List.cons_append, zeros, spelled_one] at head
          have large : 1 < 10 ^ (bs.length + (bs.length + 1)) :=
            Nat.one_lt_pow (by omega) (by omega)
          exact absurd (by exact_mod_cast head) large.ne'
      · intro zero
        have all := List.eq_replicate_of_mem zero
        have local_zero : b :: bs = List.replicate (bs.length + 1) 0 :=
          List.eq_replicate_iff.2 ⟨rfl, fun c hc => zero c (List.mem_append_left _ hc)⟩
        have reveal_zero : reveal_bits = List.replicate (bs.length + 1) 0 :=
          List.eq_replicate_iff.2 ⟨same.symm, fun c hc => zero c (List.mem_append_right _ hc)⟩
        rw [List.replicate_succ, List.cons.injEq] at local_zero
        rw [all, spelled_zeros]
        exact ⟨⟨local_zero.1.symm, local_zero.2.symm⟩, reveal_zero.symm⟩

theorem handover_exact_one : handover [0] [0] = some ([0], [0]) ↔ ∀ b ∈ [(0 : Int)] ++ [0], b = 0 :=
  handover_exact (by simp [Bits]) (by simp [Bits]) rfl (by decide)

/-- A local `1` and a revealed `0` arrive as a local `10`. -/
theorem handover_joins_digits :
    handover [1] [0] = some ([10], [0]) ∧ handover [1] [0] ≠ some ([1], [0]) := by
  have one : Bits [1] := by simp [Bits]
  have zero : Bits [0] := by simp [Bits]
  have joined : handover [1] [0] = some ([10], [0]) := by
    rw [handover_bits one zero rfl (by decide)]
    exact congrArg some (readVectors_digits (by simp) 0)
  rw [joined]
  exact ⟨rfl, by decide⟩

end ProofOfCustody.Poc
