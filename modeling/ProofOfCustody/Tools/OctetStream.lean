import Mathlib

/-!
# Octet streams

`octetStream` holds the octets written so far and the place of the next read. `Format` lists what
can be stored and read back: integers of the native types, octets, integers of any size and vectors.
-/

namespace ProofOfCustody.Tools

inductive StreamError
  | insufficient_data
  | bad_value
  | invalid_length
  /-- A write behind the octets that `resize` has made room for. -/
  | undefined
deriving DecidableEq

/-- The write head is the length of `data`; the read head never passes it. -/
structure OctetStream where
  data : List UInt8
  ptr : Nat
  ptr_le : ptr ≤ data.length

namespace OctetStream

def empty : OctetStream := ⟨[], 0, Nat.le_refl _⟩

def resetReadHead (s : OctetStream) : OctetStream := ⟨s.data, 0, Nat.zero_le _⟩

def resetWriteHead (_ : OctetStream) : OctetStream := empty

def left (s : OctetStream) : Nat := s.data.length - s.ptr

def done (s : OctetStream) : Bool := s.ptr = s.data.length

def unread (s : OctetStream) : List UInt8 := s.data.drop s.ptr

def append (x : List UInt8) (s : OctetStream) : OctetStream :=
  ⟨s.data ++ x, s.ptr, s.ptr_le.trans (by simp)⟩

def concat (s os : OctetStream) : OctetStream := s.append os.data

def consume (l : Nat) (s : OctetStream) : Except StreamError (List UInt8 × OctetStream) :=
  if h : s.ptr + l > s.data.length then throw .insufficient_data
  else return ((s.data.drop s.ptr).take l, ⟨s.data, s.ptr + l, Nat.le_of_not_gt h⟩)

def littleEndian : Nat → Nat → List UInt8
  | 0, _ => []
  | n + 1, a => UInt8.ofNat a :: littleEndian n (a / 256)

def ofLittleEndian : List UInt8 → Nat
  | [] => 0
  | b :: bytes => b.toNat + 256 * ofLittleEndian bytes

/-- The length is a `size_t`; what the field cuts off must be a sign extension. -/
def encodeLength (len n_bytes : Nat) : Except StreamError (List UInt8) :=
  if n_bytes > 8 then throw .invalid_length
  else
    let upper : Int := (len : Int).bmod (2 ^ 64) / 2 ^ (8 * n_bytes)
    if n_bytes < 8 ∧ upper ≠ 0 ∧ upper ≠ -1 then throw .invalid_length
    else return littleEndian n_bytes len

def storeInt (a n_bytes : Nat) (s : OctetStream) : Except StreamError OctetStream := do
  let buff ← encodeLength a n_bytes
  return s.append buff

def getInt (n_bytes : Nat) (s : OctetStream) : Except StreamError (Nat × OctetStream) := do
  let (buff, s) ← s.consume n_bytes
  return (ofLittleEndian buff, s)

def storeBytes (x : List UInt8) (s : OctetStream) : Except StreamError OctetStream := do
  let s ← s.storeInt x.length 4
  return s.append x

def getBytes (s : OctetStream) : Except StreamError (List UInt8 × OctetStream) := do
  let (length, s) ← s.getInt 4
  s.consume length

/-- `mpz_sizeinbase(x, 256)`, which is `1` for zero. -/
def sizeInBase (x : Int) : Nat := max 1 (Nat.digits 256 x.natAbs).length

def numBytes (x : Int) : Int := (sizeInBase x : Int).bmod (2 ^ 32)

/-- `mpz_export` writes nothing for zero; the rest is filled with zero octets. -/
def bytesFromBigint (x : Int) (len : Nat) : Except StreamError (List UInt8) :=
  let exported := (Nat.digits 256 x.natAbs).reverse.map UInt8.ofNat
  if exported.length > len then throw .invalid_length
  else return exported ++ List.replicate (len - exported.length) 0

def bigintFromBytes (bytes : List UInt8) : Nat := ofLittleEndian bytes.reverse

def storeBigint (x : Int) (s : OctetStream) : Except StreamError OctetStream := do
  let num := numBytes x
  -- As a `size_t` a negative number makes the buffer smaller.
  if num < 0 then throw .undefined
  else
    let s := s.append [if x < 0 then 1 else 0]
    let s ← s.storeInt num.toNat 4
    let bytes ← bytesFromBigint x num.toNat
    return s.append bytes

def getMagnitude (sign : UInt8) (s : OctetStream) : Except StreamError (Int × OctetStream) := do
  let (length, s) ← s.getInt 4
  if length ≠ 0 then
    let (bytes, s) ← s.consume length
    let ans := bigintFromBytes bytes
    return (if sign ≠ 0 then -ans else ans, s)
  else return (0, s)

def getBigint (s : OctetStream) : Except StreamError (Int × OctetStream) := do
  let (head, s) ← s.consume 1
  let sign := head.headD 0
  if sign ≠ 0 ∧ sign ≠ 1 then throw .bad_value
  else s.getMagnitude sign

end OctetStream

/-- The overloads of `store` and `get`. -/
inductive Format
  | uint
  | int
  | size
  | bytes
  | bigint
  | vector (f : Format)

namespace Format
open OctetStream

abbrev Value : Format → Type
  | uint => Nat
  | int => Int
  | size => Nat
  | bytes => List UInt8
  | bigint => Int
  | vector f => List f.Value

/-- The range of the C++ type, and lengths that fit their fields; `numBytes` is an `int`. -/
def Valid : (f : Format) → f.Value → Prop
  | uint, a => a < 2 ^ 32
  | int, l => -2 ^ 31 ≤ l ∧ l < 2 ^ 31
  | size, a => a < 2 ^ 64
  | bytes, x => x.length < 2 ^ 32
  | bigint, x => sizeInBase x < 2 ^ 31
  | vector f, v => List.length v < 2 ^ 64 ∧ ∀ x ∈ (v : List f.Value), f.Valid x

def store : (f : Format) → f.Value → OctetStream → Except StreamError OctetStream
  | uint, a, s => s.storeInt a 4
  | int, l, s => s.storeInt (l % 2 ^ 64).toNat 4
  | size, a, s => s.storeInt a 8
  | bytes, x, s => s.storeBytes x
  | bigint, x, s => s.storeBigint x
  | vector f, v, s => do
    let s ← s.storeInt (List.length v) 8
    (v : List f.Value).foldlM (fun s x => f.store x s) s

/-- `v.resize(size, init)`, then the entries in order. -/
def getEntries {α : Type} (get : OctetStream → Except StreamError (α × OctetStream)) :
    Nat → OctetStream → Except StreamError (List α × OctetStream)
  | 0, s => return ([], s)
  | k + 1, s => do
    let (x, s) ← get s
    let (v, s) ← getEntries get k s
    return (x :: v, s)

def get : (f : Format) → OctetStream → Except StreamError (f.Value × OctetStream)
  | uint, s => s.getInt 4
  | int, s => do
    let (l, s) ← s.getInt 4
    return ((l : Int).bmod (2 ^ 32), s)
  | size, s => s.getInt 8
  | bytes, s => s.getBytes
  | bigint, s => s.getBigint
  | vector f, s => do
    let (k, s) ← s.getInt 8
    getEntries f.get k s

abbrev Message := List (Σ f : Format, f.Value)

def storeAll : Message → OctetStream → Except StreamError OctetStream
  | [], s => return s
  | ⟨f, x⟩ :: items, s => do
    let s ← f.store x s
    storeAll items s

def getAll : List Format → OctetStream → Except StreamError (Message × OctetStream)
  | [], s => return ([], s)
  | f :: fs, s => do
    let (x, s) ← f.get s
    let (items, s) ← getAll fs s
    return (⟨f, x⟩ :: items, s)

end Format

/-! ## Reading -/

namespace OctetStream
variable {α β : Type} {get : OctetStream → Except StreamError (α × OctetStream)}
  {bytes bytes' : List UInt8} {a : α}

structure Reads (get : OctetStream → Except StreamError (α × OctetStream)) (bytes : List UInt8)
    (a : α) : Prop where
  whole : ∀ s rest, s.unread = bytes ++ rest →
    ∃ s', get s = .ok (a, s') ∧ s'.unread = rest ∧ s'.data = s.data
  short : ∀ s, s.unread <+: bytes → s.unread ≠ bytes → get s = .error .insufficient_data

theorem length_unread (s : OctetStream) : s.unread.length = s.data.length - s.ptr :=
  List.length_drop

theorem Reads.ret (a : α) : Reads (fun s => return (a, s)) [] a where
  whole s _ content := ⟨s, rfl, content, rfl⟩
  short _ inside other := absurd (List.prefix_nil.1 inside) other

theorem Reads.bind {f : α → OctetStream → Except StreamError (β × OctetStream)} {b : β}
    (first : Reads get bytes a) (second : Reads (f a) bytes' b) :
    Reads (fun s => do let (a, s) ← get s; f a s) (bytes ++ bytes') b where
  whole s rest content := by
    obtain ⟨s₁, read, unread, same⟩ := first.whole s (bytes' ++ rest) (by simp [content])
    obtain ⟨s₂, read', unread', same'⟩ := second.whole s₁ rest unread
    refine ⟨s₂, ?_, unread', same'.trans same⟩
    simp only [read]
    exact read'
  short s inside other := by
    rcases Nat.lt_or_ge s.unread.length bytes.length with early | late
    · have begins : s.unread <+: bytes :=
        List.prefix_of_prefix_length_le inside (List.prefix_append _ _) early.le
      simp only [first.short s begins fun same => by simp [same] at early]
      rfl
    · obtain ⟨u, content⟩ :=
        List.prefix_of_prefix_length_le (List.prefix_append bytes bytes') inside late
      obtain ⟨s₁, read, unread, _⟩ := first.whole s u content.symm
      rw [← content, List.prefix_append_right_inj, ← unread] at inside
      simp only [read]
      refine second.short s₁ inside fun same => other ?_
      rw [← content, ← unread, same]

theorem Reads.map (g : α → β) (reads : Reads get bytes a) :
    Reads (fun s => do let (a, s) ← get s; return (g a, s)) bytes (g a) :=
  List.append_nil bytes ▸ reads.bind (f := fun a s => return (g a, s)) (.ret (g a))

theorem Reads.consume {l : Nat} (length : bytes.length = l) :
    Reads (OctetStream.consume l) bytes bytes where
  whole s rest content := by
    have size := s.length_unread
    rw [content, List.length_append, length] at size
    have enough : ¬s.ptr + l > s.data.length := by
      have := s.ptr_le
      omega
    refine ⟨⟨s.data, s.ptr + l, Nat.le_of_not_gt enough⟩, ?_, ?_, rfl⟩
    · rw [OctetStream.consume, dif_neg enough]
      change Except.ok (List.take l s.unread, _) = _
      rw [content, List.take_left' length]
    · rw [unread, ← List.drop_drop]
      change List.drop l s.unread = rest
      rw [content, List.drop_left' length]
  short s inside other := by
    have less : s.unread.length < bytes.length :=
      lt_of_le_of_ne inside.length_le fun same => other (inside.eq_of_length same)
    rw [length_unread, length] at less
    rw [OctetStream.consume, dif_pos (by have := s.ptr_le; omega)]
    rfl

@[simp] theorem length_littleEndian (n a : Nat) : (littleEndian n a).length = n := by
  induction n generalizing a with
  | zero => rfl
  | succ n ih => simp [littleEndian, ih]

theorem ofLittleEndian_littleEndian (n a : Nat) : ofLittleEndian (littleEndian n a) = a % 256 ^ n := by
  induction n generalizing a with
  | zero => simp [littleEndian, ofLittleEndian, Nat.mod_one]
  | succ n ih =>
      have octet : (UInt8.ofNat a).toNat = a % 256 := UInt8.toNat_ofNat'
      rw [littleEndian, ofLittleEndian, ih, octet, pow_succ', Nat.mod_mul]

theorem encodeLength_of_lt {a n : Nat} (field : n ≤ 8) (fits : a < 256 ^ n) :
    encodeLength a n = .ok (littleEndian n a) := by
  rw [encodeLength, if_neg (by omega), if_neg]
  · rfl
  · rintro ⟨narrow, nonzero, _⟩
    have whole : (256 : Nat) ^ n ≤ 2 ^ 56 :=
      (Nat.pow_le_pow_right (by norm_num) (show n ≤ 7 by omega)).trans_eq (by norm_num)
    rw [Int.bmod_eq_of_le (by omega) (by omega)] at nonzero
    refine nonzero (Int.ediv_eq_zero_of_lt (by omega) ?_)
    rw [pow_mul]
    exact_mod_cast fits

theorem encodeLength_int {l : Int} (lower : -2 ^ 31 ≤ l) (upper : l < 2 ^ 31) :
    encodeLength (l % 2 ^ 64).toNat 4 = .ok (littleEndian 4 (l % 2 ^ 64).toNat) := by
  rw [encodeLength, if_neg (by omega), if_neg]
  · rfl
  · rintro ⟨_, nonzero, other⟩
    have wrapped : (((l % 2 ^ 64).toNat : Int)).bmod (2 ^ 64) = l := by
      rw [Int.toNat_of_nonneg (Int.emod_nonneg _ (by norm_num))]
      exact (Int.emod_bmod l (2 ^ 64)).trans (Int.bmod_eq_of_le (by omega) (by omega))
    rw [wrapped] at nonzero other
    norm_num at nonzero other
    omega

theorem low_octets (l : Int) : (((l % 2 ^ 64).toNat % 256 ^ 4 : Nat) : Int) = l % 2 ^ 32 := by
  have : 0 ≤ l % 2 ^ 64 := Int.emod_nonneg _ (by norm_num)
  omega

theorem reads_getInt (n a : Nat) : Reads (getInt n) (littleEndian n a) (a % 256 ^ n) :=
  ofLittleEndian_littleEndian n a ▸ (Reads.consume (length_littleEndian n a)).map ofLittleEndian

theorem reads_getInt_of_lt {n a : Nat} (fits : a < 256 ^ n) :
    Reads (getInt n) (littleEndian n a) a := by
  have read := reads_getInt n a
  rwa [Nat.mod_eq_of_lt fits] at read

theorem reads_getBytes {x : List UInt8} (fits : x.length < 2 ^ 32) :
    Reads getBytes (littleEndian 4 x.length ++ x) x :=
  (reads_getInt_of_lt (n := 4) fits).bind (Reads.consume rfl)

def bigintOctets (x : Int) : List UInt8 :=
  if x = 0 then [0] else (Nat.digits 256 x.natAbs).reverse.map UInt8.ofNat

theorem length_digits_pos {x : Int} (nonzero : x ≠ 0) : 0 < (Nat.digits 256 x.natAbs).length := by
  rw [List.length_pos_iff, Ne, Nat.digits_eq_nil_iff_eq_zero]
  omega

theorem length_bigintOctets (x : Int) : (bigintOctets x).length = sizeInBase x := by
  by_cases zero : x = 0
  · simp [bigintOctets, sizeInBase, zero]
  · simp [bigintOctets, sizeInBase, zero]

theorem bytesFromBigint_sizeInBase (x : Int) :
    bytesFromBigint x (sizeInBase x) = .ok (bigintOctets x) := by
  by_cases zero : x = 0
  · subst zero
    rfl
  · have := length_digits_pos zero
    have size : sizeInBase x = (Nat.digits 256 x.natAbs).length := max_eq_right this
    simp [bytesFromBigint, bigintOctets, zero, size, pure, Except.pure]

theorem ofLittleEndian_digits (ds : List Nat) (small : ∀ d ∈ ds, d < 256) :
    ofLittleEndian (ds.map UInt8.ofNat) = Nat.ofDigits 256 ds := by
  induction ds with
  | nil => rfl
  | cons d ds ih =>
      rw [List.map_cons, ofLittleEndian, ih fun d' h => small d' (by simp [h]), Nat.ofDigits_cons,
        UInt8.toNat_ofNat', Nat.mod_eq_of_lt (small d (by simp))]

theorem bigintFromBytes_octets (x : Int) : bigintFromBytes (bigintOctets x) = x.natAbs := by
  by_cases zero : x = 0
  · subst zero
    rfl
  · rw [bigintFromBytes, bigintOctets, if_neg zero, ← List.map_reverse, List.reverse_reverse,
      ofLittleEndian_digits _ fun d h => Nat.digits_lt_base (by norm_num) h, Nat.ofDigits_digits]

theorem numBytes_of_lt {x : Int} (fits : sizeInBase x < 2 ^ 31) : numBytes x = sizeInBase x :=
  Int.bmod_eq_of_le (by omega) (by omega)

def signOctet (x : Int) : UInt8 := if x < 0 then 1 else 0

theorem signed_natAbs (x : Int) :
    (if signOctet x ≠ 0 then -(x.natAbs : Int) else x.natAbs) = x := by
  rcases lt_or_ge x 0 with negative | positive
  · simp [signOctet, negative, abs_of_neg negative]
  · simp [signOctet, not_lt.2 positive, abs_of_nonneg positive]

theorem reads_getMagnitude {x : Int} (fits : sizeInBase x < 2 ^ 32) :
    Reads (getMagnitude (signOctet x)) (littleEndian 4 (sizeInBase x) ++ bigintOctets x) x := by
  have positive : sizeInBase x ≠ 0 := by
    rw [sizeInBase]
    omega
  refine (reads_getInt_of_lt (n := 4) fits).bind (f := fun length s =>
    if length ≠ 0 then do
      let (bytes, s) ← s.consume length
      let ans := bigintFromBytes bytes
      return (if signOctet x ≠ 0 then -(ans : Int) else ans, s)
    else return (0, s)) ?_
  have read := (Reads.consume (length_bigintOctets x)).map fun bytes =>
    if signOctet x ≠ 0 then -(bigintFromBytes bytes : Int) else bigintFromBytes bytes
  rw [bigintFromBytes_octets, signed_natAbs] at read
  simpa only [if_pos positive] using read

theorem reads_getBigint {x : Int} (fits : sizeInBase x < 2 ^ 32) :
    Reads getBigint ([signOctet x] ++ (littleEndian 4 (sizeInBase x) ++ bigintOctets x)) x := by
  have sign : ¬(signOctet x ≠ 0 ∧ signOctet x ≠ 1) := by
    rw [signOctet]
    split <;> decide
  have head : Reads (OctetStream.consume 1) [signOctet x] [signOctet x] := .consume rfl
  refine head.bind (f := fun head s =>
    if head.headD 0 ≠ 0 ∧ head.headD 0 ≠ 1 then throw .bad_value
    else s.getMagnitude (head.headD 0)) ?_
  simp only [List.headD_cons, sign, if_false]
  exact reads_getMagnitude fits

end OctetStream

/-! ## Round trips -/

namespace Format
open OctetStream

def Stores (f : Format) (x : f.Value) : Prop :=
  ∃ bytes, (∀ s, f.store x s = .ok (s.append bytes)) ∧ Reads f.get bytes x

theorem append_append (s : OctetStream) (x y : List UInt8) :
    (s.append x).append y = s.append (x ++ y) := by
  simp [append]

theorem storeInt_of_lt {a n : Nat} (field : n ≤ 8) (fits : a < 256 ^ n) (s : OctetStream) :
    s.storeInt a n = .ok (s.append (littleEndian n a)) := by
  rw [storeInt, encodeLength_of_lt field fits]
  rfl

theorem stores_entries {α : Type} {store : α → OctetStream → Except StreamError OctetStream}
    {get : OctetStream → Except StreamError (α × OctetStream)} (v : List α)
    (each : ∀ x ∈ v, ∃ bytes, (∀ s, store x s = .ok (s.append bytes)) ∧ Reads get bytes x) :
    ∃ bytes, (∀ s, v.foldlM (fun s x => store x s) s = .ok (s.append bytes)) ∧
      Reads (getEntries get v.length) bytes v := by
  induction v with
  | nil => exact ⟨[], fun s => by simp [append, pure, Except.pure], .ret []⟩
  | cons x v ih =>
      obtain ⟨first, stored, read⟩ := each x (by simp)
      obtain ⟨rest, stored', read'⟩ := ih fun y h => each y (by simp [h])
      refine ⟨first ++ rest, fun s => ?_, ?_⟩
      · rw [List.foldlM_cons, stored]
        exact (stored' _).trans (congrArg _ (append_append _ _ _))
      · exact read.bind (f := fun x s => do
          let (v, s) ← getEntries get v.length s
          return (x :: v, s)) (read'.map (x :: ·))

theorem stores (f : Format) (x : f.Value) (valid : f.Valid x) : f.Stores x := by
  induction f with
  | uint => exact ⟨_, storeInt_of_lt (by norm_num) valid, reads_getInt_of_lt (n := 4) valid⟩
  | size => exact ⟨_, storeInt_of_lt (by norm_num) valid, reads_getInt_of_lt (n := 8) valid⟩
  | int =>
      obtain ⟨lower, upper⟩ := valid
      refine ⟨littleEndian 4 ((x : Int) % 2 ^ 64).toNat, fun s => ?_, ?_⟩
      · rw [store, storeInt, encodeLength_int lower upper]
        rfl
      · have read := (reads_getInt 4 ((x : Int) % 2 ^ 64).toNat).map
          fun l : Nat => (l : Int).bmod (2 ^ 32)
        have value : ((((x : Int) % 2 ^ 64).toNat % 256 ^ 4 : Nat) : Int).bmod (2 ^ 32) = x := by
          rw [low_octets]
          exact (Int.emod_bmod x (2 ^ 32)).trans
            (Int.bmod_eq_of_le (by simpa using lower) (by simpa using upper))
        rwa [value] at read
  | bytes =>
      refine ⟨_, fun s => ?_, reads_getBytes valid⟩
      rw [store, storeBytes, storeInt_of_lt (by norm_num) valid]
      exact congrArg _ (append_append _ _ _)
  | bigint =>
      have short : sizeInBase x < 2 ^ 31 := valid
      have field : sizeInBase x < 256 ^ 4 := short.trans (by norm_num)
      refine ⟨_, fun s => ?_, reads_getBigint field⟩
      simp only [store, storeBigint, numBytes_of_lt short, Int.toNat_natCast,
        storeInt_of_lt (show 4 ≤ 8 by norm_num) field, bytesFromBigint_sizeInBase]
      exact congrArg Except.ok ((append_append _ _ _).trans (append_append _ _ _))
  | vector f ih =>
      obtain ⟨short, each⟩ := valid
      obtain ⟨bytes, stored, read⟩ := stores_entries (v := x) fun y h => ih y (each y h)
      refine ⟨littleEndian 8 (List.length x) ++ bytes, fun s => ?_,
        (reads_getInt_of_lt (n := 8) short).bind read⟩
      simp only [store, storeInt_of_lt (show 8 ≤ 8 by norm_num) short]
      exact (stored _).trans (congrArg _ (append_append _ _ _))

theorem stores_message (items : Message) (valid : ∀ i ∈ items, i.1.Valid i.2) :
    ∃ bytes, (∀ s, storeAll items s = .ok (s.append bytes)) ∧
      Reads (getAll (items.map Sigma.fst)) bytes items := by
  induction items with
  | nil => exact ⟨[], fun s => by simp [storeAll, append, pure, Except.pure], .ret []⟩
  | cons item items ih =>
      obtain ⟨f, x⟩ := item
      obtain ⟨first, stored, read⟩ := stores f x (valid ⟨f, x⟩ (by simp))
      obtain ⟨rest, stored', read'⟩ := ih fun i h => valid i (by simp [h])
      refine ⟨first ++ rest, fun s => ?_, ?_⟩
      · simp only [storeAll, stored]
        exact (stored' _).trans (congrArg _ (append_append _ _ _))
      · exact read.bind (f := fun x s => do
          let (items, s) ← getAll (items.map Sigma.fst) s
          return ((⟨f, x⟩ :: items : Message), s)) (read'.map (⟨f, x⟩ :: ·))

/-- A message is read back as it was stored, up to its end, and no part of it that was cut off is
taken for a message. -/
theorem message_round_trip (items : Message) (valid : ∀ i ∈ items, i.1.Valid i.2) :
    ∃ t, storeAll items empty = .ok t ∧
      (∃ t', getAll (items.map Sigma.fst) t = .ok (items, t') ∧ t'.done) ∧
      ∀ cut < t.data.length, getAll (items.map Sigma.fst) ⟨t.data.take cut, 0, Nat.zero_le _⟩ =
        .error .insufficient_data := by
  obtain ⟨bytes, stored, read⟩ := stores_message items valid
  refine ⟨_, stored empty, ?_, fun cut less => read.short _ (List.take_prefix _ _) fun whole => ?_⟩
  · obtain ⟨t', back, unread, same⟩ := read.whole (empty.append bytes) [] (by simp [unread, append, empty])
    refine ⟨t', back, ?_⟩
    have length := t'.length_unread
    rw [unread, List.length_nil] at length
    have := t'.ptr_le
    rw [done, decide_eq_true_eq]
    omega
  · have length := congrArg List.length whole
    simp only [append, empty, List.nil_append] at less length
    rw [OctetStream.unread, List.drop_zero, List.length_take, min_eq_left less.le] at length
    exact less.ne length

theorem message_round_trip_bigints :
    let items : Message := [⟨.int, (-5 : Int)⟩, ⟨.vector .bigint, ([-300, 0] : List Int)⟩]
    ∃ t, storeAll items empty = .ok t ∧
      (∃ t', getAll (items.map Sigma.fst) t = .ok (items, t') ∧ t'.done) ∧
      ∀ cut < t.data.length, getAll (items.map Sigma.fst) ⟨t.data.take cut, 0, Nat.zero_le _⟩ =
        .error .insufficient_data := by
  intro items
  refine message_round_trip items ?_
  simp [items, Valid, sizeInBase]

end Format

end ProofOfCustody.Tools
