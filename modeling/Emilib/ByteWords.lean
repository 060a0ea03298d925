import Mathlib.Algebra.Order.Ring.Int

/-!
# Words as bytes, in either byte order

A word of `count` bytes is stored least significant byte first, or reversed.
Storing and reading back agree up to the size of the word, and every string of
bytes is what its own value stores. The byte order is a parameter throughout,
so results about a wire format hold for any machine.
-/

namespace Emilib

/-- One byte of memory or of a stream. -/
abbrev Byte := BitVec 8

/-- The order in which a machine stores the bytes of a word. -/
inductive ByteOrder where
  | little
  | big
deriving DecidableEq, Repr

namespace ByteWords

/-- The low `count` bytes of a value, least significant first. -/
def lowBytes : Nat → Nat → List Byte
  | 0, _ => []
  | count + 1, value => BitVec.ofNat 8 value :: lowBytes count (value / 256)

/-- The value of bytes that start with the least significant one. -/
def lowValue : List Byte → Nat
  | [] => 0
  | byte :: bytes => byte.toNat + 256 * lowValue bytes

/-- The bytes a machine stores for a word. -/
def encode (order : ByteOrder) (count value : Nat) : List Byte :=
  match order with
  | .little => lowBytes count value
  | .big => (lowBytes count value).reverse

/-- The value a machine reads from bytes. -/
def decode (order : ByteOrder) (bytes : List Byte) : Nat :=
  match order with
  | .little => lowValue bytes
  | .big => lowValue bytes.reverse

@[simp] theorem lowBytes_length (count value : Nat) : (lowBytes count value).length = count := by
  induction count generalizing value with
  | zero => rfl
  | succ count inductionHypothesis => simp [lowBytes, inductionHypothesis]

@[simp] theorem encode_length (order : ByteOrder) (count value : Nat) :
    (encode order count value).length = count := by
  cases order <;> simp [encode]

/-- Reading back what was stored loses only what exceeds the word. -/
theorem lowValue_lowBytes (count value : Nat) :
    lowValue (lowBytes count value) = value % 256 ^ count := by
  induction count generalizing value with
  | zero => simp [lowBytes, lowValue, Nat.mod_one]
  | succ count inductionHypothesis =>
    have low : (BitVec.ofNat 8 value).toNat = value % 256 := BitVec.toNat_ofNat value 8
    rw [lowBytes, lowValue, inductionHypothesis, low, Nat.pow_succ', Nat.mod_mul]

/-- A stored word reads back, up to its size. -/
theorem decode_encode (order : ByteOrder) (count value : Nat) :
    decode order (encode order count value) = value % 256 ^ count := by
  cases order with
  | little => exact lowValue_lowBytes count value
  | big => rw [decode, encode, List.reverse_reverse, lowValue_lowBytes]

/-- The bytes of a value are those it was read from. -/
theorem lowBytes_lowValue (bytes : List Byte) : lowBytes bytes.length (lowValue bytes) = bytes := by
  induction bytes with
  | nil => rfl
  | cons byte rest inductionHypothesis =>
    have bound : byte.toNat < 256 := byte.isLt
    have low : BitVec.ofNat 8 (lowValue (byte :: rest)) = byte := by
      apply BitVec.eq_of_toNat_eq
      rw [BitVec.toNat_ofNat, lowValue]
      omega
    have high : lowValue (byte :: rest) / 256 = lowValue rest := by
      rw [lowValue]
      omega
    rw [List.length_cons, lowBytes, low, high, inductionHypothesis]

/-- A word that was read stores the bytes it was read from. -/
theorem encode_decode (order : ByteOrder) (bytes : List Byte) :
    encode order bytes.length (decode order bytes) = bytes := by
  cases order with
  | little => exact lowBytes_lowValue bytes
  | big =>
    have reversed := lowBytes_lowValue bytes.reverse
    rw [List.length_reverse] at reversed
    rw [encode, decode, reversed, List.reverse_reverse]

/-- A value read from bytes fits into as many bytes. -/
theorem decode_lt (order : ByteOrder) (bytes : List Byte) :
    decode order bytes < 256 ^ bytes.length := by
  have read := decode_encode order bytes.length (decode order bytes)
  rw [encode_decode] at read
  rw [read]
  exact Nat.mod_lt _ (Nat.pow_pos (by decide))

/-- A 32-bit word in memory. -/
def bytes32 (order : ByteOrder) (word : BitVec 32) : List Byte := encode order 4 word.toNat

/-- The 32-bit word that bytes hold. -/
def word32 (order : ByteOrder) (bytes : List Byte) : BitVec 32 :=
  BitVec.ofNat 32 (decode order bytes)

@[simp] theorem bytes32_length (order : ByteOrder) (word : BitVec 32) :
    (bytes32 order word).length = 4 := encode_length order 4 word.toNat

@[simp] theorem word32_bytes32 (order : ByteOrder) (word : BitVec 32) :
    word32 order (bytes32 order word) = word := by
  apply BitVec.eq_of_toNat_eq
  rw [word32, bytes32, decode_encode, BitVec.toNat_ofNat]
  have bound : word.toNat < 2 ^ 32 := word.isLt
  omega

/-- Four bytes read as a word are stored as they were. -/
theorem bytes32_word32 (order : ByteOrder) (bytes : List Byte) (whole : bytes.length = 4) :
    bytes32 order (word32 order bytes) = bytes := by
  have small : decode order bytes < 2 ^ 32 := Nat.lt_of_lt_of_eq (decode_lt order bytes)
    (by rw [whole]; decide)
  rw [bytes32, word32, BitVec.toNat_ofNat, Nat.mod_eq_of_lt small, ← whole, encode_decode]

/-- A 64-bit word in memory. -/
def bytes64 (order : ByteOrder) (word : BitVec 64) : List Byte := encode order 8 word.toNat

/-- The 64-bit word that bytes hold. -/
def word64 (order : ByteOrder) (bytes : List Byte) : BitVec 64 :=
  BitVec.ofNat 64 (decode order bytes)

@[simp] theorem bytes64_length (order : ByteOrder) (word : BitVec 64) :
    (bytes64 order word).length = 8 := encode_length order 8 word.toNat

@[simp] theorem word64_bytes64 (order : ByteOrder) (word : BitVec 64) :
    word64 order (bytes64 order word) = word := by
  apply BitVec.eq_of_toNat_eq
  rw [word64, bytes64, decode_encode, BitVec.toNat_ofNat]
  have bound : word.toNat < 2 ^ 64 := word.isLt
  omega

/-- The bytes between two positions are the part of a string that lies there. -/
theorem slice_middle {α : Type} (left middle right : List α) (start count : Nat)
    (starts : start = left.length) (counts : count = middle.length) :
    ((left ++ (middle ++ right)).drop start).take count = middle := by
  rw [starts, counts, List.drop_left, List.take_left]

/-- Replacing a stretch of a string leaves what lies before or behind the stretch. -/
theorem slice_spliced {α : Type} (bytes patch : List α) (place start count : Nat)
    (inside : place + patch.length ≤ bytes.length)
    (apart : start + count ≤ place ∨ place + patch.length ≤ start) :
    ((bytes.take place ++ patch ++ bytes.drop (place + patch.length)).drop start).take count =
      (bytes.drop start).take count := by
  apply List.ext_getElem?
  intro index
  by_cases short : index < count
  · simp only [List.getElem?_take_of_lt short, List.getElem?_drop]
    have taken : (bytes.take place).length = place := by
      rw [List.length_take]
      omega
    rcases apart with before | behind
    · rw [List.append_assoc, List.getElem?_append_left (by omega),
        List.getElem?_take_of_lt (by omega)]
    · have length : (bytes.take place ++ patch).length = place + patch.length := by
        rw [List.length_append, taken]
      rw [List.getElem?_append_right (by omega), length, List.getElem?_drop]
      congr 1
      omega
  · rw [List.getElem?_take_eq_none (by omega), List.getElem?_take_eq_none (by omega)]

/-- A replaced stretch reads back. -/
theorem spliced_slice {α : Type} (bytes patch : List α) (place : Nat)
    (inside : place + patch.length ≤ bytes.length) :
    ((bytes.take place ++ patch ++ bytes.drop (place + patch.length)).drop place).take
      patch.length = patch := by
  rw [List.append_assoc]
  apply slice_middle
  · rw [List.length_take]
    omega
  · rfl

/-- Replacing a stretch keeps the length. -/
theorem spliced_length {α : Type} (bytes patch : List α) (place : Nat)
    (inside : place + patch.length ≤ bytes.length) :
    (bytes.take place ++ patch ++ bytes.drop (place + patch.length)).length = bytes.length := by
  simp only [List.length_append, List.length_take, List.length_drop]
  omega

/-- An element of a string whose first elements were replaced. -/
theorem getElem?_replaced {α : Type} (new old : List α) (cut index : Nat)
    (lengths : new.length = old.length) :
    (new.take cut ++ old.drop cut)[index]? = if index < cut then new[index]? else old[index]? := by
  rw [List.getElem?_append, List.length_take, List.getElem?_take, List.getElem?_drop]
  by_cases early : index < cut
  · simp only [if_pos early]
    by_cases inside : index < new.length
    · rw [if_pos (by omega)]
    · rw [if_neg (by omega), List.getElem?_eq_none (by omega), List.getElem?_eq_none (by omega)]
  · simp only [if_neg early]
    rw [if_neg (by omega)]
    by_cases short : cut ≤ new.length
    · congr 1
      omega
    · rw [List.getElem?_eq_none (by omega), List.getElem?_eq_none (by omega)]

/-- A stretch in which two strings agree is not changed when the first elements of the one
replace those of the other. -/
theorem slice_replaced {α : Type} (new old : List α) (cut start count : Nat)
    (lengths : new.length = old.length)
    (same : (new.drop start).take count = (old.drop start).take count) :
    ((new.take cut ++ old.drop cut).drop start).take count = (old.drop start).take count := by
  apply List.ext_getElem?
  intro index
  have agree := congrArg (fun slice => slice[index]?) same
  simp only [List.getElem?_take, List.getElem?_drop, getElem?_replaced new old cut _ lengths]
    at agree ⊢
  by_cases early : start + index < cut
  · rw [if_pos early]
    exact agree
  · rw [if_neg early]

/-- A bit of a value is a bit of one of its bytes. -/
theorem testBit_lowValue (bytes : List Byte) (bit : Nat) :
    (lowValue bytes).testBit bit = (bytes[bit / 8]?.getD 0).getLsbD (bit % 8) := by
  induction bytes generalizing bit with
  | nil => simp [lowValue]
  | cons byte rest inductionHypothesis =>
    have whole : lowValue (byte :: rest) = 2 ^ 8 * lowValue rest + byte.toNat := by
      rw [lowValue]
      omega
    rw [whole, Nat.testBit_two_pow_mul_add _ byte.isLt]
    by_cases low : bit < 8
    · rw [if_pos low, Nat.div_eq_of_lt low, Nat.mod_eq_of_lt low]
      rfl
    · have later : bit / 8 = (bit - 8) / 8 + 1 := by omega
      have place : bit % 8 = (bit - 8) % 8 := by omega
      rw [if_neg low, inductionHypothesis, later, place, List.getElem?_cons_succ]

/-- The byte of a word in memory that has this bit. -/
def byteOf (order : ByteOrder) (bit : Nat) : Nat :=
  match order with
  | .little => bit / 8
  | .big => 3 - bit / 8

/-- A bit of a word, read off its bytes in memory. -/
theorem getLsbD_word32 (order : ByteOrder) (bytes : List Byte) (bit : Nat) (inside : bit < 32)
    (whole : bytes.length = 4) :
    (word32 order bytes).getLsbD bit =
      (bytes[byteOf order bit]?.getD 0).getLsbD (bit % 8) := by
  rw [word32, BitVec.getLsbD_ofNat, decide_eq_true inside, Bool.true_and]
  cases order with
  | little => exact testBit_lowValue bytes bit
  | big =>
    rw [decode, testBit_lowValue, List.getElem?_reverse (by omega), whole]
    rfl

/-- Of a word whose first bytes were replaced, each bit is that of one of two words. -/
theorem getLsbD_replaced (order : ByteOrder) (new old : BitVec 32) (cut bit : Nat)
    (inside : bit < 32) :
    (word32 order ((bytes32 order new).take cut ++ (bytes32 order old).drop cut)).getLsbD bit =
      if byteOf order bit < cut then new.getLsbD bit else old.getLsbD bit := by
  have whole : ((bytes32 order new).take cut ++ (bytes32 order old).drop cut).length = 4 := by
    simp only [List.length_append, List.length_take, List.length_drop, bytes32_length]
    omega
  have read (word : BitVec 32) := getLsbD_word32 order (bytes32 order word) bit inside
    (bytes32_length order word)
  simp only [word32_bytes32] at read
  rw [getLsbD_word32 order _ bit inside whole, getElem?_replaced _ _ _ _ (by simp), read, read]
  split <;> rfl

/-- The bytes of a range of memory. Memory maps 64-bit addresses to bytes, and
addresses wrap. -/
def readBytes (memory : BitVec 64 → Byte) (address : BitVec 64) (count : Nat) : List Byte :=
  (List.range count).map fun index => memory (address + BitVec.ofNat 64 index)

/-- Memory after bytes were stored from an address on. -/
def writeBytes (memory : BitVec 64 → Byte) (address : BitVec 64) (bytes : List Byte) :
    BitVec 64 → Byte :=
  fun place => bytes[(place - address).toNat]?.getD (memory place)

@[simp] theorem readBytes_length (memory : BitVec 64 → Byte) (address : BitVec 64) (count : Nat) :
    (readBytes memory address count).length = count := by
  simp [readBytes]

/-- A byte of a range of memory. -/
theorem readBytes_getElem (memory : BitVec 64 → Byte) (address : BitVec 64) (count index : Nat)
    (inside : index < (readBytes memory address count).length) :
    (readBytes memory address count)[index] = memory (address + BitVec.ofNat 64 index) := by
  simp only [readBytes, List.getElem_map, List.getElem_range]

/-- The place that many bytes ahead of an address is that many bytes from it. -/
theorem ahead_toNat (address : BitVec 64) (index : Nat) (bounded : index < 2 ^ 64) :
    (address + BitVec.ofNat 64 index - address).toNat = index := by
  rw [BitVec.add_comm, BitVec.add_sub_cancel, BitVec.toNat_ofNat]
  exact Nat.mod_eq_of_lt bounded

/-- Stored bytes read back, when they do not lap the address space. -/
theorem readBytes_writeBytes (memory : BitVec 64 → Byte) (address : BitVec 64) (bytes : List Byte)
    (bounded : bytes.length ≤ 2 ^ 64) :
    readBytes (writeBytes memory address bytes) address bytes.length = bytes := by
  apply List.ext_getElem (readBytes_length _ address bytes.length)
  intro index _ inside
  have place := ahead_toNat address index (Nat.lt_of_lt_of_le inside bounded)
  simp only [readBytes, writeBytes, List.getElem_map, List.getElem_range, place]
  rw [List.getElem?_eq_getElem inside, Option.getD_some]

/-- A stretch of memory holds what it held before. -/
def Untouched (before after : BitVec 64 → Byte) (start : BitVec 64) (count : Nat) : Prop :=
  ∀ index < count, after (start + BitVec.ofNat 64 index) = before (start + BitVec.ofNat 64 index)

/-- What two changes of memory leave is left by both. -/
theorem Untouched.trans {first second third : BitVec 64 → Byte} {start : BitVec 64} {count : Nat}
    (earlier : Untouched first second start count)
    (later : Untouched second third start count) : Untouched first third start count :=
  fun index inside => (later index inside).trans (earlier index inside)

/-- A part of an untouched stretch reads as before. -/
theorem Untouched.read {before after : BitVec 64 → Byte} {start : BitVec 64} {count : Nat}
    (untouched : Untouched before after start count) (offset length : Nat)
    (within : offset + length ≤ count) :
    readBytes after (start + BitVec.ofNat 64 offset) length =
      readBytes before (start + BitVec.ofNat 64 offset) length := by
  apply List.map_congr_left
  intro index member
  have inside := List.mem_range.mp member
  have place : start + BitVec.ofNat 64 offset + BitVec.ofNat 64 index =
      start + BitVec.ofNat 64 (offset + index) := by
    rw [BitVec.add_assoc, ← BitVec.ofNat_add]
  rw [place]
  exact untouched (offset + index) (by omega)

/-- Storing bytes leaves a stretch that they do not meet. -/
theorem writeBytes_untouched (memory : BitVec 64 → Byte) (address start : BitVec 64)
    (bytes : List Byte) (count : Nat) (bounded : start.toNat + count ≤ 2 ^ 64)
    (stored : address.toNat + bytes.length ≤ 2 ^ 64)
    (apart : start.toNat + count ≤ address.toNat ∨
      address.toNat + bytes.length ≤ start.toNat) :
    Untouched memory (writeBytes memory address bytes) start count := by
  intro index inside
  have outside : bytes.length ≤ (start + BitVec.ofNat 64 index - address).toNat := by
    have startBound : start.toNat < 2 ^ 64 := start.isLt
    have addressBound : address.toNat < 2 ^ 64 := address.isLt
    simp only [BitVec.toNat_sub, BitVec.toNat_add, BitVec.toNat_ofNat]
    omega
  rw [writeBytes, List.getElem?_eq_none outside, Option.getD_none]

/-- Storing bytes inside a stretch replaces that part of it. -/
theorem readBytes_spliced (memory : BitVec 64 → Byte) (start : BitVec 64) (bytes : List Byte)
    (offset count : Nat) (within : offset + bytes.length ≤ count) (bounded : count ≤ 2 ^ 64) :
    readBytes (writeBytes memory (start + BitVec.ofNat 64 offset) bytes) start count =
      (readBytes memory start count).take offset ++ bytes ++
        (readBytes memory start count).drop (offset + bytes.length) := by
  have whole := spliced_length (readBytes memory start count) bytes offset
    (by rw [readBytes_length]; exact within)
  rw [readBytes_length] at whole
  apply List.ext_getElem (by rw [readBytes_length, whole])
  intro index inside _
  rw [readBytes_length] at inside
  have taken : ((readBytes memory start count).take offset).length = offset := by
    rw [List.length_take, readBytes_length]
    omega
  have place : (start + BitVec.ofNat 64 index - (start + BitVec.ofNat 64 offset)).toNat =
      (2 ^ 64 - offset % 2 ^ 64 + index) % 2 ^ 64 := by
    have bound : start.toNat < 2 ^ 64 := start.isLt
    simp only [BitVec.toNat_sub, BitVec.toNat_add, BitVec.toNat_ofNat]
    omega
  rw [readBytes_getElem, writeBytes, place]
  by_cases before : index < offset
  · rw [List.getElem?_eq_none (by omega), Option.getD_none,
      List.getElem_append_left (by rw [List.length_append]; omega),
      List.getElem_append_left (by omega), List.getElem_take, readBytes_getElem]
  · by_cases behind : offset + bytes.length ≤ index
    · have length : ((readBytes memory start count).take offset ++ bytes).length =
          offset + bytes.length := by rw [List.length_append, taken]
      rw [List.getElem?_eq_none (by omega), Option.getD_none,
        List.getElem_append_right (by omega), List.getElem_drop, readBytes_getElem]
      congr 3
      omega
    · have stored : (2 ^ 64 - offset % 2 ^ 64 + index) % 2 ^ 64 = index - offset := by omega
      rw [List.getElem_append_left (by rw [List.length_append]; omega),
        List.getElem_append_right (by omega), stored,
        List.getElem?_eq_getElem (by omega), Option.getD_some]
      simp only [taken]

end ByteWords

end Emilib
