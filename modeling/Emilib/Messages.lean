import Emilib.ByteWords
import Emilib.FlagBits

/-!
# Messages and return blocks of `emi_msg.h`

A message is the record `struct emi_msg`. Its first 20 bytes, the payload, are
what the two sides exchange; the offsets behind it are local and relative to the
address of the message. The socket address, the spin lock and the receiver
count are not part of this record: no function modelled over it reads them.

Offsets and addresses are 64-bit words, so `GET_ADDR` and `GET_OFFSET` wrap as
they do in the source.
-/

namespace Emilib.Messages

open ByteWords FlagBits

/-- An address, or the difference of two. -/
abbrev Address := BitVec 64

/-- The members of `struct emi_msg` that the modelled functions use. -/
structure EmiMsg where
  flag : BitVec 32
  msg : BitVec 32
  cmd : BitVec 32
  size : BitVec 32
  retsize : BitVec 32
  dataOffset : Address
  retdataOffset : Address
deriving DecidableEq, Repr

/-- `EMI_MSG_MODE_BLOCK`. -/
def modeBlock : BitVec 32 := 0x00000100

/-- `EMI_MSG_CMD_REGISTER`. -/
def cmdRegister : BitVec 32 := 0x00004000

/-- `EMI_MSG_RET_SUCCEEDED`. -/
def retSucceeded : BitVec 32 := 0x00010000

/-- `EMI_MSG_FLAG_ALLOCDATA`. -/
def flagAllocdata : BitVec 32 := 0x00040000

/-- `EMI_MSG_PAYLOAD_SIZE`. -/
def payloadSize : Nat := 20

/-- `sizeof(struct emi_msg)`. -/
def sizeofMsg : Nat := 72

/-- `sizeof(struct emi_retdata)`. -/
def sizeofRetdata : Nat := 16

/-- `GET_OFFSET`. -/
def getOffset (base addr : Address) : Address := addr - base

/-- `GET_ADDR`. -/
def getAddr (base offset : Address) : Address := base + offset

/-- `struct emi_retdata`: the header of a return block and the bytes behind it. -/
structure EmiRetdata where
  nextOffset : Address
  size : BitVec 32
  pad : BitVec 32
  data : List Byte
deriving DecidableEq, Repr

/-- The payload as it lies in memory. -/
def payloadBytes (order : ByteOrder) (message : EmiMsg) : List Byte :=
  bytes32 order message.flag ++ bytes32 order message.msg ++ bytes32 order message.cmd ++
    bytes32 order message.size ++ bytes32 order message.retsize

/-- The message whose payload lies in memory as these 20 bytes. -/
def withPayload (order : ByteOrder) (message : EmiMsg) (bytes : List Byte) : EmiMsg :=
  { message with
    flag := word32 order (bytes.take 4)
    msg := word32 order ((bytes.drop 4).take 4)
    cmd := word32 order ((bytes.drop 8).take 4)
    size := word32 order ((bytes.drop 12).take 4)
    retsize := word32 order ((bytes.drop 16).take 4) }

/-- The message after bytes were stored over the start of its payload. -/
def overwritePayload (order : ByteOrder) (message : EmiMsg) (bytes : List Byte) : EmiMsg :=
  withPayload order message (bytes ++ (payloadBytes order message).drop bytes.length)

/-- A return block as it lies in memory. -/
def retdataBytes (order : ByteOrder) (block : EmiRetdata) : List Byte :=
  bytes64 order block.nextOffset ++ bytes32 order block.size ++ bytes32 order block.pad ++
    block.data

/-- The offset of an address leads back to it. -/
@[simp] theorem getAddr_getOffset (base addr : Address) :
    getAddr base (getOffset base addr) = addr := by
  rw [getAddr, getOffset, BitVec.add_comm, BitVec.sub_add_cancel]

/-- The address at an offset has that offset. -/
@[simp] theorem getOffset_getAddr (base offset : Address) :
    getOffset base (getAddr base offset) = offset := by
  rw [getOffset, getAddr, BitVec.add_comm, BitVec.add_sub_cancel]

@[simp] theorem payloadBytes_length (order : ByteOrder) (message : EmiMsg) :
    (payloadBytes order message).length = payloadSize := by
  simp [payloadBytes, payloadSize]

/-- A complete payload replaces all five members. -/
theorem overwritePayload_complete (order : ByteOrder) (message : EmiMsg) (bytes : List Byte)
    (complete : bytes.length = payloadSize) :
    overwritePayload order message bytes = withPayload order message bytes := by
  rw [overwritePayload, complete, ← payloadBytes_length order message, List.drop_length,
    List.append_nil]

/-- A message with the payload of another one. -/
def carry (message sent : EmiMsg) : EmiMsg :=
  { message with
    flag := sent.flag
    msg := sent.msg
    cmd := sent.cmd
    size := sent.size
    retsize := sent.retsize }

/-- The payload of one message, stored over another, carries all five members. -/
theorem withPayload_payloadBytes (order : ByteOrder) (message sent : EmiMsg) :
    withPayload order message (payloadBytes order sent) = carry message sent := by
  have whole (word : BitVec 32) : (bytes32 order word).take 4 = bytes32 order word :=
    List.take_of_length_le (Nat.le_of_eq (bytes32_length order word))
  have past (word : BitVec 32) (count : Nat) (far : 4 ≤ count) :
      (bytes32 order word).drop count = [] :=
    List.drop_of_length_le (by rw [bytes32_length]; exact far)
  simp [withPayload, payloadBytes, carry, List.drop_append, whole, past]

/-- No two of the modelled flag bits coincide. -/
theorem retSucceeded_apart_flagAllocdata : retSucceeded &&& flagAllocdata = 0 := by decide

/-- A message whose first payload bytes were replaced by those of another one. -/
theorem overwritePayload_take (order : ByteOrder) (message sent : EmiMsg) (count : Nat) :
    overwritePayload order message ((payloadBytes order sent).take count) =
      withPayload order message
        ((payloadBytes order sent).take count ++ (payloadBytes order message).drop count) := by
  have same : (payloadBytes order message).drop ((payloadBytes order sent).take count).length =
      (payloadBytes order message).drop count := by
    by_cases inside : count ≤ payloadSize
    · rw [List.length_take, payloadBytes_length, Nat.min_eq_left inside]
    · rw [List.drop_eq_nil_of_le, List.drop_eq_nil_of_le]
      · rw [payloadBytes_length]
        omega
      · rw [List.length_take, payloadBytes_length, payloadBytes_length]
        omega
  rw [overwritePayload, same]

/-- A bit of its flag word is that of either message, by where its byte lies. -/
theorem overwritePayload_flag (order : ByteOrder) (message sent : EmiMsg) (count bit : Nat)
    (inside : bit < 32) :
    (overwritePayload order message ((payloadBytes order sent).take count)).flag.getLsbD bit =
      if byteOf order bit < count then sent.flag.getLsbD bit else message.flag.getLsbD bit := by
  have head (word : EmiMsg) (index : Nat) (early : index < 4) :
      (payloadBytes order word)[index]? = (bytes32 order word.flag)[index]? := by
    simp only [payloadBytes, List.append_assoc]
    exact List.getElem?_append_left (by simpa using early)
  have slice : ((payloadBytes order sent).take count ++
      (payloadBytes order message).drop count).take 4 =
      (bytes32 order sent.flag).take count ++ (bytes32 order message.flag).drop count := by
    apply List.ext_getElem?
    intro index
    rw [getElem?_replaced _ _ _ _ (by simp)]
    by_cases early : index < 4
    · rw [List.getElem?_take_of_lt early, getElem?_replaced _ _ _ _ (by simp),
        head sent index early, head message index early]
    · rw [List.getElem?_take_eq_none (by omega), List.getElem?_eq_none (by simpa using early),
        List.getElem?_eq_none (by simpa using early), ite_self]
  rw [overwritePayload_take]
  simp only [withPayload, slice]
  exact getLsbD_replaced order sent.flag message.flag count bit inside

/-- Its size is the size of both, when they have the same one. -/
theorem overwritePayload_size (order : ByteOrder) (message sent : EmiMsg) (count : Nat)
    (same : sent.size = message.size) :
    (overwritePayload order message ((payloadBytes order sent).take count)).size =
      message.size := by
  have slice (word : EmiMsg) : ((payloadBytes order word).drop 12).take 4 =
      bytes32 order word.size := by
    simp only [payloadBytes, List.append_assoc]
    rw [← List.append_assoc, ← List.append_assoc]
    exact slice_middle _ _ _ 12 4 (by simp) (by simp)
  rw [overwritePayload_take]
  simp only [withPayload]
  rw [slice_replaced _ _ _ _ _ (by simp) (by rw [slice, slice, same]), slice, word32_bytes32]

end Emilib.Messages
