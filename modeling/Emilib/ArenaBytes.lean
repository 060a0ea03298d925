import Emilib.BlockIndices
import Emilib.ReceiveOperation
import Emilib.ReceiveRoom
import Emilib.ReturnChain

/-!
# Messages in the bytes of the arena

The functions of `emi_shbuf.c`, `emi_sockr.c`, `emi_ifr.c` and `emi_core.c` that
handle a message, on the bytes of the shared arena. The record of the message lies in
its block, the index of an entry in front of each block, and the header of a return
block in that block, so a store may hit any of them.

What `alloc_emi_buf` returns is left to the environment, as a place for the block or
NULL. Nothing is assumed of the place: it may overlap blocks in use, as it does in an
arena where the order fields of the buddy tree have gone wrong. Where the blocks stay
apart, these functions do what those on records kept beside the memory do, and that is
the connection this module makes.
-/

namespace Emilib.ArenaBytes

open BlockIndices (getBufAddr setBufAddr indexPlace)
open ByteWords FlagBits Messages Transfers
open ReceiveOperation (Circumstances Registration)
open Requests (checked)
open ReturnChain (fieldPlace loadRetdata)
open ReturnData (Obtained)
open SharedBlocks (Extent Shm Shared addrBufOffset buddyShift emiOrderNum newsize oldsize
  sizeToOrder toInt)

/-- The shared arena: its bytes, what `alloc_emi_buf` returns in the calls to come, the
blocks in use at first and handed out since, and the addresses `emi_alloc` returned and
those passed to `emi_free`. All are newest first. -/
structure Arena where
  bytes : Address → Byte
  answers : List (Option Nat)
  blocks : List Extent
  granted : List Address
  freed : List Address

/-- The index of the entry of a block. -/
def bufIndex (extent : Extent) : BitVec 32 :=
  BitVec.ofNat 32 (2 ^ (emiOrderNum - extent.order) - 1 + extent.blkOffset / 2 ^ extent.order)

/-- `alloc_emi_buf` under the lock. -/
def allocEmiBuf (arena : Arena) (size : Nat) : Option Extent × Arena :=
  if size = 0 then (none, arena)
  else match arena.answers with
    | [] => (none, arena)
    | none :: answers => (none, { arena with answers := answers })
    | some blkOffset :: answers =>
        (some ⟨blkOffset, sizeToOrder (toInt size)⟩, { arena with answers := answers })

/-- `emi_free`: the address is logged. -/
def emiFree (arena : Arena) (addr : Address) : Arena :=
  { arena with freed := addr :: arena.freed }

section Calls

variable (order : ByteOrder)

/-- The arena once a block was handed out, with the index of its entry in front of it. -/
def Arena.grant (arena : Arena) (extent : Extent) : Arena :=
  { arena with
    bytes := setBufAddr order arena.bytes extent.address (bufIndex extent)
    blocks := extent :: arena.blocks
    granted := extent.address :: arena.granted }

/-- `emi_alloc`. A `size_t` is a number below `2 ^ 64`. -/
def emiAlloc (arena : Arena) (size : Nat) : Option Address × Arena :=
  if size > 0 then
    match allocEmiBuf arena ((size + addrBufOffset) % 2 ^ 64) with
    | (none, arena) => (none, arena)
    | (some extent, arena) => (some extent.address, arena.grant order extent)
  else (none, arena)

/-- The members of the `struct emi_msg` at an address. -/
def loadMsg (bytes : Address → Byte) (address : Address) : EmiMsg :=
  withPayload order
    { flag := 0, msg := 0, cmd := 0, size := 0, retsize := 0
      dataOffset := word64 order (readBytes bytes (fieldPlace address 24) 8)
      retdataOffset := word64 order (readBytes bytes (fieldPlace address 32) 8) }
    (readBytes bytes address payloadSize)

/-- The bytes after members of the `struct emi_msg` at an address were assigned; the
others are stored as they are. -/
def storeMsg (bytes : Address → Byte) (address : Address) (message : EmiMsg) : Address → Byte :=
  let bytes := writeBytes bytes address (payloadBytes order message)
  let bytes := writeBytes bytes (fieldPlace address 24) (bytes64 order message.dataOffset)
  writeBytes bytes (fieldPlace address 32) (bytes64 order message.retdataOffset)

/-- A message in the arena. -/
structure Message where
  arena : Arena
  address : Address

/-- The record of the message. -/
def Message.record (message : Message) : EmiMsg := loadMsg order message.arena.bytes message.address

/-- Assign members of the record. -/
def Message.assign (message : Message) (record : EmiMsg) : Message :=
  { message with arena := { message.arena with
      bytes := storeMsg order message.arena.bytes message.address record } }

/-- Assign the flag word. -/
def Message.setFlag (message : Message) (flag : BitVec 32) : Message :=
  message.assign order { message.record order with flag := flag }

/-- `alloc_shared_msg`. -/
def allocSharedMsg (arena : Arena) (size : BitVec 32) : Arena ⊕ Message :=
  match emiAlloc order arena (sizeofMsg + size.toNat) with
  | (none, arena) => .inl arena
  | (some address, arena) =>
      let bytes := writeBytes arena.bytes address (List.replicate (sizeofMsg + size.toNat) 0)
      let dataOffset := bytes64 order (BitVec.ofNat 64 sizeofMsg)
      .inr ⟨{ arena with bytes := writeBytes bytes (fieldPlace address 24) dataOffset }, address⟩

/-- The order of the block of the message, found by the index in front of it. The entry
of a smallest block is changed only when that block is taken or freed. -/
def Message.blockOrder (message : Message) : Option Nat :=
  (message.arena.blocks.find? (fun extent =>
    bufIndex extent = getBufAddr order message.arena.bytes message.address)).map Extent.order

/-- The message after its data area moved to the new block at `data`. -/
def relocate (message : Message) (data : Address) : Message :=
  let record := message.record order
  let freed :=
    if Holds record.flag flagAllocdata then
      emiFree message.arena (getAddr message.address record.dataOffset)
    else message.arena
  Message.assign order ⟨freed, message.address⟩ { record with
    dataOffset := getOffset message.address data
    flag := raise record.flag flagAllocdata }

/-- `realloc_shared_msg`. Without an entry in use at the index there is no result. -/
def reallocSharedMsg (message : Message) : Option (Bool × Message) := do
  let size := (message.record order).size
  let blockOrder ← message.blockOrder order
  if oldsize blockOrder ≥ newsize size then return (true, message)
  else
    match emiAlloc order message.arena size.toNat with
    | (none, arena) =>
        let message : Message := ⟨arena, message.address⟩
        return (false, message.setFlag order (lower (message.record order).flag retSucceeded))
    | (some data, arena) => return (true, relocate order ⟨arena, message.address⟩ data)

/-- The receiving side of a connection: the message and the stream. -/
structure Receiving where
  message : Message
  source : Source

/-- The receiving side after bytes were stored at a place. -/
def Receiving.stored (receiving : Receiving) (place : Address) (got : List Byte)
    (source : Source) : Receiving where
  message := { receiving.message with arena := { receiving.message.arena with
    bytes := writeBytes receiving.message.arena.bytes place got } }
  source := source

/-- `emi_msg_read_payload`. -/
def emiMsgReadPayload (receiving : Receiving) : Option (Int × Receiving) := do
  let (ret, got, source) ← emiRead receiving.source (BitVec.ofNat 32 payloadSize)
  return (checked ret, receiving.stored receiving.message.address got source)

/-- `emi_msg_read_data`. -/
def emiMsgReadData (receiving : Receiving) : Option (Int × Receiving) := do
  let record := receiving.message.record order
  let (ret, got, source) ← emiRead receiving.source record.size
  return (checked ret,
    receiving.stored (getAddr receiving.message.address record.dataOffset) got source)

/-- `emi_msg_read`. -/
def emiMsgRead (receiving : Receiving) : Option (Int × Receiving) := do
  let (ret, receiving) ← emiMsgReadPayload receiving
  if ret ≠ 0 then return (-1, receiving)
  else if (receiving.message.record order).size.toNat > 0 then
    match ← reallocSharedMsg order receiving.message with
    | (false, message) => return (-1, { receiving with message := message })
    | (true, message) => emiMsgReadData order { receiving with message := message }
  else return (0, receiving)

/-- The message after an unsuccessful `emi_retdata_alloc`. -/
def failReply (message : Message) : Message :=
  message.setFlag order (lower (message.record order).flag retSucceeded)

/-- The record of the message at `address` with a new block at `addr` counted. -/
def countRetdata (address : Address) (record : EmiMsg) (addr : Address) (size : BitVec 32) :
    EmiMsg :=
  { record with
    retsize := record.retsize + (size + BitVec.ofNat 32 sizeofRetdata)
    retdataOffset := getOffset address addr }

/-- Put the new block at `addr` at the head of the chain. The old head offset passes
through a 32-bit variable. -/
def pushRetdata (message : Message) (addr : Address) (size : BitVec 32) : Message :=
  let record := message.record order
  let oldRetdataOffset : BitVec 32 := record.retdataOffset.setWidth 32
  let counted := message.assign order (countRetdata message.address record addr size)
  let bytes := writeBytes counted.arena.bytes addr (bytes64 order (oldRetdataOffset.setWidth 64))
  { counted with arena := { counted.arena with
      bytes := writeBytes bytes (fieldPlace addr 8) (bytes32 order size) } }

/-- `emi_retdata_alloc`, under the lock of the message: the address of the block, or
NULL, and the message. -/
def emiRetdataAlloc (message : Message) (size : BitVec 32) : Option Address × Message :=
  if size = 0 then (none, message)
  else if ¬ Holds (message.record order).flag modeBlock then (none, failReply order message)
  else
    match emiAlloc order message.arena (size.toNat + sizeofRetdata) with
    | (none, arena) => (none, failReply order ⟨arena, message.address⟩)
    | (some addr, arena) => (some addr, pushRetdata order ⟨arena, message.address⟩ addr size)

/-- The calls of `emi_retdata_alloc` the handlers make, in the order in which they
take the lock, after the blocks `obtained` before. -/
def retdataAllocs : Obtained → Message → List (BitVec 32) → Obtained × Message
  | obtained, message, [] => (obtained, message)
  | obtained, message, size :: calls =>
      match emiRetdataAlloc order message size with
      | (none, message) => retdataAllocs obtained message calls
      | (some addr, message) => retdataAllocs ((addr, size) :: obtained) message calls

/-- The first branch of `free_shared_msg_data`. -/
def freeAllocdata (message : Message) : Message :=
  let record := message.record order
  if Holds record.flag flagAllocdata then
    Message.setFlag order
      { message with arena := emiFree message.arena (getAddr message.address record.dataOffset) }
      (lower record.flag flagAllocdata)
  else message

/-- The second branch of `free_shared_msg_data`. -/
def freeRetdata (message : Message) : Message :=
  let record := message.record order
  if record.retsize.toNat > 0 then
    Message.assign order
      { message with arena := emiFree message.arena (getAddr message.address record.retdataOffset) }
      { record with retsize := 0 }
  else message

/-- `free_shared_msg`: what is left is the arena. -/
def freeSharedMsg (message : Message) : Arena :=
  let message := freeRetdata order (freeAllocdata order message)
  emiFree message.arena message.address

/-- The register path, up to its reply. -/
def registerMessage (registration : Registration) (message : Message) : Message :=
  match registration with
  | .noMap => message
  | .refused => message.setFlag order (lower (message.record order).flag retSucceeded)
  | .inserted => message.setFlag order (raise (message.record order).flag retSucceeded)

/-- The verdict of the handlers: one that fails clears the success bit in block mode. -/
def judge (someFailed : Bool) (message : Message) : Message :=
  if someFailed ∧ Holds (message.record order).flag modeBlock then
    message.setFlag order (lower (message.record order).flag retSucceeded)
  else message

/-- The end of the wait loop: without a receiver left the success bit is cleared. -/
def settle (allExited : Bool) (message : Message) : Message :=
  if allExited then message.setFlag order (lower (message.record order).flag retSucceeded)
  else message

/-- The send path, up to its reply, with the return blocks the handlers obtained. -/
def sendMessage (circumstances : Circumstances) (message : Message) : Obtained × Message :=
  if circumstances.receivers > 0 then
    let (obtained, message) := retdataAllocs order []
      (message.setFlag order (raise (message.record order).flag retSucceeded)) circumstances.calls
    (obtained, settle order circumstances.allExited (judge order circumstances.someFailed message))
  else ([], message.setFlag order (lower (message.record order).flag retSucceeded))

/-- `emi_receive_operation`: the return blocks that were obtained for the message, and
the arena afterwards. The reply in between only reads the message. -/
def emiReceiveOperation (arena : Arena) (source : Source) (circumstances : Circumstances) :
    Option (Obtained × Arena) :=
  match allocSharedMsg order arena 0 with
  | .inl arena => some ([], arena)
  | .inr msgPos => do
      let (ret, received) ← emiMsgRead order ⟨msgPos, source⟩
      let message := received.message
      if ret < 0 then return ([], freeSharedMsg order message)
      else if Holds (message.record order).flag cmdRegister then
        return ([], freeSharedMsg order (registerMessage order circumstances.registration message))
      else
        let (obtained, message) := sendMessage order circumstances message
        return (obtained, freeSharedMsg order message)

end Calls

/-- Blocks of the arena that start at multiples of their sizes and are pairwise apart. -/
structure Separate (blocks : List Extent) : Prop where
  apart : blocks.Pairwise Extent.Apart
  placed : ∀ extent ∈ blocks, extent.blkOffset % 2 ^ extent.order = 0 ∧
    extent.blkOffset + 2 ^ extent.order ≤ 2 ^ emiOrderNum

/-- As many bytes from a place on lie in the block. -/
structure Covers (extent : Extent) (start : Address) (count : Nat) : Prop where
  low : extent.blkOffset * 2 ^ buddyShift ≤ start.toNat
  high : start.toNat + count ≤ (extent.blkOffset + 2 ^ extent.order) * 2 ^ buddyShift
  inside : extent.blkOffset + 2 ^ extent.order ≤ 2 ^ emiOrderNum

section Blocks

variable {blocks : List Extent} {left right extent : Extent} {bytes : Address → Byte}
  {start place : Address} {count : Nat}

/-- Older blocks are separate if all are. -/
theorem Separate.older (separate : Separate blocks) {older : List Extent}
    (suffix : older <:+ blocks) : Separate older :=
  ⟨separate.apart.sublist suffix.sublist,
    fun extent member => separate.placed extent (suffix.subset member)⟩

/-- A block separate from others is one that a correct allocator may hand out. -/
theorem Separate.available (separate : Separate (extent :: blocks)) {live : List Extent}
    (listed : ∀ other ∈ live, other ∈ blocks) : extent.Available live := by
  obtain ⟨aligned, inside⟩ := separate.placed extent List.mem_cons_self
  exact ⟨aligned, inside,
    fun other member => (List.pairwise_cons.mp separate.apart).1 other (listed other member)⟩

/-- Two blocks at different addresses are apart. -/
theorem Separate.distinct (separate : Separate blocks) (leftMember : left ∈ blocks)
    (rightMember : right ∈ blocks) (different : left.address ≠ right.address) :
    left.Apart right := by
  have symmetric : Std.Symm Extent.Apart := ⟨fun _ _ apart => Or.symm apart⟩
  exact separate.apart.forall leftMember rightMember fun same => different (congrArg _ same)

/-- The newest block is at the address of no older one. -/
theorem Separate.newest (separate : Separate (extent :: blocks)) {other : Extent}
    (member : other ∈ blocks) : extent.address ≠ other.address := by
  intro same
  have apart := (List.pairwise_cons.mp separate.apart).1 other member
  have inside := (separate.placed extent List.mem_cons_self).2
  have within := (separate.placed other (List.mem_cons_of_mem extent member)).2
  have places := congrArg BitVec.toNat same
  rw [extent.address_toNat inside, other.address_toNat within] at places
  have positive : 0 < 2 ^ extent.order := Nat.two_pow_pos extent.order
  have nonempty : 0 < 2 ^ other.order := Nat.two_pow_pos other.order
  simp only [buddyShift, addrBufOffset] at places
  rcases apart with before | behind
  · omega
  · omega

/-- Bytes stored in one block leave another. -/
theorem untouched_apart (apart : left.Apart right) (covered : Covers left start count)
    {stored : List Byte} (hit : Covers right place stored.length) :
    Untouched bytes (writeBytes bytes place stored) start count := by
  obtain ⟨leftLow, leftHigh, leftInside⟩ := covered
  obtain ⟨rightLow, rightHigh, rightInside⟩ := hit
  simp only [buddyShift, emiOrderNum] at *
  apply writeBytes_untouched
  · omega
  · omega
  · rcases apart with before | behind
    · left
      omega
    · right
      omega

/-- What lies behind the index in front of the address, within the size of the block. -/
theorem covers_field (inside : extent.blkOffset + 2 ^ extent.order ≤ 2 ^ emiOrderNum)
    (offset : Nat) (room : offset + count + addrBufOffset ≤ 2 ^ extent.order * 2 ^ buddyShift) :
    Covers extent (fieldPlace extent.address offset) count := by
  have address := extent.address_toNat inside
  have bound := inside
  simp only [buddyShift, emiOrderNum, addrBufOffset] at address bound room
  have place : (fieldPlace extent.address offset).toNat = extent.address.toNat + offset :=
    ReturnChain.fieldPlace_toNat offset (by omega)
  refine ⟨?_, ?_, inside⟩
  · simp only [buddyShift]
    omega
  · simp only [buddyShift]
    omega

/-- A smallest block has room for the record of a message. -/
theorem covers_small (inside : extent.blkOffset + 2 ^ extent.order ≤ 2 ^ emiOrderNum)
    (offset : Nat) (small : offset + count ≤ sizeofMsg) :
    Covers extent (fieldPlace extent.address offset) count := by
  have positive : 0 < 2 ^ extent.order := Nat.two_pow_pos extent.order
  apply covers_field inside
  simp only [sizeofMsg] at small
  simp only [buddyShift, addrBufOffset]
  omega

/-- The record of a message lies in its block. -/
theorem covers_record (inside : extent.blkOffset + 2 ^ extent.order ≤ 2 ^ emiOrderNum) :
    Covers extent extent.address sizeofMsg := by
  have covered := @covers_small extent sizeofMsg inside 0 (Nat.le_of_eq (Nat.zero_add sizeofMsg))
  rwa [fieldPlace, BitVec.add_zero] at covered

/-- So does the index in front of it. -/
theorem covers_index (inside : extent.blkOffset + 2 ^ extent.order ≤ 2 ^ emiOrderNum) :
    Covers extent (indexPlace extent.address) 4 := by
  have positive : 0 < 2 ^ extent.order := Nat.two_pow_pos extent.order
  have address := extent.address_toNat inside
  have index := @BlockIndices.indexPlace_toNat extent.address
    (by rw [address]; exact Nat.le_add_left _ _)
  simp only [buddyShift, addrBufOffset] at address index
  refine ⟨?_, ?_, inside⟩
  · simp only [buddyShift]
    omega
  · simp only [buddyShift]
    omega

end Blocks

section Records

variable (order : ByteOrder) {before after bytes : Address → Byte} {address : Address}

/-- An untouched record is loaded as before. -/
theorem loadMsg_untouched (untouched : Untouched before after address sizeofMsg) :
    loadMsg order after address = loadMsg order before address := by
  have payload := untouched.read 0 payloadSize (by decide)
  have data := untouched.read 24 8 (by decide)
  have retdata := untouched.read 32 8 (by decide)
  rw [BitVec.add_zero] at payload
  simp only [loadMsg, fieldPlace, payload, data, retdata]

/-- Storing one member leaves the others. -/
theorem readBytes_field (bytes : Address → Byte) (bounded : address.toNat + sizeofMsg ≤ 2 ^ 64)
    (offset count place : Nat) (stored : List Byte) (inside : offset + count ≤ sizeofMsg)
    (within : place + stored.length ≤ sizeofMsg)
    (apart : offset + count ≤ place ∨ place + stored.length ≤ offset) :
    readBytes (writeBytes bytes (fieldPlace address place) stored)
        (fieldPlace address offset) count =
      readBytes bytes (fieldPlace address offset) count := by
  by_cases empty : count = 0
  · subst empty
    rfl
  by_cases nothing : stored = []
  · subst nothing
    rfl
  have some : 0 < stored.length := List.length_pos_iff.mpr nothing
  have target := @ReturnChain.fieldPlace_toNat address place (by omega)
  have source := @ReturnChain.fieldPlace_toNat address offset (by omega)
  have untouched := writeBytes_untouched bytes (fieldPlace address place)
    (fieldPlace address offset) stored count (by omega) (by omega) (by omega)
  have read := untouched.read 0 count (by omega)
  rwa [BitVec.add_zero] at read

/-- A stored member is read back. -/
theorem readBytes_stored (place : Address) (stored : List Byte) {count : Nat}
    (whole : stored.length = count) (bounded : count ≤ 2 ^ 64) :
    readBytes (writeBytes bytes place stored) place count = stored := by
  subst whole
  exact readBytes_writeBytes bytes place stored bounded

/-- The record that was stored is loaded. -/
theorem loadMsg_storeMsg (message : EmiMsg) (bounded : address.toNat + sizeofMsg ≤ 2 ^ 64) :
    loadMsg order (storeMsg order bytes address message) address = message := by
  have start : fieldPlace address 0 = address := BitVec.add_zero address
  have behind (bytes : Address → Byte) (place : Nat) (word : BitVec 64)
      (later : payloadSize ≤ place) (within : place + 8 ≤ sizeofMsg) :
      readBytes (writeBytes bytes (fieldPlace address place) (bytes64 order word)) address
        payloadSize = readBytes bytes address payloadSize := by
    have kept := readBytes_field bytes bounded 0 payloadSize place (bytes64 order word)
      (by decide) (by rwa [bytes64_length]) (.inl (by rwa [Nat.zero_add]))
    rwa [start] at kept
  have payload : readBytes (storeMsg order bytes address message) address payloadSize =
      payloadBytes order message := by
    rw [storeMsg, behind _ 32 _ (by decide) (by decide), behind _ 24 _ (by decide) (by decide)]
    exact readBytes_stored _ _ (payloadBytes_length order message) (by decide)
  have data : readBytes (storeMsg order bytes address message) (fieldPlace address 24) 8 =
      bytes64 order message.dataOffset := by
    rw [storeMsg, readBytes_field _ bounded 24 8 32 _ (by decide)
      (by rw [bytes64_length]; decide) (.inl (by decide))]
    exact readBytes_stored _ _ (bytes64_length order _) (by decide)
  have retdata : readBytes (storeMsg order bytes address message) (fieldPlace address 32) 8 =
      bytes64 order message.retdataOffset :=
    readBytes_stored _ _ (bytes64_length order _) (by decide)
  rw [loadMsg, payload, data, retdata, withPayload_payloadBytes, word64_bytes64, word64_bytes64]
  rfl

/-- The payload of a record lies at its address. -/
theorem payloadBytes_loadMsg (bytes : Address → Byte) (address : Address) :
    payloadBytes order (loadMsg order bytes address) = readBytes bytes address payloadSize := by
  have whole := readBytes_length bytes address payloadSize
  have member (offset : Nat) (inside : offset + 4 ≤ payloadSize) :
      bytes32 order (word32 order (((readBytes bytes address payloadSize).drop offset).take 4)) =
        ((readBytes bytes address payloadSize).drop offset).take 4 := by
    apply bytes32_word32
    rw [List.length_take, List.length_drop, whole]
    omega
  have first := member 0 (by decide)
  have joined (offset : Nat) : (readBytes bytes address payloadSize).take offset ++
      ((readBytes bytes address payloadSize).drop offset).take 4 =
        (readBytes bytes address payloadSize).take (offset + 4) := List.take_add.symm
  rw [List.drop_zero] at first
  simp only [payloadBytes, loadMsg, withPayload, first, member 4 (by decide),
    member 8 (by decide), member 12 (by decide), member 16 (by decide), joined]
  exact List.take_of_length_le (Nat.le_of_eq whole)

/-- Bytes stored over the start of the record replace those of its payload. -/
theorem loadMsg_overwritten (got : List Byte) (short : got.length ≤ payloadSize)
    (bounded : address.toNat + sizeofMsg ≤ 2 ^ 64) :
    loadMsg order (writeBytes bytes address got) address =
      overwritePayload order (loadMsg order bytes address) got := by
  have start : fieldPlace address 0 = address := BitVec.add_zero address
  have spliced := readBytes_spliced bytes address got 0 payloadSize (by omega) (by decide)
  rw [BitVec.add_zero, List.take_zero, List.nil_append, Nat.zero_add] at spliced
  have size : payloadSize = 20 := rfl
  have field (offset : Nat) (behind : payloadSize ≤ offset) (inside : offset + 8 ≤ sizeofMsg) :
      readBytes (writeBytes bytes address got) (fieldPlace address offset) 8 =
        readBytes bytes (fieldPlace address offset) 8 := by
    have kept := readBytes_field bytes bounded offset 8 0 got inside
      (by rw [Nat.zero_add]; exact Nat.le_trans short (by decide)) (.inr (by omega))
    rwa [start] at kept
  rw [overwritePayload, payloadBytes_loadMsg]
  simp only [loadMsg, spliced, field 24 (by decide) (by decide), field 32 (by decide) (by decide)]
  rfl

end Records

/-- Every block address has room for a record behind it and for an index in front. -/
theorem address_room (extent : Extent) :
    addrBufOffset ≤ extent.address.toNat ∧ extent.address.toNat + sizeofMsg ≤ 2 ^ 64 := by
  rw [Extent.address, BitVec.toNat_ofNat]
  simp only [buddyShift, addrBufOffset, sizeofMsg]
  omega

/-- The calls and blocks of an arena in bytes are those of an arena of records. -/
structure Reflects (arena : Arena) (shm : Shm) : Prop where
  offers : shm.offers = arena.answers
  live : ∀ extent ∈ shm.live.extents, extent ∈ arena.blocks
  granted : shm.granted = arena.granted
  freed : shm.freed = arena.freed

/-- A message in bytes is one with its record kept beside the memory: the record is the
one in its block, and a return block is in the bytes of another block. -/
structure Mirrors (order : ByteOrder) (message : Message) (shared : Shared) : Prop where
  reflects : Reflects message.arena shared.shm
  address : shared.address = message.address
  record : shared.message = message.record order
  own : ∃ own ∈ message.arena.blocks, own.address = message.address
  returns : ∀ place block, shared.shm.returns place = some block →
    (∃ extent ∈ message.arena.blocks, extent.address = place) ∧ place ≠ message.address ∧
      (loadRetdata order message.arena.bytes place).size = block.size ∧
      (loadRetdata order message.arena.bytes place).nextOffset = block.nextOffset

section Growth

variable (order : ByteOrder)

/-- `emi_alloc` adds a block, if any, to those in use. -/
theorem emiAlloc_grows (arena : Arena) (size : Nat) :
    arena.blocks <:+ (emiAlloc order arena size).2.blocks := by
  have taken (size : Nat) : (allocEmiBuf arena size).2.blocks = arena.blocks := by
    rw [allocEmiBuf]
    split_ifs
    · rfl
    · split <;> rfl
  rw [emiAlloc]
  split_ifs
  · have same := taken ((size + addrBufOffset) % 2 ^ 64)
    split
    · next found => rw [found] at same; exact same ▸ List.suffix_refl _
    · next extent _ found => rw [found] at same; exact same ▸ List.suffix_cons extent _
  · exact List.suffix_refl _

/-- So does `emi_retdata_alloc`. -/
theorem retdataAlloc_grows (message : Message) (size : BitVec 32) :
    message.arena.blocks <:+ (emiRetdataAlloc order message size).2.arena.blocks := by
  have allocated := emiAlloc_grows order message.arena (size.toNat + sizeofRetdata)
  rw [emiRetdataAlloc]
  split_ifs
  · exact List.suffix_refl _
  · cases call : emiAlloc order message.arena (size.toNat + sizeofRetdata) with
    | mk answer arena =>
      rw [call] at allocated
      cases answer with
      | none => exact allocated
      | some addr => exact allocated
  · exact List.suffix_refl _

/-- And so do all calls of the handlers. -/
theorem retdataAllocs_grows (calls : List (BitVec 32)) (obtained : Obtained)
    (message : Message) :
    message.arena.blocks <:+ (retdataAllocs order obtained message calls).2.arena.blocks := by
  induction calls generalizing obtained message with
  | nil => exact List.suffix_refl _
  | cons size calls inductionHypothesis =>
    have first := retdataAlloc_grows order message size
    rw [retdataAllocs]
    cases call : emiRetdataAlloc order message size with
    | mk answer after =>
      rw [call] at first
      cases answer with
      | none => exact first.trans (inductionHypothesis obtained after)
      | some addr => exact first.trans (inductionHypothesis _ after)

end Growth

section Steps

variable {order : ByteOrder} {arena : Arena} {shm : Shm} {message : Message} {shared : Shared}

/-- `emi_alloc` answers NULL on both sides, or hands out a block; an arena of records
hands it out where it is available. -/
theorem emiAlloc_reflected (order : ByteOrder) (reflects : Reflects arena shm) (size : Nat) :
    (∃ answers, emiAlloc order arena size = (none, { arena with answers := answers }) ∧
      SharedBlocks.emiAlloc shm size = (none, { shm with offers := answers })) ∨
    ∃ extent answers, extent.order = sizeToOrder (toInt ((size + addrBufOffset) % 2 ^ 64)) ∧
      emiAlloc order arena size =
        (some extent.address, Arena.grant order { arena with answers := answers } extent) ∧
      ∀ available, SharedBlocks.emiAlloc shm size =
        (some extent.address, shm.grant extent available answers) := by
  have same : { shm with offers := arena.answers } = shm := by rw [← reflects.offers]
  by_cases positive : size > 0
  swap
  · refine .inl ⟨arena.answers, by rw [emiAlloc, if_neg positive], ?_⟩
    rw [SharedBlocks.emiAlloc, if_neg positive, same]
  by_cases zero : (size + addrBufOffset) % 2 ^ 64 = 0
  · refine .inl ⟨arena.answers, ?_, ?_⟩
    · simp only [emiAlloc, if_pos positive, allocEmiBuf, if_pos zero]
    · simp only [SharedBlocks.emiAlloc, if_pos positive, SharedBlocks.allocEmiBuf, if_pos zero,
        same]
  have offered := reflects.offers
  cases answered : arena.answers with
  | nil =>
    rw [answered] at offered same
    refine .inl ⟨[], ?_, ?_⟩
    · simp only [emiAlloc, if_pos positive, allocEmiBuf, if_neg zero, answered]
      rw [← answered]
    · simp only [SharedBlocks.emiAlloc, if_pos positive, SharedBlocks.allocEmiBuf, if_neg zero,
        offered, same]
  | cons answer answers =>
    rw [answered] at offered
    cases answer with
    | none =>
      refine .inl ⟨answers, ?_, ?_⟩
      · simp only [emiAlloc, if_pos positive, allocEmiBuf, if_neg zero, answered]
      · simp only [SharedBlocks.emiAlloc, if_pos positive, SharedBlocks.allocEmiBuf, if_neg zero,
          offered]
    | some blkOffset =>
      refine .inr ⟨⟨blkOffset, sizeToOrder (toInt ((size + addrBufOffset) % 2 ^ 64))⟩, answers, rfl,
        ?_, ?_⟩
      · simp only [emiAlloc, if_pos positive, allocEmiBuf, if_neg zero, answered]
      · intro available
        simp only [SharedBlocks.emiAlloc, if_pos positive, SharedBlocks.allocEmiBuf, if_neg zero,
          offered, dif_pos available]

/-- A block handed out on both sides. -/
theorem Reflects.grant (reflects : Reflects arena shm) {extent : Extent} (available)
    (answers : List (Option Nat)) :
    Reflects (Arena.grant order { arena with answers := answers } extent)
      (shm.grant extent available answers) := by
  refine ⟨rfl, ?_, congrArg (extent.address :: ·) reflects.granted, reflects.freed⟩
  intro other member
  rcases List.mem_cons.mp member with rfl | old
  · exact List.mem_cons_self
  · exact List.mem_cons_of_mem extent (reflects.live other old)

/-- An address freed on both sides. -/
theorem Reflects.free (reflects : Reflects arena shm) (addr : Address) :
    Reflects (emiFree arena addr) (SharedBlocks.emiFree shm addr) :=
  ⟨reflects.offers, fun extent member => reflects.live extent (List.mem_of_mem_eraseP member),
    reflects.granted, congrArg (addr :: ·) reflects.freed⟩

/-- Storing a record leaves what lies in another block. -/
theorem storeMsg_apart (order : ByteOrder) {bytes : Address → Byte} {own other : Extent}
    (record : EmiMsg)
    (inside : own.blkOffset + 2 ^ own.order ≤ 2 ^ emiOrderNum) (apart : other.Apart own)
    {start : Address} {count : Nat} (covered : Covers other start count) :
    Untouched bytes (storeMsg order bytes own.address record) start count := by
  have covers (offset : Nat) (stored : List Byte) (small : offset + stored.length ≤ sizeofMsg) :=
    covers_small inside offset small
  have payload := covers 0 (payloadBytes order record) (by rw [payloadBytes_length]; decide)
  rw [fieldPlace, BitVec.add_zero] at payload
  exact ((untouched_apart apart covered payload).trans
    (untouched_apart apart covered (covers 24 _ (by rw [bytes64_length]; decide)))).trans
      (untouched_apart apart covered (covers 32 _ (by rw [bytes64_length]; decide)))

/-- The header of a return block lies in its block. -/
theorem header_kept (order : ByteOrder) {before after : Address → Byte} {extent : Extent}
    (untouched : ∀ {start count}, Covers extent start count → Untouched before after start count)
    (inside : extent.blkOffset + 2 ^ extent.order ≤ 2 ^ emiOrderNum) :
    (loadRetdata order after extent.address).size =
        (loadRetdata order before extent.address).size ∧
      (loadRetdata order after extent.address).nextOffset =
        (loadRetdata order before extent.address).nextOffset := by
  have covered := @covers_small extent sizeofRetdata inside 0 (by decide)
  rw [fieldPlace, BitVec.add_zero] at covered
  exact ReturnChain.loadRetdata_header (untouched covered)

/-- Assigning members of the record. -/
theorem Mirrors.assign (mirrors : Mirrors order message shared)
    (separate : Separate message.arena.blocks) (record : EmiMsg) :
    Mirrors order (message.assign order record) { shared with message := record } := by
  obtain ⟨own, member, placed⟩ := mirrors.own
  have bounded : message.address.toNat + sizeofMsg ≤ 2 ^ 64 := placed ▸ (address_room own).2
  refine ⟨⟨mirrors.reflects.offers, mirrors.reflects.live, mirrors.reflects.granted,
    mirrors.reflects.freed⟩, mirrors.address, (loadMsg_storeMsg order record bounded).symm,
    ⟨own, member, placed⟩, ?_⟩
  intro place block found
  obtain ⟨⟨extent, listed, rfl⟩, other, sized, linked⟩ := mirrors.returns place block found
  have apart := separate.distinct listed member (by rw [placed]; exact other)
  obtain ⟨size, link⟩ := header_kept order
    (fun covered => storeMsg_apart order record (separate.placed own member).2 apart covered)
    (separate.placed extent listed).2
  rw [placed] at size link
  exact ⟨⟨extent, listed, rfl⟩, other, size.trans sized, link.trans linked⟩

/-- A call of `emi_alloc` that answers NULL. -/
theorem Mirrors.refused (mirrors : Mirrors order message shared) (answers : List (Option Nat)) :
    Mirrors order ⟨{ message.arena with answers := answers }, message.address⟩
      { shared with shm := { shared.shm with offers := answers } } :=
  ⟨⟨rfl, mirrors.reflects.live, mirrors.reflects.granted, mirrors.reflects.freed⟩,
    mirrors.address, mirrors.record, mirrors.own, mirrors.returns⟩

/-- The index of a block handed out meets no other block. -/
theorem grant_beside (order : ByteOrder) {extent other : Extent}
    (separate : Separate (extent :: arena.blocks)) (listed : other ∈ arena.blocks) {start : Address}
    {count : Nat} (covered : Covers other start count) :
    Untouched arena.bytes (arena.grant order extent).bytes start count := by
  have index := covers_index (separate.placed extent List.mem_cons_self).2
  apply untouched_apart (Or.symm ((List.pairwise_cons.mp separate.apart).1 other listed)) covered
  rw [bytes32_length]
  exact index

/-- So it leaves the record of a message. -/
theorem grant_record (order : ByteOrder) {extent own : Extent}
    (separate : Separate (extent :: arena.blocks)) (member : own ∈ arena.blocks) :
    loadMsg order (arena.grant order extent).bytes own.address =
      loadMsg order arena.bytes own.address :=
  loadMsg_untouched order (grant_beside order separate member
    (covers_record (separate.placed own (List.mem_cons_of_mem extent member)).2))

/-- A call of `emi_alloc` that hands out a block. -/
theorem Mirrors.granted (mirrors : Mirrors order message shared) {extent : Extent}
    (separate : Separate (extent :: message.arena.blocks)) (available)
    (answers : List (Option Nat)) :
    Mirrors order ⟨Arena.grant order { message.arena with answers := answers } extent,
      message.address⟩ { shared with shm := shared.shm.grant extent available answers } := by
  obtain ⟨own, member, placed⟩ := mirrors.own
  refine ⟨mirrors.reflects.grant available answers, mirrors.address, ?_,
    ⟨own, List.mem_cons_of_mem extent member, placed⟩, ?_⟩
  · have kept := grant_record order separate member
    rw [placed] at kept
    exact mirrors.record.trans kept.symm
  · intro place block found
    obtain ⟨⟨other, listed, rfl⟩, away, sized, linked⟩ := mirrors.returns place block found
    obtain ⟨size, link⟩ := header_kept order
      (fun covered => grant_beside order separate listed covered)
      (separate.placed other (List.mem_cons_of_mem extent listed)).2
    exact ⟨⟨other, List.mem_cons_of_mem extent listed, rfl⟩, away, size.trans sized,
      link.trans linked⟩

/-- A call of `emi_free`. -/
theorem Mirrors.freed (mirrors : Mirrors order message shared) (addr : Address) :
    Mirrors order { message with arena := emiFree message.arena addr }
      { shared with shm := SharedBlocks.emiFree shared.shm addr } :=
  ⟨mirrors.reflects.free addr, mirrors.address, mirrors.record, mirrors.own, mirrors.returns⟩

/-- Assigning the flag word. -/
theorem Mirrors.setFlag (mirrors : Mirrors order message shared)
    (separate : Separate message.arena.blocks) (flag : BitVec 32) :
    Mirrors order (message.setFlag order flag) (ReceiveOperation.setFlag shared flag) := by
  rw [ReceiveOperation.setFlag, mirrors.record]
  exact mirrors.assign separate _

/-- The data area moved to another block. -/
theorem Mirrors.moved (mirrors : Mirrors order message shared)
    (separate : Separate message.arena.blocks) (data : Address) :
    Mirrors order (relocate order message data)
      (SharedBlocks.relocate shared shared.shm data) := by
  obtain ⟨shm, address, record⟩ := shared
  obtain rfl : address = message.address := mirrors.address
  obtain rfl : record = message.record order := mirrors.record
  by_cases flagged : Holds (message.record order).flag flagAllocdata
  · have freed := mirrors.freed (getAddr message.address (message.record order).dataOffset)
    have moved := freed.assign separate { message.record order with
      dataOffset := getOffset message.address data
      flag := raise (message.record order).flag flagAllocdata }
    simp only [relocate, SharedBlocks.relocate, if_pos flagged]
    exact moved
  · have moved := mirrors.assign separate { message.record order with
      dataOffset := getOffset message.address data
      flag := raise (message.record order).flag flagAllocdata }
    simp only [relocate, SharedBlocks.relocate, if_neg flagged]
    exact moved

/-- A return block put at the head of the chain: its header meets no other block. -/
theorem Mirrors.push (mirrors : Mirrors order message shared)
    (separate : Separate message.arena.blocks) {extent : Extent}
    (listed : extent ∈ message.arena.blocks) (other : extent.address ≠ message.address)
    (size : BitVec 32) :
    Mirrors order (pushRetdata order message extent.address size)
      (ReturnData.pushRetdata shared extent.address size) := by
  obtain ⟨own, member, placed⟩ := mirrors.own
  have counted := mirrors.assign separate
    (countRetdata message.address (message.record order) extent.address size)
  have inside := (separate.placed extent listed).2
  have first := covers_small inside 0 (Nat.le_of_lt (by rw [bytes64_length]; decide :
    0 + (bytes64 order (ReturnData.truncated (message.record order).retdataOffset)).length <
      sizeofMsg))
  have second := covers_small inside 8 (Nat.le_of_lt (by rw [bytes32_length]; decide :
    8 + (bytes32 order size).length < sizeofMsg))
  rw [fieldPlace, BitVec.add_zero] at first
  have beside {block : Extent} (apart : block.Apart extent) {start count}
      (covered : Covers block start count) :
      Untouched (message.assign order
          (countRetdata message.address (message.record order) extent.address size)).arena.bytes
        (pushRetdata order message extent.address size).arena.bytes start count :=
    (untouched_apart apart covered first).trans (untouched_apart apart covered second)
  refine ⟨⟨counted.reflects.offers, counted.reflects.live, counted.reflects.granted,
    counted.reflects.freed⟩, mirrors.address, ?_, ⟨own, member, placed⟩, ?_⟩
  · have apart := separate.distinct member listed (by rw [placed]; exact other.symm)
    have kept := beside apart (covers_record (separate.placed own member).2)
    rw [placed] at kept
    have same := counted.record.trans (loadMsg_untouched order kept).symm
    rw [ReturnData.pushRetdata, mirrors.record, mirrors.address]
    exact same
  · intro place block found
    by_cases new : place = extent.address
    · subst new
      simp only [ReturnData.pushRetdata, if_true] at found
      obtain rfl := Option.some.inj found
      obtain ⟨sized, linked⟩ := @ReturnChain.pushed_header extent.address order message.address
        ⟨message.record order, (message.assign order
          (countRetdata message.address (message.record order) extent.address size)).arena.bytes⟩
        size (Nat.le_trans (Nat.add_le_add_left (by decide) _) (address_room extent).2)
      exact ⟨⟨extent, listed, rfl⟩, other, sized, by rw [mirrors.record]; exact linked⟩
    · simp only [ReturnData.pushRetdata, if_neg new] at found
      obtain ⟨⟨older, present, rfl⟩, away, sized, linked⟩ := counted.returns place block found
      have apart := separate.distinct present listed new
      obtain ⟨header, link⟩ := header_kept order (fun covered => beside apart covered)
        (separate.placed older present).2
      exact ⟨⟨older, present, rfl⟩, away, header.trans sized, link.trans linked⟩

/-- An unsuccessful `emi_retdata_alloc`. -/
theorem Mirrors.failed (mirrors : Mirrors order message shared)
    (separate : Separate message.arena.blocks) :
    Mirrors order (failReply order message) (ReturnData.failReply shared) := by
  have flagged := mirrors.setFlag separate (lower (message.record order).flag retSucceeded)
  rw [← mirrors.record] at flagged
  rw [failReply, ← mirrors.record]
  exact flagged

/-- What one call of `emi_retdata_alloc` does on both sides: it fails, without or with an
answer of `emi_alloc`, or pushes the block that `emi_alloc` handed out. -/
theorem retdataAlloc_alike (mirrors : Mirrors order message shared) (size : BitVec 32) :
    (emiRetdataAlloc order message size = (none, message) ∧
      ReturnData.emiRetdataAlloc shared size = (none, shared)) ∨
    (∃ answers, emiRetdataAlloc order message size =
        (none, failReply order ⟨{ message.arena with answers := answers }, message.address⟩) ∧
      ReturnData.emiRetdataAlloc shared size =
        (none, ReturnData.failReply { shared with
          shm := { shared.shm with offers := answers } })) ∨
    ∃ extent answers, emiRetdataAlloc order message size = (some extent.address,
        pushRetdata order ⟨Arena.grant order { message.arena with answers := answers } extent,
          message.address⟩ extent.address size) ∧
      ∀ available, ReturnData.emiRetdataAlloc shared size =
        (some extent.address, ReturnData.pushRetdata
          { shared with shm := shared.shm.grant extent available answers }
          extent.address size) := by
  have flags := mirrors.record
  by_cases zero : size = 0
  · exact .inl ⟨by rw [emiRetdataAlloc, if_pos zero],
      by rw [ReturnData.emiRetdataAlloc, if_pos zero]⟩
  by_cases blocking : Holds (message.record order).flag modeBlock
  swap
  · have same : { shared.shm with offers := message.arena.answers } = shared.shm := by
      rw [← mirrors.reflects.offers]
    refine .inr (.inl ⟨message.arena.answers, by rw [emiRetdataAlloc, if_neg zero, if_pos blocking],
      ?_⟩)
    rw [ReturnData.emiRetdataAlloc, if_neg zero, flags, if_pos blocking, same, ← flags]
  rcases emiAlloc_reflected order mirrors.reflects (size.toNat + sizeofRetdata) with
    ⟨answers, refused, nothing⟩ | ⟨extent, answers, _, taken, given⟩
  · refine .inr (.inl ⟨answers, ?_, ?_⟩)
    · simp only [emiRetdataAlloc, if_neg zero, blocking, not_true, if_false, refused]
    · simp only [ReturnData.emiRetdataAlloc, if_neg zero, flags, blocking, not_true, if_false,
        nothing]
  · refine .inr (.inr ⟨extent, answers, ?_, ?_⟩)
    · simp only [emiRetdataAlloc, if_neg zero, blocking, not_true, if_false, taken]
    · intro available
      simp only [ReturnData.emiRetdataAlloc, if_neg zero, flags, blocking, not_true, if_false,
        given available]

/-- `emi_retdata_alloc` on both sides, when the blocks in use stay separate. -/
theorem Mirrors.called (mirrors : Mirrors order message shared) (size : BitVec 32)
    (separate : Separate (emiRetdataAlloc order message size).2.arena.blocks) :
    (ReturnData.emiRetdataAlloc shared size).1 = (emiRetdataAlloc order message size).1 ∧
      Mirrors order (emiRetdataAlloc order message size).2
        (ReturnData.emiRetdataAlloc shared size).2 := by
  rcases retdataAlloc_alike mirrors size with
    ⟨raw, kept⟩ | ⟨answers, raw, failed⟩ | ⟨extent, answers, raw, pushed⟩
  · rw [raw, kept]
    exact ⟨rfl, mirrors⟩
  · rw [raw] at separate ⊢
    rw [failed]
    exact ⟨rfl, (mirrors.refused answers).failed separate⟩
  · rw [raw] at separate ⊢
    have whole : Separate (extent :: message.arena.blocks) := separate
    have available := whole.available mirrors.reflects.live
    rw [pushed available]
    obtain ⟨own, member, placed⟩ := mirrors.own
    have other := whole.newest member
    rw [placed] at other
    exact ⟨rfl, (mirrors.granted whole available answers).push whole List.mem_cons_self other size⟩

/-- All calls of the handlers on both sides. -/
theorem Mirrors.handled (calls : List (BitVec 32)) (obtained : Obtained)
    (mirrors : Mirrors order message shared)
    (separate : Separate (retdataAllocs order obtained message calls).2.arena.blocks) :
    (ReturnData.retdataAllocs obtained shared calls).1 =
        (retdataAllocs order obtained message calls).1 ∧
      Mirrors order (retdataAllocs order obtained message calls).2
        (ReturnData.retdataAllocs obtained shared calls).2 := by
  induction calls generalizing obtained message shared with
  | nil => exact ⟨rfl, mirrors⟩
  | cons size calls inductionHypothesis =>
    rw [retdataAllocs] at separate ⊢
    rw [ReturnData.retdataAllocs]
    have first := mirrors.called size
    cases call : emiRetdataAlloc order message size with
    | mk answer after =>
      rw [call] at first
      cases same : ReturnData.emiRetdataAlloc shared size with
      | mk answered result =>
        rw [same] at first
        cases answer with
        | none =>
          simp only [call] at separate ⊢
          obtain ⟨none, onward⟩ := first (separate.older (retdataAllocs_grows order calls _ _))
          obtain rfl := none
          exact inductionHypothesis obtained onward separate
        | some addr =>
          simp only [call] at separate ⊢
          obtain ⟨some, onward⟩ := first (separate.older (retdataAllocs_grows order calls _ _))
          obtain rfl := some
          exact inductionHypothesis _ onward separate

end Steps

end Emilib.ArenaBytes
