import Emilib.SharedBlocks
import Emilib.Transfers

/-!
# Requests on the wire

The payload functions of `emi_sock.c`, `emi_msg_write` of the sender and
`emi_msg_read` of the core, which reads the payload over the record of the new
message, finds room for the data the payload announces, and reads them there.

Both sides keep C's results: zero for success, minus one for an error. A missing
result is a `realloc_shared_msg` of an address that has no block.
-/

namespace Emilib.Requests

open ByteWords FlagBits Messages Transfers SharedBlocks

/-- The result of a function that maps every nonzero status to an error. -/
def checked (ret : Int) : Int := if ret = 0 then 0 else -1

/-- `emi_msg_write_payload`. -/
def emiMsgWritePayload (order : ByteOrder) (sink : Sink) (message : EmiMsg) :
    Option (Int × Sink) := do
  let (ret, sink) ← emiWrite sink (payloadBytes order message)
  return (checked ret, sink)

/-- `emi_msg_write_data`: the data area of the message at `address`. -/
def emiMsgWriteData (sink : Sink) (memory : Address → Byte) (address : Address)
    (message : EmiMsg) : Option (Int × Sink) := do
  let data := getAddr address message.dataOffset
  let (ret, sink) ← emiWrite sink (readBytes memory data message.size.toNat)
  return (checked ret, sink)

/-- `emi_msg_write`. -/
def emiMsgWrite (order : ByteOrder) (sink : Sink) (memory : Address → Byte) (address : Address)
    (message : EmiMsg) : Option (Int × Sink) := do
  let (ret, sink) ← emiMsgWritePayload order sink message
  if ret ≠ 0 then return (-1, sink)
  else if message.size.toNat > 0 then emiMsgWriteData sink memory address message
  else return (0, sink)

/-- `emi_msg_read_payload`: the bytes read replace the start of the payload. -/
def emiMsgReadPayload (order : ByteOrder) (source : Source) (message : EmiMsg) :
    Option (Int × EmiMsg × Source) := do
  let (ret, got, source) ← emiRead source (BitVec.ofNat 32 payloadSize)
  return (checked ret, overwritePayload order message got, source)

/-- The receiving side of a connection: the message and the stream. -/
structure Receiving where
  shared : Shared
  source : Source

/-- `emi_msg_read_data`. -/
def emiMsgReadData (receiving : Receiving) : Option (Int × Receiving) := do
  let shared := receiving.shared
  let data := getAddr shared.address shared.message.dataOffset
  let (ret, got, source) ← emiRead receiving.source shared.message.size
  let memory := writeBytes shared.shm.memory data got
  return (checked ret, ⟨{ shared with shm := { shared.shm with memory := memory } }, source⟩)

/-- `emi_msg_read`. -/
def emiMsgRead (order : ByteOrder) (receiving : Receiving) : Option (Int × Receiving) := do
  let (ret, message, source) ← emiMsgReadPayload order receiving.source receiving.shared.message
  let shared := { receiving.shared with message := message }
  if ret ≠ 0 then return (-1, ⟨shared, source⟩)
  else if message.size.toNat > 0 then
    match ← reallocSharedMsg shared with
    | (false, shared) => return (-1, ⟨shared, source⟩)
    | (true, shared) => emiMsgReadData ⟨shared, source⟩
  else return (0, ⟨shared, source⟩)

@[simp] theorem checked_zero : checked 0 = 0 := rfl

/-- A read status passes through the callers of `emi_read` unchanged. -/
theorem checked_readStatus (source : Source) (size : Nat) :
    checked (readStatus source size) = readStatus source size := by
  rw [readStatus]
  split <;> rfl

/-- So does a write status through those of `emi_write`. -/
theorem checked_writeStatus (sink : Sink) (count : Nat) :
    checked (writeStatus sink count) = writeStatus sink count := by
  rw [writeStatus]
  split <;> rfl

/-- `emi_msg_read_payload` stores what the stream has of the next 20 bytes. -/
theorem emiMsgReadPayload_exact (order : ByteOrder) (source : Source) (message : EmiMsg) :
    ∃ rest, emiMsgReadPayload order source message =
      some (readStatus source payloadSize,
        overwritePayload order message (source.bytes.take payloadSize), rest) ∧
      source.Advanced rest payloadSize := by
  obtain ⟨rest, read, advanced⟩ := emiRead_exact source (BitVec.ofNat 32 payloadSize)
  refine ⟨rest, ?_, advanced⟩
  rw [emiMsgReadPayload, read]
  simp only [Option.bind_eq_bind, Option.bind_some, Option.pure_def, checked_readStatus]
  rfl

/-- `emi_msg_read_data` stores what the stream has of the announced data. -/
theorem emiMsgReadData_exact (receiving : Receiving) :
    ∃ rest, emiMsgReadData receiving =
      some (readStatus receiving.source receiving.shared.message.size.toNat,
        ⟨{ receiving.shared with shm := { receiving.shared.shm with
            memory := writeBytes receiving.shared.shm.memory
              (getAddr receiving.shared.address receiving.shared.message.dataOffset)
              (receiving.source.bytes.take receiving.shared.message.size.toNat) } }, rest⟩) ∧
      receiving.source.Advanced rest receiving.shared.message.size.toNat := by
  obtain ⟨rest, read, advanced⟩ :=
    emiRead_exact receiving.source receiving.shared.message.size
  refine ⟨rest, ?_, advanced⟩
  rw [emiMsgReadData, read]
  simp only [Option.bind_eq_bind, Option.bind_some, Option.pure_def, checked_readStatus]

/-- The record of a message after what a stream has of a payload was read over it. -/
def recorded (order : ByteOrder) (source : Source) (message : EmiMsg) : EmiMsg :=
  overwritePayload order message (source.bytes.take payloadSize)

/-- The message `emi_msg_read` goes on with once it read a payload. -/
def stored (order : ByteOrder) (receiving : Receiving) : Shared :=
  { receiving.shared with
    message := recorded order receiving.source receiving.shared.message }

/-- What a message can be once `realloc_shared_msg` is done with it: unchanged,
refused, or with its data area in a new block. -/
inductive Stowed (shared : Shared) : Shared → Prop
  | unmoved : Stowed shared shared
  | refused (offers : List (Option Nat)) :
      Stowed shared (refuse shared { shared.shm with offers := offers })
  | moved (extent : Extent) (available : extent.Available shared.shm.live.extents)
      (offers : List (Option Nat)) :
      Stowed shared (relocate shared (shared.shm.grant extent available offers) extent.address)

/-- The message with other data areas. -/
def withMemory (shared : Shared) (memory : Address → Byte) : Shared :=
  { shared with shm := { shared.shm with memory := memory } }

/-- Other data areas are no other blocks. -/
theorem withMemory_live (shared : Shared) (memory : Address → Byte) :
    (withMemory shared memory).shm.live = shared.shm.live := rfl

theorem withMemory_granted (shared : Shared) (memory : Address → Byte) :
    (withMemory shared memory).shm.granted = shared.shm.granted := rfl

theorem withMemory_freed (shared : Shared) (memory : Address → Byte) :
    (withMemory shared memory).shm.freed = shared.shm.freed := rfl

/-- `emi_msg_read` after the payload was read over the record. -/
theorem emiMsgRead_stored (order : ByteOrder) (receiving : Receiving) (after : Source)
    (read : emiMsgReadPayload order receiving.source receiving.shared.message =
      some (readStatus receiving.source payloadSize,
        recorded order receiving.source receiving.shared.message, after)) :
    emiMsgRead order receiving =
      if readStatus receiving.source payloadSize ≠ 0 then
        some (-1, ⟨stored order receiving, after⟩)
      else if (stored order receiving).message.size.toNat > 0 then
        (reallocSharedMsg (stored order receiving)).bind fun result =>
          match result with
          | (false, shared) => some (-1, ⟨shared, after⟩)
          | (true, shared) => emiMsgReadData ⟨shared, after⟩
      else some (0, ⟨stored order receiving, after⟩) := by
  rw [emiMsgRead, read]
  rfl

/-- Everything `emi_msg_read` can do to a message with a block, whatever the stream
holds: store the payload, find room, and store bytes in data areas. -/
theorem emiMsgRead_cases (order : ByteOrder) (receiving : Receiving) (blockOrder : Nat)
    (held : receiving.shared.shm.blockOrder receiving.shared.address = some blockOrder) :
    ∃ ret placed memory rest,
      emiMsgRead order receiving = some (ret, ⟨withMemory placed memory, rest⟩) ∧
      Stowed (stored order receiving) placed := by
  obtain ⟨after, read, _⟩ :=
    emiMsgReadPayload_exact order receiving.source receiving.shared.message
  have same (shared : Shared) : withMemory shared shared.shm.memory = shared := rfl
  have heldStored : (stored order receiving).shm.blockOrder (stored order receiving).address =
      some blockOrder := held
  rw [emiMsgRead_stored order receiving after read]
  by_cases failed : readStatus receiving.source payloadSize ≠ 0
  · rw [if_pos failed]
    exact ⟨-1, stored order receiving, (stored order receiving).shm.memory, after, by rw [same],
      Stowed.unmoved⟩
  rw [if_neg failed]
  by_cases empty : (stored order receiving).message.size.toNat > 0
  · rw [if_pos empty]
    rcases reallocSharedMsg_cases (stored order receiving) blockOrder heldStored with
      kept | ⟨offers, refused⟩ | ⟨extent, available, offers, moved⟩
    · obtain ⟨rest, readData, _⟩ := emiMsgReadData_exact ⟨stored order receiving, after⟩
      rw [kept]
      exact ⟨_, stored order receiving, _, rest, readData, Stowed.unmoved⟩
    · rw [refused]
      exact ⟨-1, _, _, after, by rw [same]; rfl, Stowed.refused offers⟩
    · obtain ⟨rest, readData, _⟩ := emiMsgReadData_exact
        ⟨relocate (stored order receiving)
          ((stored order receiving).shm.grant extent available offers) extent.address, after⟩
      rw [moved]
      exact ⟨_, _, _, rest, readData, Stowed.moved extent available offers⟩
  · rw [if_neg empty]
    exact ⟨0, stored order receiving, (stored order receiving).shm.memory, after, by rw [same],
      Stowed.unmoved⟩

/-- The bytes `emi_msg_write` puts on a stream. -/
def wireBytes (order : ByteOrder) (memory : Address → Byte) (address : Address)
    (message : EmiMsg) : List Byte :=
  payloadBytes order message ++
    readBytes memory (getAddr address message.dataOffset) message.size.toNat

/-- Reading a complete payload over a message. -/
theorem payload_received (order : ByteOrder) (message sent : EmiMsg) (source : Source)
    (rest : List Byte) (stream : source.bytes = payloadBytes order sent ++ rest) :
    ∃ after, emiMsgReadPayload order source message = some (0, carry message sent, after) ∧
      after.bytes = rest := by
  obtain ⟨after, read, advanced, _⟩ := emiMsgReadPayload_exact order source message
  have taken : source.bytes.take payloadSize = payloadBytes order sent := by
    rw [stream, ← payloadBytes_length order sent, List.take_left]
  refine ⟨after, ?_, ?_⟩
  · have status := readStatus_complete stream
    rw [payloadBytes_length] at status
    rw [read, status, taken, overwritePayload_complete order message _
      (payloadBytes_length order sent), withPayload_payloadBytes]
  · rw [advanced, stream, ← payloadBytes_length order sent, List.drop_left]

/-- The data of this size fit into the smallest block that `alloc_shared_msg(0)` takes. -/
def FitsInline (size : BitVec 32) : Prop :=
  size.toNat + sizeofMsg ≤ 2 ^ buddyShift - addrBufOffset

instance (size : BitVec 32) : Decidable (FitsInline size) := inferInstanceAs (Decidable (_ ≤ _))

/-- A message may stay in its own smallest block exactly when the data fit behind it. -/
theorem inline_iff (size : BitVec 32) (small : size.toNat + sizeofMsg < 2 ^ 31) :
    oldsize 0 ≥ newsize size ↔ FitsInline size := by
  rw [newsize_exact size small]
  simp only [FitsInline, oldsize, buddyShift, addrBufOffset]
  omega

/-- `realloc_shared_msg` finds room for the data, and changes nothing of the
record but the allocation bit and the data offset. -/
theorem realloc_places (shared : Shared) (held : shared.shm.blockOrder shared.address = some 0)
    (small : shared.message.size.toNat + sizeofMsg < 2 ^ 31)
    (room : ¬ FitsInline shared.message.size →
      (emiAlloc shared.shm shared.message.size.toNat).1 ≠ none) :
    ∃ placed dataOffset, reallocSharedMsg shared = some (true, placed) ∧
      placed.message = { shared.message with
        dataOffset := dataOffset
        flag :=
          if FitsInline shared.message.size
          then shared.message.flag else raise shared.message.flag flagAllocdata } := by
  have compared := inline_iff shared.message.size small
  by_cases fits : FitsInline shared.message.size
  · refine ⟨shared, shared.message.dataOffset,
      reallocSharedMsg_kept shared 0 held (compared.2 fits), ?_⟩
    rw [if_pos fits]
  · cases taken : emiAlloc shared.shm shared.message.size.toNat with
    | mk data shm =>
      cases data with
      | none => exact absurd (by rw [taken]) (room fits)
      | some data =>
        refine ⟨_, getOffset shared.address data, reallocSharedMsg_moved shared 0 data shm held
          (fun enough => fits (compared.1 enough)) taken, ?_⟩
        rw [if_neg fits]
        rfl

/-- The message in the arena is the one that was sent with this content. -/
structure Delivered (sent : EmiMsg) (content : List Byte) (shared : Shared) : Prop where
  msg : shared.message.msg = sent.msg
  cmd : shared.message.cmd = sent.cmd
  size : shared.message.size = sent.size
  retsize : shared.message.retsize = sent.retsize
  flag : shared.message.flag =
    if FitsInline sent.size then sent.flag else raise sent.flag flagAllocdata
  moved : Holds shared.message.flag flagAllocdata ↔ ¬ FitsInline sent.size
  data : readBytes shared.shm.memory (getAddr shared.address shared.message.dataOffset)
    sent.size.toNat = content

/-- Reading the data of a message whose room was found. -/
theorem data_received (sent : EmiMsg) (content rest : List Byte) (placed : Shared)
    (dataOffset : Address) (source : Source) (plain : ¬ Holds sent.flag flagAllocdata)
    (message : placed.message = { carry emptyMsg sent with
      dataOffset := dataOffset
      flag := if FitsInline sent.size then sent.flag else raise sent.flag flagAllocdata })
    (whole : content.length = sent.size.toNat) (stream : source.bytes = content ++ rest) :
    ∃ final, emiMsgReadData ⟨placed, source⟩ = some (0, final) ∧ final.source.bytes = rest ∧
      Delivered sent content final.shared := by
  have size : placed.message.size = sent.size := by rw [message]; rfl
  have flag : placed.message.flag =
      if FitsInline sent.size then sent.flag else raise sent.flag flagAllocdata := by rw [message]
  obtain ⟨after, read, advanced, _⟩ := emiMsgReadData_exact ⟨placed, source⟩
  simp only [size, stream, ← whole, List.take_left, List.drop_left] at read advanced
  rw [readStatus_complete stream] at read
  refine ⟨_, read, advanced, ?_⟩
  constructor
  · rw [message]; rfl
  · rw [message]; rfl
  · exact size
  · rw [message]; rfl
  · exact flag
  · rw [flag]
    by_cases fits : FitsInline sent.size
    · simp [fits, plain]
    · simp [fits, holds_raise sent.flag flagAllocdata (by decide)]
  · rw [← whole]
    apply readBytes_writeBytes
    have bound : sent.size.toNat < 2 ^ 32 := sent.size.isLt
    omega

/-- A request with more data than a smallest block has left. -/
def longRequest : EmiMsg where
  flag := modeBlock
  msg := 7
  cmd := 1
  size := 200
  retsize := 0
  dataOffset := 72
  retdataOffset := 0

/-- An arena whose next two blocks are at the places 0 and 1. -/
def emptyArena : Shm where
  live := ⟨[], by simp [Tiled]⟩
  offers := [some 0, some 1]
  granted := []
  freed := []
  memory := fun _ => 0
  returns := fun _ => none

/-- The message `alloc_shared_msg(0)` makes there. -/
def firstMessage : Shared :=
  ⟨{ emptyArena.grant ⟨0, 0⟩ (by decide) [some 1] with
      memory := writeBytes emptyArena.memory (getAddr 4 72) [] }, 4, emptyMsg⟩

end Emilib.Requests
