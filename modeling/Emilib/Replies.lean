import Emilib.ReturnData

/-!
# Replies on the sender's side

`emi_msg_read_ret` of `emi_sock.c` reads the payload of a reply over the record of
the sent message, then all return blocks into one buffer, where it rebuilds their
links from the sizes alone. `for_each_retdata` walks these links.

The buffer is the bytes `malloc` returned. A header field that is read or written
outside of it has no result, and so has a block whose data leave it.
-/

namespace Emilib.Replies

open ByteWords Messages Transfers SharedBlocks Requests ReturnData

/-- What `malloc` returned: the address, and what the memory there held. -/
structure Storage where
  place : Address
  stale : Nat → Byte

/-- The `count` bytes at the start of the storage. -/
def Storage.bytes (storage : Storage) (count : Nat) : List Byte :=
  (List.range count).map storage.stale

/-- `GET_ADDR(msg, offset)`, as an index into the buffer at `retdata_offset`. -/
def bufferIndex (message : EmiMsg) (offset : Address) : Nat :=
  (offset - message.retdataOffset).toNat

/-- `data->size`, of the header at an index of the buffer. -/
def loadSize (order : ByteOrder) (buffer : List Byte) (index : Nat) : Option (BitVec 32) :=
  if index + 12 ≤ buffer.length then some (word32 order ((buffer.drop (index + 8)).take 4))
  else none

/-- Assign `data->next_offset`, of the header at an index of the buffer. -/
def storeNextOffset (order : ByteOrder) (buffer : List Byte) (index : Nat) (offset : Address) :
    Option (List Byte) :=
  if index + 8 ≤ buffer.length then
    some (buffer.take index ++ bytes64 order offset ++ buffer.drop (index + 8))
  else none

/-- The loop of `emi_msg_read_retdata` that updates the offsets. Every round takes
at least a header's length off `left_size`. -/
def relinkLoop (order : ByteOrder) (message : EmiMsg) :
    Nat → List Byte → Nat → Int → Option (List Byte)
  | 0, _, _, _ => none
  | fuel + 1, buffer, data, leftSize => do
      let size ← loadSize order buffer data
      let nextOffset := message.retdataOffset + size.setWidth 64 + BitVec.ofNat 64 sizeofRetdata
      let buffer ← storeNextOffset order buffer data nextOffset
      let leftSize := leftSize - (size.toNat + sizeofRetdata)
      if leftSize > 0 then
        relinkLoop order message fuel buffer (bufferIndex message nextOffset) leftSize
      else storeNextOffset order buffer data 0

/-- A reply as the sender has it: the message, the buffer at `retdata_offset` while
one is allocated, and the stream. -/
structure Reply where
  message : EmiMsg
  buffer : Option (List Byte)
  source : Source
deriving DecidableEq, Repr

/-- `emi_msg_read_retdata`, into the buffer that holds `stale` bytes. -/
def emiMsgReadRetdata (order : ByteOrder) (message : EmiMsg) (stale : List Byte)
    (source : Source) : Option (Int × Reply) := do
  let (ret, got, source) ← emiRead source message.retsize
  let buffer := got ++ stale.drop got.length
  if ret ≠ 0 then return (-1, ⟨message, some buffer, source⟩)
  else
    let buffer ← relinkLoop order message (message.retsize.toNat + 1) buffer 0 message.retsize.toNat
    return (0, ⟨message, some buffer, source⟩)

/-- The message with its return data in this storage. -/
def atStorage (address : Address) (storage : Storage) (message : EmiMsg) : EmiMsg :=
  { message with retdataOffset := getOffset address storage.place }

/-- The end of `emi_msg_read_ret`: an error in the data frees the buffer again, as
`emi_msg_free_data` does. -/
def finishRead (ret : Int) (reply : Reply) : Int × Reply :=
  if ret ≠ 0 then
    (-1, { reply with message := { reply.message with retsize := 0 }, buffer := none })
  else (0, reply)

/-- `emi_msg_read_ret`, when `malloc` would return this storage, or NULL. -/
def emiMsgReadRet (order : ByteOrder) (address : Address) (message : EmiMsg)
    (malloc : Option Storage) (source : Source) : Option (Int × Reply) := do
  let (ret, message, source) ← emiMsgReadPayload order source message
  if ret ≠ 0 then return (-1, ⟨message, none, source⟩)
  else if message.retsize.toNat > 0 then
    match malloc with
    | none => return (-1, ⟨message, none, source⟩)
    | some storage =>
        let message := atStorage address storage message
        let (ret, reply) ←
          emiMsgReadRetdata order message (storage.bytes message.retsize.toNat) source
        return finishRead ret reply
  else return (0, ⟨message, none, source⟩)

/-- Read the return block whose header is at an index of the buffer. -/
def loadBlock (order : ByteOrder) (buffer : List Byte) (index : Nat) : Option EmiRetdata :=
  let size := word32 order ((buffer.drop (index + 8)).take 4)
  if index + sizeofRetdata + size.toNat ≤ buffer.length then
    some {
      nextOffset := word64 order ((buffer.drop index).take 8)
      size := size
      pad := word32 order ((buffer.drop (index + 12)).take 4)
      data := (buffer.drop (index + sizeofRetdata)).take size.toNat }
  else none

/-- `for_each_retdata` over the buffer of a reply, after the block `data`: the
blocks it visits. -/
def forEachRetdata (order : ByteOrder) (address : Address) (message : EmiMsg)
    (buffer : List Byte) : Nat → Option EmiRetdata → Option (List EmiRetdata)
  | 0, _ => none
  | fuel + 1, data =>
      match getNextRetdata address message data with
      | none => some []
      | some place => do
          let block ← loadBlock order buffer (bufferIndex message (getOffset address place))
          let rest ← forEachRetdata order address message buffer fuel (some block)
          return block :: rest

/-- The size of a record in the buffer is read back. -/
theorem loadSize_record (order : ByteOrder) (before after : List Byte) (block : EmiRetdata) :
    loadSize order (before ++ (retdataBytes order block ++ after)) before.length =
      some block.size := by
  have split : before ++ (retdataBytes order block ++ after) =
      (before ++ bytes64 order block.nextOffset) ++ (bytes32 order block.size ++
        (bytes32 order block.pad ++ block.data ++ after)) := by
    simp [retdataBytes, List.append_assoc]
  have field := slice_middle (before ++ bytes64 order block.nextOffset)
    (bytes32 order block.size) (bytes32 order block.pad ++ block.data ++ after)
    (before.length + 8) 4 (by simp) (by simp)
  rw [loadSize, if_pos, split, field, word32_bytes32]
  simp only [List.length_append, retdataBytes_length, sizeofRetdata]
  omega

/-- Assigning the link of a record changes nothing else of the buffer. -/
theorem storeNextOffset_record (order : ByteOrder) (before after : List Byte)
    (block : EmiRetdata) (offset : Address) :
    storeNextOffset order (before ++ (retdataBytes order block ++ after)) before.length offset =
      some (before ++ (retdataBytes order { block with nextOffset := offset } ++ after)) := by
  have split : before ++ (retdataBytes order block ++ after) =
      (before ++ bytes64 order block.nextOffset) ++ (bytes32 order block.size ++
        bytes32 order block.pad ++ block.data ++ after) := by
    simp [retdataBytes, List.append_assoc]
  have rest : (before ++ (retdataBytes order block ++ after)).drop (before.length + 8) =
      bytes32 order block.size ++ bytes32 order block.pad ++ block.data ++ after := by
    rw [split]
    exact List.drop_left' (by simp)
  rw [storeNextOffset, if_pos, rest, List.take_left]
  · simp [retdataBytes, List.append_assoc]
  · simp only [List.length_append, retdataBytes_length, sizeofRetdata]
    omega

/-- A record in the buffer is read back whole. -/
theorem loadBlock_record (order : ByteOrder) (before after : List Byte) (block : EmiRetdata)
    (whole : block.data.length = block.size.toNat) :
    loadBlock order (before ++ (retdataBytes order block ++ after)) before.length =
      some block := by
  have link := slice_middle before (bytes64 order block.nextOffset)
    (bytes32 order block.size ++ bytes32 order block.pad ++ block.data ++ after)
    before.length 8 rfl (by simp)
  have size := slice_middle (before ++ bytes64 order block.nextOffset) (bytes32 order block.size)
    (bytes32 order block.pad ++ block.data ++ after) (before.length + 8) 4 (by simp) (by simp)
  have pad := slice_middle (before ++ bytes64 order block.nextOffset ++ bytes32 order block.size)
    (bytes32 order block.pad) (block.data ++ after) (before.length + 12) 4 (by simp) (by simp)
  have data := slice_middle (before ++ bytes64 order block.nextOffset ++
    bytes32 order block.size ++ bytes32 order block.pad) block.data after
    (before.length + sizeofRetdata) block.size.toNat (by simp [sizeofRetdata]) whole.symm
  simp only [List.append_assoc] at link size pad data
  simp only [loadBlock, retdataBytes, List.append_assoc, link, size, pad, word32_bytes32,
    word64_bytes64, data]
  rw [if_pos]
  simp only [List.length_append, bytes64_length, bytes32_length, whole, sizeofRetdata]
  omega

/-- The offset of a place in the buffer leads back to it. -/
theorem bufferIndex_ahead (message : EmiMsg) (index : Nat) (bounded : index < 2 ^ 64) :
    bufferIndex message (message.retdataOffset + BitVec.ofNat 64 index) = index :=
  ahead_toNat message.retdataOffset index bounded

/-- The offset that a round stores is the one of the record's length. -/
theorem nextOffset_exact (message : EmiMsg) (size : BitVec 32) :
    message.retdataOffset + size.setWidth 64 + BitVec.ofNat 64 sizeofRetdata =
      message.retdataOffset + BitVec.ofNat 64 (size.toNat + sizeofRetdata) := by
  rw [BitVec.add_assoc]
  congr 1

/-- It leads to the place that many bytes into the buffer. -/
theorem bufferIndex_following (message : EmiMsg) (size : BitVec 32) :
    bufferIndex message (message.retdataOffset + size.setWidth 64 +
      BitVec.ofNat 64 sizeofRetdata) = size.toNat + sizeofRetdata := by
  have bound : size.toNat < 2 ^ 32 := size.isLt
  rw [nextOffset_exact]
  exact bufferIndex_ahead message _ (by simp only [sizeofRetdata]; omega)

/-- A round of the relinking loop at a record: the next header is taken at the
record's own length, counted from the start of the buffer and not from the record. -/
theorem relinkLoop_record (order : ByteOrder) (message : EmiMsg) (fuel : Nat)
    (before after : List Byte) (block : EmiRetdata) (leftSize : Int) :
    relinkLoop order message (fuel + 1) (before ++ (retdataBytes order block ++ after))
        before.length leftSize =
      if leftSize - (block.size.toNat + sizeofRetdata) > 0 then
        relinkLoop order message fuel
          (before ++ (retdataBytes order { block with
            nextOffset := message.retdataOffset +
              BitVec.ofNat 64 (block.size.toNat + sizeofRetdata) } ++ after))
          (block.size.toNat + sizeofRetdata) (leftSize - (block.size.toNat + sizeofRetdata))
      else some (before ++ (retdataBytes order { block with nextOffset := 0 } ++ after)) := by
  have index := bufferIndex_following message block.size
  rw [nextOffset_exact] at index
  simp only [relinkLoop, loadSize_record, storeNextOffset_record, nextOffset_exact, index,
    Option.bind_eq_bind, Option.bind_some]

/-- Once the loop takes a record's header again, it stays there until the sizes are
used up. Proof: by induction on the rounds left. -/
theorem relinkLoop_spins (order : ByteOrder) (message : EmiMsg) (fuel : Nat)
    (before after : List Byte) (block : EmiRetdata) (leftSize : Int)
    (again : before.length = block.size.toNat + sizeofRetdata)
    (enough : leftSize < fuel) :
    relinkLoop order message (fuel + 1) (before ++ (retdataBytes order block ++ after))
        before.length leftSize =
      some (before ++ (retdataBytes order { block with nextOffset := 0 } ++ after)) := by
  induction fuel generalizing block leftSize with
  | zero =>
    have finished : ¬ leftSize - (block.size.toNat + sizeofRetdata) > 0 := by
      simp only [sizeofRetdata]
      omega
    rw [relinkLoop_record, if_neg finished]
  | succ fuel inductionHypothesis =>
    rw [relinkLoop_record]
    split
    · rw [← again]
      have fewer : leftSize - (block.size.toNat + sizeofRetdata) < fuel := by
        simp only [sizeofRetdata]
        omega
      have spun := inductionHypothesis { block with
        nextOffset := message.retdataOffset + BitVec.ofNat 64 before.length }
        (leftSize - (block.size.toNat + sizeofRetdata)) again fewer
      exact spun
    · rfl

/-- A visit of `for_each_retdata` at a header of the buffer. -/
theorem forEachRetdata_visit (order : ByteOrder) (address : Address) (message : EmiMsg)
    (buffer : List Byte) (fuel index : Nat) (data : Option EmiRetdata)
    (nonzero : message.retsize ≠ 0) (bounded : index < 2 ^ 64)
    (follows : followed message data = message.retdataOffset + BitVec.ofNat 64 index)
    (apart : getAddr address (message.retdataOffset + BitVec.ofNat 64 index) ≠ address) :
    forEachRetdata order address message buffer (fuel + 1) data =
      (loadBlock order buffer index).bind fun block =>
        (forEachRetdata order address message buffer fuel (some block)).map (block :: ·) := by
  have next : getNextRetdata address message data =
      some (getAddr address (message.retdataOffset + BitVec.ofNat 64 index)) := by
    simp only [getNextRetdata, follows, if_neg nonzero, if_neg apart]
  rw [forEachRetdata, next]
  simp only [getOffset_getAddr, bufferIndex_ahead message index bounded]
  cases loadBlock order buffer index with
  | none => rfl
  | some block =>
    simp only [Option.bind_eq_bind, Option.bind_some]
    cases forEachRetdata order address message buffer fuel (some block) <;> rfl

/-- A visit of `for_each_retdata` to a record of the buffer. -/
theorem forEachRetdata_record (order : ByteOrder) (address : Address) (message : EmiMsg)
    (fuel : Nat) (before after : List Byte) (block : EmiRetdata) (data : Option EmiRetdata)
    (nonzero : message.retsize ≠ 0) (whole : block.data.length = block.size.toNat)
    (follows : followed message data = message.retdataOffset + BitVec.ofNat 64 before.length)
    (apart : getAddr address (followed message data) ≠ address)
    (bounded : before.length < 2 ^ 64) :
    forEachRetdata order address message (before ++ (retdataBytes order block ++ after))
        (fuel + 1) data =
      (forEachRetdata order address message (before ++ (retdataBytes order block ++ after))
        fuel (some block)).map (block :: ·) := by
  rw [follows] at apart
  have visit := forEachRetdata_visit order address message
    (before ++ (retdataBytes order block ++ after)) fuel before.length data nonzero bounded
    follows apart
  rw [visit, loadBlock_record order before after block whole, Option.bind_some]

/-- `for_each_retdata` stops after a record that links to the message. -/
theorem forEachRetdata_end (order : ByteOrder) (address : Address) (message : EmiMsg)
    (buffer : List Byte) (fuel : Nat) (data : Option EmiRetdata)
    (home : followed message data = 0) :
    forEachRetdata order address message buffer (fuel + 1) data = some [] := by
  have nowhere : getNextRetdata address message data = none := by
    simp [getNextRetdata, home, getAddr]
  rw [forEachRetdata, nowhere]

/-- A walk that ends visits the same blocks with more fuel. -/
theorem forEachRetdata_more (order : ByteOrder) (address : Address) (message : EmiMsg)
    (buffer : List Byte) (fuel extra : Nat) (data : Option EmiRetdata)
    (visited : List EmiRetdata)
    (ended : forEachRetdata order address message buffer fuel data = some visited) :
    forEachRetdata order address message buffer (fuel + extra) data = some visited := by
  induction fuel generalizing data visited with
  | zero => cases ended
  | succ fuel inductionHypothesis =>
    rw [Nat.succ_add, forEachRetdata]
    rw [forEachRetdata] at ended
    cases next : getNextRetdata address message data with
    | none =>
      rw [next] at ended
      exact ended
    | some place =>
      simp only [next] at ended ⊢
      obtain ⟨block, loaded, continued⟩ := Option.bind_eq_some_iff.1 ended
      obtain ⟨rest, walked, collected⟩ := Option.bind_eq_some_iff.1 continued
      have further := inductionHypothesis (some block) rest walked
      simp only [loaded, Option.bind_eq_bind, Option.bind_some, further]
      exact collected

/-- The walk has one outcome, whatever fuel it was given. -/
theorem forEachRetdata_unique (order : ByteOrder) (address : Address) (message : EmiMsg)
    (buffer : List Byte) (fuel fuel' : Nat) (data : Option EmiRetdata)
    (visited visited' : List EmiRetdata)
    (ended : forEachRetdata order address message buffer fuel data = some visited)
    (ended' : forEachRetdata order address message buffer fuel' data = some visited') :
    visited = visited' := by
  have left := forEachRetdata_more order address message buffer fuel fuel' data visited ended
  have right := forEachRetdata_more order address message buffer fuel' fuel data visited' ended'
  rw [Nat.add_comm, right] at left
  exact (Option.some.inj left).symm

/-- Reading complete return data, once their relinking has a result. -/
theorem emiMsgReadRetdata_complete (order : ByteOrder) (message : EmiMsg) (stale : List Byte)
    (source : Source) (body rest linked : List Byte)
    (counted : body.length = message.retsize.toNat) (covered : stale.length ≤ body.length)
    (stream : source.bytes = body ++ rest)
    (relinked : relinkLoop order message (message.retsize.toNat + 1) body 0
      message.retsize.toNat = some linked) :
    ∃ after, emiMsgReadRetdata order message stale source =
      some (0, ⟨message, some linked, after⟩) := by
  obtain ⟨after, read, _⟩ := emiRead_exact source message.retsize
  have taken : source.bytes.take message.retsize.toNat = body := by
    rw [stream, ← counted, List.take_left]
  have status := readStatus_complete stream
  rw [counted] at status
  rw [taken, status] at read
  refine ⟨after, ?_⟩
  simp only [emiMsgReadRetdata, read, Option.bind_eq_bind, Option.bind_some, ne_eq, not_true,
    if_false, List.drop_of_length_le covered, List.append_nil, relinked, Option.pure_def]

/-- Reading a complete reply with return data, likewise. -/
theorem emiMsgReadRet_complete (order : ByteOrder) (address : Address) (message sent : EmiMsg)
    (storage : Storage) (source : Source) (body rest linked : List Byte)
    (counted : body.length = sent.retsize.toNat) (nonzero : sent.retsize ≠ 0)
    (stream : source.bytes = payloadBytes order sent ++ (body ++ rest))
    (relinked : relinkLoop order (atStorage address storage (carry message sent))
      (sent.retsize.toNat + 1) body 0 sent.retsize.toNat = some linked) :
    ∃ after, emiMsgReadRet order address message (some storage) source =
      some (0, ⟨atStorage address storage (carry message sent), some linked, after⟩) := by
  obtain ⟨headed, read, remaining⟩ := payload_received order message sent source _ stream
  obtain ⟨after, readData⟩ := emiMsgReadRetdata_complete order
    (atStorage address storage (carry message sent))
    (storage.bytes (carry message sent).retsize.toNat) headed body rest linked counted
    (by simp [Storage.bytes, counted, carry]) remaining relinked
  have positive : (carry message sent).retsize.toNat > 0 := by
    have some : sent.retsize.toNat ≠ 0 := fun none => nonzero (BitVec.eq_of_toNat_eq none)
    exact Nat.pos_of_ne_zero some
  refine ⟨after, ?_⟩
  simp only [emiMsgReadRet, read, Option.bind_eq_bind, Option.bind_some, ne_eq, not_true,
    if_false, if_pos positive]
  have same : (atStorage address storage (carry message sent)).retsize =
      (carry message sent).retsize := rfl
  rw [same, readData]
  rfl

/-- A sender: where its message is, the message, and what `malloc` will return. -/
structure Client where
  address : Address
  message : EmiMsg
  storage : Storage

/-- The storage does not overlap the message. -/
def Client.Apart (client : Client) (count : Nat) : Prop :=
  ∀ index < count, getAddr client.storage.place (BitVec.ofNat 64 index) ≠ client.address

/-- What a user of `for_each_retdata` sees of a block. -/
def content (block : EmiRetdata) : BitVec 32 × List Byte := (block.size, block.data)

/-- `for_each_retdata` on the reply visits these blocks, and then stops. -/
def Enumerates (order : ByteOrder) (client : Client) (reply : Reply)
    (blocks : List EmiRetdata) : Prop :=
  ∃ fuel visited, forEachRetdata order client.address reply.message (reply.buffer.getD []) fuel
      none = some visited ∧ visited.map content = blocks.map content

/-- The message in the core has these return blocks, and their lengths sum up to
its `retsize`. -/
structure Replying (shared : Shared) (chain : List (Address × EmiRetdata)) : Prop where
  chained : Chained shared shared.message.retdataOffset chain
  nonempty : ∀ entry ∈ chain, 0 < entry.2.size.toNat
  counted : (chain.map fun entry => entry.2.size.toNat + sizeofRetdata).sum =
    shared.message.retsize.toNat

/-- Whatever `emi_msg_write_ret` sends of the message, any sender that receives it
enumerates the blocks of its chain. -/
def ReplySurvives (order : ByteOrder) (shared : Shared) (chain : List (Address × EmiRetdata)) :
    Prop :=
  ∀ (sink : Sink) (client : Client), sink.room = none →
    client.Apart shared.message.retsize.toNat →
    ∃ fuel written wire, emiMsgWriteRet order shared fuel sink = some (0, written) ∧
      written.sent = sink.sent ++ wire ∧
      ∀ (source : Source) (rest : List Byte), source.bytes = wire ++ rest →
        ∃ reply, emiMsgReadRet order client.address client.message (some client.storage) source =
            some (0, reply) ∧
          Enumerates order client reply (chain.map Prod.snd)

/-- The bytes of a chain are as many as announced. -/
theorem Replying.length {shared : Shared} {chain : List (Address × EmiRetdata)}
    (replying : Replying shared chain) (order : ByteOrder) :
    (chainBytes order chain).length = shared.message.retsize.toNat := by
  rw [← replying.counted]
  have chained := replying.chained
  clear replying
  generalize shared.message.retdataOffset = offset at chained
  induction chain generalizing offset with
  | nil => rfl
  | cons entry rest inductionHypothesis =>
    obtain ⟨_, _, _, _, whole, continued⟩ := chained
    rw [chainBytes_cons, List.length_append, retdataBytes_length, whole,
      inductionHypothesis _ continued, List.map_cons, List.sum_cons]
    omega

/-- What `emi_msg_write_ret` sends of a replying message. -/
theorem Replying.sends {shared : Shared} {chain : List (Address × EmiRetdata)}
    (replying : Replying shared chain) (order : ByteOrder) (sink : Sink)
    (unlimited : sink.room = none) :
    ∃ fuel written, emiMsgWriteRet order shared fuel sink = some (0, written) ∧
      written.sent = sink.sent ++
        (payloadBytes order shared.message ++ chainBytes order chain) := by
  obtain ⟨headed, sent, open', walked⟩ := emiMsgWriteRet_exact order shared sink unlimited
  by_cases nothing : shared.message.retsize.toNat > 0
  · have nonzero : shared.message.retsize ≠ 0 := by
      intro zero
      rw [zero] at nothing
      exact absurd nothing (by decide)
    obtain ⟨written, loop, extended⟩ :=
      chain_sends order shared nonzero chain none replying.chained headed open'
    refine ⟨chain.length + 1, written, ?_, ?_⟩
    · rw [walked, if_pos nothing, loop]
    · rw [extended, sent, List.append_assoc]
  · have empty : chainBytes order chain = [] := by
      apply List.eq_nil_of_length_eq_zero
      rw [replying.length order]
      omega
    refine ⟨0, headed, ?_, ?_⟩
    · rw [walked, if_neg nothing]
    · rw [sent, empty, List.append_nil]

/-- The record of a client's message once a reply's payload and buffer are there. -/
def Client.replied (client : Client) (shared : Shared) : EmiMsg :=
  atStorage client.address client.storage (carry client.message shared.message)

/-- No place of the buffer is taken for the message. -/
theorem Client.Apart.visited {client : Client} {count : Nat} (apart : client.Apart count)
    (index : Nat) (inside : index < count) :
    getAddr client.address (getOffset client.address client.storage.place +
      BitVec.ofNat 64 index) ≠ client.address := by
  have place : getAddr client.address (getOffset client.address client.storage.place +
      BitVec.ofNat 64 index) = getAddr client.storage.place (BitVec.ofNat 64 index) := by
    have home := getAddr_getOffset client.address client.storage.place
    rw [getAddr] at home
    rw [getAddr, ← BitVec.add_assoc, home, getAddr]
  rw [place]
  exact apart index inside

/-- A relinked buffer from which a walk reads the blocks is all a sender needs. -/
theorem survives_of_relinked (order : ByteOrder) (shared : Shared)
    (chain : List (Address × EmiRetdata)) (replying : Replying shared chain)
    (nonzero : shared.message.retsize ≠ 0)
    (readable : ∀ client : Client, client.Apart shared.message.retsize.toNat →
      ∃ linked, relinkLoop order (client.replied shared) (shared.message.retsize.toNat + 1)
          (chainBytes order chain) 0 shared.message.retsize.toNat = some linked ∧
        ∃ fuel visited, forEachRetdata order client.address (client.replied shared) linked fuel
            none = some visited ∧ visited.map content = (chain.map Prod.snd).map content) :
    ReplySurvives order shared chain := by
  intro sink client unlimited apart
  obtain ⟨fuel, written, sends, sent⟩ := replying.sends order sink unlimited
  obtain ⟨linked, relinked, walks⟩ := readable client apart
  refine ⟨fuel, written, payloadBytes order shared.message ++ chainBytes order chain, sends, sent,
    ?_⟩
  intro source rest stream
  rw [List.append_assoc] at stream
  obtain ⟨after, read⟩ := emiMsgReadRet_complete order client.address client.message shared.message
    client.storage source _ rest linked (replying.length order) nonzero stream relinked
  exact ⟨_, read, walks⟩

/-- A reply without return data survives. -/
theorem none_survives (order : ByteOrder) (shared : Shared) (replying : Replying shared []) :
    ReplySurvives order shared [] := by
  have zero : shared.message.retsize = 0 := BitVec.eq_of_toNat_eq replying.counted.symm
  intro sink client unlimited _
  obtain ⟨fuel, written, sends, sent⟩ := replying.sends order sink unlimited
  refine ⟨fuel, written, payloadBytes order shared.message ++ [], sends, sent, ?_⟩
  intro source rest stream
  rw [List.append_assoc] at stream
  obtain ⟨after, read, _⟩ :=
    payload_received order client.message shared.message source _ stream
  have nothing : ¬ (carry client.message shared.message).retsize.toNat > 0 := by
    simp [carry, zero]
  refine ⟨⟨carry client.message shared.message, none, after⟩, ?_, 1, [], ?_, rfl⟩
  · simp only [emiMsgReadRet, read, Option.bind_eq_bind, Option.bind_some, ne_eq, not_true,
      if_false, if_neg nothing, Option.pure_def]
  · simp [forEachRetdata, getNextRetdata, carry, zero]

/-- A reply with one return block survives. -/
theorem one_survives (order : ByteOrder) (shared : Shared) (entry : Address × EmiRetdata)
    (replying : Replying shared [entry]) : ReplySurvives order shared [entry] := by
  obtain ⟨_, _, _, _, whole, _⟩ := replying.chained
  have counted := replying.counted
  simp only [List.map_cons, List.map_nil, List.sum_cons, List.sum_nil] at counted
  have nonzero : shared.message.retsize ≠ 0 := by
    intro zero
    rw [zero] at counted
    simp [sizeofRetdata] at counted
  apply survives_of_relinked order shared [entry] replying nonzero
  intro client apart
  have nearer : 0 < shared.message.retsize.toNat := by
    rw [← counted]
    simp only [sizeofRetdata]
    omega
  refine ⟨retdataBytes order { entry.2 with nextOffset := 0 }, ?_, 2,
    [{ entry.2 with nextOffset := 0 }], ?_, rfl⟩
  · have round := relinkLoop_record order (client.replied shared) shared.message.retsize.toNat
      [] [] entry.2 shared.message.retsize.toNat
    rw [if_neg (by omega)] at round
    simpa [chainBytes] using round
  · have visit := forEachRetdata_record order client.address (client.replied shared) 1 [] []
      { entry.2 with nextOffset := 0 } none nonzero whole (by simp [followed])
      (by simpa [followed, Client.replied, atStorage] using apart.visited 0 nearer) (by simp)
    rw [forEachRetdata_end order client.address (client.replied shared) _ 0 _ rfl] at visit
    simpa using visit

/-- The first block with the link that the first round of the relinking stores. -/
def Client.linked (client : Client) (shared : Shared) (first : EmiRetdata) : EmiRetdata :=
  { first with
    nextOffset := (client.replied shared).retdataOffset +
      BitVec.ofNat 64 (first.size.toNat + sizeofRetdata) }

/-- Relinking does not change the length of a record. -/
theorem linked_length (order : ByteOrder) (client : Client) (shared : Shared) (first : EmiRetdata)
    (whole : first.data.length = first.size.toNat) :
    (retdataBytes order (client.linked shared first)).length =
      first.size.toNat + sizeofRetdata := by
  have data : (client.linked shared first).data.length = first.size.toNat := whole
  rw [retdataBytes_length, data, Nat.add_comm]

/-- Of two or more blocks, the first ends before the announced size does. -/
theorem Replying.farther {shared : Shared} {first second : Address × EmiRetdata}
    {rest : List (Address × EmiRetdata)} (replying : Replying shared (first :: second :: rest)) :
    first.2.size.toNat + sizeofRetdata < shared.message.retsize.toNat ∧
      shared.message.retsize ≠ 0 := by
  have counted := replying.counted
  simp only [List.map_cons, List.sum_cons] at counted
  have farther : first.2.size.toNat + sizeofRetdata < shared.message.retsize.toNat := by
    rw [← counted]
    simp only [sizeofRetdata]
    omega
  refine ⟨farther, ?_⟩
  intro zero
  rw [zero] at farther
  exact absurd farther (Nat.not_lt_zero _)

/-- From the start of a buffer whose first record links to the second one and whose
second one links to the message, `for_each_retdata` visits just these two. -/
theorem visits_two (order : ByteOrder) (client : Client) (shared : Shared)
    (first second : EmiRetdata) (after : List Byte) (nonzero : shared.message.retsize ≠ 0)
    (whole : first.data.length = first.size.toNat)
    (whole' : second.data.length = second.size.toNat)
    (apart : client.Apart shared.message.retsize.toNat)
    (farther : first.size.toNat + sizeofRetdata < shared.message.retsize.toNat) :
    forEachRetdata order client.address (client.replied shared)
        (retdataBytes order (client.linked shared first) ++
          (retdataBytes order { second with nextOffset := 0 } ++ after)) 3 none =
      some [client.linked shared first, { second with nextOffset := 0 }] := by
  have nearer : 0 < shared.message.retsize.toNat := by omega
  have length := linked_length order client shared first whole
  have start := forEachRetdata_record order client.address (client.replied shared) 2 []
    (retdataBytes order { second with nextOffset := 0 } ++ after) (client.linked shared first) none
    nonzero whole (by simp [followed])
    (by simpa [followed, Client.replied, atStorage] using apart.visited 0 nearer) (by simp)
  have onward := forEachRetdata_record order client.address (client.replied shared) 1
    (retdataBytes order (client.linked shared first)) after { second with nextOffset := 0 }
    (some (client.linked shared first)) nonzero whole' (by rw [length]; rfl)
    (apart.visited _ farther) (by rw [length]; omega)
  rw [forEachRetdata_end order client.address (client.replied shared) _ 0 _ rfl] at onward
  simp only [List.nil_append] at start
  rw [start, onward]
  rfl

/-- After the first round of the relinking, when more than one block was received. -/
theorem first_relinked (order : ByteOrder) (client : Client) (shared : Shared)
    (first : EmiRetdata) (after : List Byte)
    (farther : first.size.toNat + sizeofRetdata < shared.message.retsize.toNat) :
    relinkLoop order (client.replied shared) (shared.message.retsize.toNat + 1)
        (retdataBytes order first ++ after) 0 shared.message.retsize.toNat =
      relinkLoop order (client.replied shared) shared.message.retsize.toNat
        (retdataBytes order (client.linked shared first) ++ after)
        (first.size.toNat + sizeofRetdata)
        (shared.message.retsize.toNat - (first.size.toNat + sizeofRetdata)) := by
  have round := relinkLoop_record order (client.replied shared) shared.message.retsize.toNat
    [] after first shared.message.retsize.toNat
  rw [if_pos (by omega)] at round
  exact round

/-- A reply with two return blocks survives. -/
theorem two_survive (order : ByteOrder) (shared : Shared) (first second : Address × EmiRetdata)
    (replying : Replying shared [first, second]) :
    ReplySurvives order shared [first, second] := by
  obtain ⟨_, _, _, _, whole, _, _, _, _, whole', _⟩ := replying.chained
  have counted := replying.counted
  simp only [List.map_cons, List.map_nil, List.sum_cons, List.sum_nil] at counted
  obtain ⟨farther, nonzero⟩ := replying.farther
  apply survives_of_relinked order shared [first, second] replying nonzero
  intro client apart
  refine ⟨_, ?_, 3, _, visits_two order client shared first.2 second.2 [] nonzero whole whole'
    apart farther, rfl⟩
  obtain ⟨rounds, enough⟩ : ∃ rounds, shared.message.retsize.toNat = rounds + 1 :=
    ⟨shared.message.retsize.toNat - 1, by omega⟩
  have length := linked_length order client shared first.2 whole
  have last := relinkLoop_record order (client.replied shared) rounds
    (retdataBytes order (client.linked shared first.2)) [] second.2
    (shared.message.retsize.toNat - (first.2.size.toNat + sizeofRetdata))
  rw [if_neg (by omega), length, ← enough] at last
  simp only [chainBytes, List.flatMap_cons, List.flatMap_nil]
  rw [first_relinked order client shared first.2 _ farther, last]

/-- The outcome of `emi_msg_write_ret` does not depend on the fuel. -/
theorem emiMsgWriteRet_unique (order : ByteOrder) (shared : Shared) (sink : Sink)
    (unlimited : sink.room = none) (fuel fuel' : Nat) (result result' : Int × Sink)
    (ended : emiMsgWriteRet order shared fuel sink = some result)
    (ended' : emiMsgWriteRet order shared fuel' sink = some result') : result = result' := by
  obtain ⟨headed, _, _, walked⟩ := emiMsgWriteRet_exact order shared sink unlimited
  rw [walked] at ended ended'
  split at ended
  · rename_i some
    rw [if_pos some] at ended'
    exact writeRetdataLoop_unique order shared fuel fuel' headed none result result' ended ended'
  · rename_i nothing
    rw [if_neg nothing] at ended'
    exact Option.some.inj (ended.symm.trans ended')

/-- A reply of three or more return blocks, the first two of one size, loses all but
these two. The relinking takes the second header again instead of the third. -/
theorem third_lost (order : ByteOrder) (shared : Shared)
    (first second third : Address × EmiRetdata) (rest : List (Address × EmiRetdata))
    (replying : Replying shared (first :: second :: third :: rest))
    (same : first.2.size = second.2.size) :
    ¬ ReplySurvives order shared (first :: second :: third :: rest) := by
  intro survives
  obtain ⟨_, _, _, _, whole, _, _, _, _, whole', _⟩ := replying.chained
  have counted := replying.counted
  simp only [List.map_cons, List.sum_cons] at counted
  obtain ⟨farther, nonzero⟩ := replying.farther
  -- a sender whose message is at 0 and whose buffer is at 1
  let client : Client := ⟨0, emptyMsg, ⟨1, fun _ => 0⟩⟩
  have apart : client.Apart shared.message.retsize.toNat := by
    intro index inside overlap
    have bound : shared.message.retsize.toNat < 2 ^ 32 := shared.message.retsize.isLt
    have start : (1 : Address).toNat = 1 := rfl
    have home : (0 : Address).toNat = 0 := rfl
    have place := congrArg BitVec.toNat overlap
    simp only [client, getAddr, BitVec.toNat_add, BitVec.toNat_ofNat, start, home] at place
    omega
  obtain ⟨fuel, written, wire, sends, sent, receives⟩ :=
    survives ⟨[], none, []⟩ client rfl apart
  obtain ⟨fuel', written', sends', sent'⟩ := replying.sends order ⟨[], none, []⟩ rfl
  obtain ⟨_, rfl⟩ := Prod.mk.inj
    (emiMsgWriteRet_unique order shared ⟨[], none, []⟩ rfl fuel fuel' _ _ sends sends')
  rw [sent] at sent'
  simp only [List.nil_append] at sent'
  obtain ⟨reply, read, walks⟩ := receives ⟨wire, .closed, []⟩ [] (List.append_nil wire).symm
  have length := linked_length order client shared first.2 whole
  obtain ⟨rounds, enough⟩ : ∃ rounds, shared.message.retsize.toNat = rounds + 1 :=
    ⟨shared.message.retsize.toNat - 1, by omega⟩
  have spun := relinkLoop_spins order (client.replied shared) rounds
    (retdataBytes order (client.linked shared first.2)) (chainBytes order (third :: rest)) second.2
    (shared.message.retsize.toNat - (first.2.size.toNat + sizeofRetdata))
    (by rw [length, same]) (by simp only [sizeofRetdata]; omega)
  rw [length, ← enough] at spun
  have relinked := first_relinked order client shared first.2
    (retdataBytes order second.2 ++ chainBytes order (third :: rest)) farther
  rw [spun, ← chainBytes_cons, ← chainBytes_cons] at relinked
  obtain ⟨after, readBack⟩ := emiMsgReadRet_complete order client.address client.message
    shared.message client.storage ⟨wire, .closed, []⟩ _ [] _ (replying.length order) nonzero
    (by rw [sent', List.append_nil]) relinked
  rw [readBack] at read
  obtain ⟨_, rfl⟩ := Prod.mk.inj (Option.some.inj read)
  obtain ⟨steps, visited, walked, seen⟩ := walks
  have two := forEachRetdata_unique order client.address _ _ steps 3 none visited _ walked
    (visits_two order client shared first.2 second.2 (chainBytes order (third :: rest)) nonzero
      whole whole' apart farther)
  rw [two] at seen
  have lengths := congrArg List.length seen
  simp at lengths

/-- Return data survive the wire for every chain of at most two blocks, and for no
longer chain whose first two blocks are of one size.

The relinking counts each link from the start of the buffer. This is right for the
first block, and the last link is the end in any case; so the third block is the
first one that a link misses. -/
theorem replies_survive (order : ByteOrder) (shared : Shared)
    (chain : List (Address × EmiRetdata)) (replying : Replying shared chain) :
    (chain.length ≤ 2 → ReplySurvives order shared chain) ∧
      ∀ first second third rest, chain = first :: second :: third :: rest →
        first.2.size = second.2.size → ¬ ReplySurvives order shared chain := by
  constructor
  · intro short
    match chain, short with
    | [], _ => exact none_survives order shared replying
    | [entry], _ => exact one_survives order shared entry replying
    | [first, second], _ => exact two_survive order shared first second replying
    | _ :: _ :: _ :: _, long => exact absurd long (by simp)
  · rintro first second third rest rfl same
    exact third_lost order shared first second third rest replying same

/-- An arena with room for a message and three return blocks. -/
def wideArena : Shm := { emptyArena with offers := [some 0, some 1, some 2, some 3] }

/-- A block-mode message in it. -/
def blockMessage : Shared where
  shm := wideArena.grant ⟨0, 0⟩ (by decide) [some 1, some 2, some 3]
  address := 4
  message := { emptyMsg with flag := modeBlock, msg := 7 }

/-- The message after its handlers obtained return blocks of these sizes. -/
def answered (sizes : List (BitVec 32)) : Shared := (retdataAllocs [] blockMessage sizes).2

/-- The chain of three return blocks of one zero byte each. -/
def threeBlocks : List (Address × EmiRetdata) :=
  [(772, ⟨512, 1, 0, [0]⟩), (516, ⟨256, 1, 0, [0]⟩), (260, ⟨0, 1, 0, [0]⟩)]

/-- Three handlers that return one byte each make that chain. -/
theorem three_replying : Replying (answered [1, 1, 1]) threeBlocks where
  chained := by
    refine ⟨by decide, by decide, by rfl, by decide, rfl, by decide, by decide, by rfl, by decide,
      rfl, by decide, by decide, by rfl, by decide, rfl, rfl⟩
  nonempty := by decide
  counted := by decide

/-- The condition and its converse, for three blocks of one byte. -/
theorem three_replies_survive :
    (threeBlocks.length ≤ 2 → ReplySurvives .little (answered [1, 1, 1]) threeBlocks) ∧
      ∀ first second third rest, threeBlocks = first :: second :: third :: rest →
        first.2.size = second.2.size →
        ¬ ReplySurvives .little (answered [1, 1, 1]) threeBlocks :=
  replies_survive .little (answered [1, 1, 1]) threeBlocks three_replying

/-- The return data of three handlers that answer with one byte each are lost. -/
theorem three_replies_lost :
    Replying (answered [1, 1, 1]) threeBlocks ∧
      ¬ ReplySurvives .little (answered [1, 1, 1]) threeBlocks :=
  ⟨three_replying, third_lost .little (answered [1, 1, 1]) _ _ _ [] three_replying rfl⟩

end Emilib.Replies
