import Emilib.ArenaBytes

/-!
# Messages with separate blocks

A message is allocated in the bytes of the arena, a request is read over it, the core
and the handlers go on with it, and it is freed. Each of these has a result whatever the
blocks are. Where all blocks in use at the end are separate, it is the result of the same
functions on a record kept beside the memory.

The proofs follow the functions. Blocks are only added while a message is in use, so what
is separate at the end was separate at every call before.
-/

namespace Emilib.ArenaBytes

open BlockIndices (getBufAddr setBufAddr indexPlace)
open ByteWords FlagBits Messages Transfers
open ReceiveOperation (Circumstances Registration)
open Requests (checked)
open ReturnChain (fieldPlace)
open SharedBlocks (Extent Shm Shared addrBufOffset buddyShift emiOrderNum emptyMsg newsize oldsize)

/-- A message as `alloc_shared_msg` makes it, up to its payload: the newest block is its
own and a smallest one, its index is in front of it, and its data lie behind the record. -/
structure Fresh (order : ByteOrder) (own : Extent) (message : Message) : Prop where
  address : own.address = message.address
  newest : message.arena.blocks.head? = some own
  index : getBufAddr order message.arena.bytes message.address = bufIndex own
  smallest : own.order = 0
  inline : (message.record order).dataOffset = BitVec.ofNat 64 sizeofMsg

section Opening

variable {order : ByteOrder} {arena : Arena} {shm : Shm} {own : Extent}

/-- Storing bytes from an address on leaves the index in front of it. -/
theorem index_kept (order : ByteOrder) (bytes : Address → Byte) (own : Extent)
    (offset : Nat) (stored : List Byte) (small : offset + stored.length ≤ sizeofMsg) :
    getBufAddr order (writeBytes bytes (fieldPlace own.address offset) stored) own.address =
      getBufAddr order bytes own.address := by
  obtain ⟨front, behind⟩ := address_room own
  by_cases empty : stored = []
  · subst empty
    rfl
  have some : 0 < stored.length := List.length_pos_iff.mpr empty
  have place := BlockIndices.indexPlace_toNat front
  have target := @ReturnChain.fieldPlace_toNat own.address offset (by omega)
  simp only [addrBufOffset] at front place
  have untouched := writeBytes_untouched bytes (fieldPlace own.address offset)
    (indexPlace own.address) stored 4 (by omega) (by omega) (by omega)
  have read := untouched.read 0 4 (by decide)
  rw [BitVec.add_zero] at read
  rw [getBufAddr, getBufAddr, read]

/-- The message that `alloc_shared_msg` makes in a block handed out for its record. -/
def opened (order : ByteOrder) (arena : Arena) (own : Extent) : Message where
  arena := { arena with
    bytes := writeBytes (writeBytes arena.bytes own.address (List.replicate sizeofMsg 0))
      (fieldPlace own.address 24) (bytes64 order (BitVec.ofNat 64 sizeofMsg)) }
  address := own.address

end Opening

section Reading

variable {order : ByteOrder} {own : Extent} {message : Message} {shared : Shared}

/-- The order of a fresh message's block is found. -/
theorem Fresh.blockOrder (fresh : Fresh order own message) :
    message.blockOrder order = some 0 := by
  obtain ⟨older, listed⟩ : ∃ older, message.arena.blocks = own :: older := by
    cases blocks : message.arena.blocks with
    | nil =>
      have newest := fresh.newest
      rw [blocks] at newest
      cases newest
    | cons first older =>
      have newest := fresh.newest
      rw [blocks] at newest
      exact ⟨older, by rw [Option.some.inj newest]⟩
  rw [Message.blockOrder, listed, fresh.index, List.find?_cons_of_pos (by simp), Option.map_some,
    fresh.smallest]

/-- A fresh message stays so while a payload is read over it. -/
theorem Fresh.payload (fresh : Fresh order own message) (got : List Byte)
    (short : got.length ≤ payloadSize) (source source' : Source) :
    Fresh order own (Receiving.stored ⟨message, source⟩ message.address got source').message := by
  have start : fieldPlace own.address 0 = own.address := BitVec.add_zero _
  refine ⟨fresh.address, fresh.newest, ?_, fresh.smallest, ?_⟩
  · have kept := index_kept order message.arena.bytes own 0 got
      (by rw [Nat.zero_add]; exact Nat.le_trans short (by decide))
    rw [start, fresh.address] at kept
    exact kept.trans fresh.index
  · have bounded := (address_room own).2
    rw [fresh.address] at bounded
    exact (congrArg EmiMsg.dataOffset (loadMsg_overwritten order got short bounded)).trans
      fresh.inline

/-- A payload read over a fresh message on both sides. -/
theorem Mirrors.payload (mirrors : Mirrors order message shared) (got : List Byte)
    (short : got.length ≤ payloadSize) (source source' : Source)
    (unreturned : ∀ place, shared.shm.returns place = none) :
    Mirrors order (Receiving.stored ⟨message, source⟩ message.address got source').message
      { shared with message := overwritePayload order shared.message got } := by
  obtain ⟨other, member, placed⟩ := mirrors.own
  have bounded := (address_room other).2
  rw [placed] at bounded
  refine ⟨⟨mirrors.reflects.offers, mirrors.reflects.live, mirrors.reflects.granted,
    mirrors.reflects.freed⟩, mirrors.address, ?_, ⟨other, member, placed⟩, ?_⟩
  · rw [mirrors.record]
    exact (loadMsg_overwritten order got short bounded).symm
  · intro place block found
    exact absurd (found.symm.trans (unreturned place)) (Option.some_ne_none block)

/-- As many bytes as the message announces, from where its data are on, leave its record. -/
def DataBeside (order : ByteOrder) (message : Message) : Prop :=
  ∀ got : List Byte, got.length ≤ (message.record order).size.toNat →
    Untouched message.arena.bytes
      (writeBytes message.arena.bytes
        (getAddr message.address (message.record order).dataOffset) got) message.address sizeofMsg

/-- Data stored where they leave the record, on both sides. -/
theorem Mirrors.data (mirrors : Mirrors order message shared) (beside : DataBeside order message)
    (got : List Byte) (short : got.length ≤ (message.record order).size.toNat)
    (source source' : Source) (memory : Address → Byte)
    (unreturned : ∀ place, shared.shm.returns place = none) :
    Mirrors order (Receiving.stored ⟨message, source⟩
        (getAddr message.address (message.record order).dataOffset) got source').message
      (Requests.withMemory shared memory) := by
  refine ⟨⟨mirrors.reflects.offers, mirrors.reflects.live, mirrors.reflects.granted,
    mirrors.reflects.freed⟩, mirrors.address, ?_, mirrors.own, ?_⟩
  · exact mirrors.record.trans (loadMsg_untouched order (beside got short)).symm
  · intro place block found
    exact absurd (found.symm.trans (unreturned place)) (Option.some_ne_none block)

end Reading

section Operation

variable {order : ByteOrder} {arena : Arena} {shm : Shm} {message : Message} {shared : Shared}

/-- Setting the success bit. -/
theorem Mirrors.raised (mirrors : Mirrors order message shared)
    (separate : Separate message.arena.blocks) :
    Mirrors order (message.setFlag order (raise (message.record order).flag retSucceeded))
      (ReceiveOperation.setFlag shared (raise shared.message.flag retSucceeded)) := by
  rw [mirrors.record]
  exact mirrors.setFlag separate _

/-- Clearing it. -/
theorem Mirrors.lowered (mirrors : Mirrors order message shared)
    (separate : Separate message.arena.blocks) :
    Mirrors order (message.setFlag order (lower (message.record order).flag retSucceeded))
      (ReceiveOperation.setFlag shared (lower shared.message.flag retSucceeded)) := by
  rw [mirrors.record]
  exact mirrors.setFlag separate _

/-- The register path on both sides. -/
theorem Mirrors.registered (mirrors : Mirrors order message shared)
    (separate : Separate message.arena.blocks) (registration : Registration) :
    Mirrors order (registerMessage order registration message)
      (ReceiveOperation.registerMessage registration shared) := by
  cases registration with
  | noMap => exact mirrors
  | refused => exact mirrors.lowered separate
  | inserted => exact mirrors.raised separate

/-- The verdict of the handlers on both sides. -/
theorem Mirrors.judged (mirrors : Mirrors order message shared)
    (separate : Separate message.arena.blocks) (someFailed : Bool) :
    Mirrors order (judge order someFailed message)
      (ReceiveOperation.judge someFailed shared) := by
  have flags := mirrors.record
  rw [judge, ReceiveOperation.judge]
  by_cases fails : someFailed ∧ Holds (message.record order).flag modeBlock
  · rw [if_pos fails, if_pos (by rw [flags]; exact fails)]
    exact mirrors.lowered separate
  · rw [if_neg fails, if_neg (by rw [flags]; exact fails)]
    exact mirrors

/-- The end of the wait loop on both sides. -/
theorem Mirrors.settled (mirrors : Mirrors order message shared)
    (separate : Separate message.arena.blocks) (allExited : Bool) :
    Mirrors order (settle order allExited message)
      (ReceiveOperation.settle allExited shared) := by
  rw [settle, ReceiveOperation.settle]
  split_ifs
  · exact mirrors.lowered separate
  · exact mirrors

end Operation

end Emilib.ArenaBytes
