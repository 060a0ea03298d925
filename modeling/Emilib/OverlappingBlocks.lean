import Emilib.SeparateBlocks

/-!
# What overlapping blocks break

A message takes blocks of the arena for its record, for data that do not fit behind the
record, and for the return data of its handlers. In an arena whose requests were all
clean these blocks are separate. In any other `emi_alloc` may answer with the block of
the message itself, and the data then overwrite the record that says where they are.

Requests, the sizes of replies and the addresses freed are settled here for the bytes of
the arena, under the condition that the blocks in use are separate.
-/

namespace Emilib.ArenaBytes

open BuddyExtents (extentOf extentOf_aligned extents extents_tiled)
open BuddyTree (CleanRequest allocator clean_reached_faithful)
open ByteWords FlagBits Messages Transfers
open ReceiveOperation (Circumstances nobody twoAnswers)
open Requests (FitsInline emiMsgWrite recorded)
open ReturnChain (loadRetdata)
open ReturnData (AnnouncedSizeSent Fits Near Obtained total)
open SharedBlocks (Extent Shm Shared emiOrderNum emptyMsg newsize oldsize)

/-- The blocks that the buddy tree handed out are separate, as long as every request to it
was clean. -/
theorem clean_separate {tree : BuddyTree.Arena}
    (reached : (allocator emiOrderNum).ReachedUnder (CleanRequest emiOrderNum) tree) :
    Separate (extents tree) := by
  have faithful := clean_reached_faithful reached
  obtain ⟨apart, inside⟩ := extents_tiled faithful
  refine ⟨apart, ?_⟩
  intro extent member
  obtain ⟨block, live, rfl⟩ := List.mem_map.mp member
  exact ⟨extentOf_aligned faithful live, inside _ member⟩

/-- No blocks are separate. -/
theorem tiled_nil : SharedBlocks.Tiled [] :=
  ⟨List.Pairwise.nil, fun _ member => absurd member List.not_mem_nil⟩

/-- The arena as functions on records see it: the calls alone. -/
def calls (arena : Arena) : Shm where
  live := ⟨[], tiled_nil⟩
  offers := arena.answers
  granted := arena.granted
  freed := arena.freed
  memory := arena.bytes
  returns := fun _ => none

/-- The arena with its records of calls emptied, as a new message starts them. -/
def unlogged (arena : Arena) : Arena := { arena with granted := [], freed := [] }

/-- Every address that was freed had been granted, and none was freed twice. -/
def FreesItsOwn (arena : Arena) : Prop :=
  arena.freed.Nodup ∧ ∀ addr ∈ arena.freed, addr ∈ arena.granted

/-- An arena with a block in use, and what `alloc_emi_buf` returns next. -/
def answering (answers : List (Option Nat)) : Arena where
  bytes := fun _ => 0
  answers := answers
  blocks := [⟨1, 0⟩]
  granted := []
  freed := []

/-- A request in block mode, with data that do not fit behind its record. -/
def longRequest : EmiMsg where
  flag := modeBlock
  msg := 7
  cmd := 1
  size := 300
  retsize := 0
  dataOffset := 72
  retdataOffset := 0

/-- The message as `emi_msg_write_ret` reads it: the record in its block, and a return
block wherever an offset leads. -/
def Message.reading (order : ByteOrder) (message : Message) : Shared where
  shm := { calls message.arena with
    returns := fun place => some (loadRetdata order message.arena.bytes place) }
  address := message.address
  message := message.record order

/-- The walk over the chain reads the record and the return blocks only. -/
theorem writeRetdataLoop_same {left right : Shared} (address : left.address = right.address)
    (message : left.message = right.message) (returns : left.shm.returns = right.shm.returns)
    (order : ByteOrder) (fuel : Nat) (sink : Sink) (data : Option EmiRetdata) :
    ReturnData.writeRetdataLoop order left fuel sink data =
      ReturnData.writeRetdataLoop order right fuel sink data := by
  induction fuel generalizing sink data with
  | zero => rfl
  | succ fuel inductionHypothesis =>
    simp only [ReturnData.writeRetdataLoop, ReturnData.loadRetdata, address, message, returns,
      inductionHypothesis]

/-- So does the whole reply. -/
theorem announced_same {left right : Shared} (address : left.address = right.address)
    (message : left.message = right.message) (returns : left.shm.returns = right.shm.returns)
    (order : ByteOrder) (sink : Sink) :
    AnnouncedSizeSent order left sink ↔ AnnouncedSizeSent order right sink := by
  simp only [AnnouncedSizeSent, ReturnData.emiMsgWriteRet, message,
    writeRetdataLoop_same address message returns]

/-- A message beside the memory, with the return blocks that the bytes hold. -/
def withBytes (order : ByteOrder) (shared : Shared) (bytes : Address → Byte) : Shared :=
  { shared with shm := { shared.shm with
    returns := fun place => some (loadRetdata order bytes place) } }

/-- The return blocks of a record are in the bytes. -/
theorem Mirrors.stored {order : ByteOrder} {message : Message} {shared : Shared}
    (mirrors : Mirrors order message shared) {obtained : Obtained}
    (stored : ReturnData.Stored shared obtained) :
    ReturnData.Stored (withBytes order shared message.arena.bytes) obtained := by
  induction obtained with
  | nil => trivial
  | cons entry older inductionHypothesis =>
    obtain ⟨owned, apart, inside, room, ⟨block, found, sized, _, link⟩, rest⟩ := stored
    obtain ⟨_, _, size, next⟩ := mirrors.returns _ block found
    refine ⟨owned, apart, inside, room, ⟨_, rfl, size.trans sized, ?_, next.trans link⟩,
      inductionHypothesis rest⟩
    rw [ReturnChain.loadRetdata_data, readBytes_length, size, sized]

/-- So they are sent as they were recorded. -/
theorem Mirrors.announced {order : ByteOrder} {message : Message} {shared : Shared}
    (mirrors : Mirrors order message shared) {before : BitVec 32} {obtained : Obtained}
    (recorded : ReturnData.Recorded before obtained shared) (bounded : total obtained < 2 ^ 32)
    (sink : Sink) (unlimited : sink.room = none) :
    AnnouncedSizeSent order (message.reading order) sink ↔
      before + BitVec.ofNat 32 (total obtained) = 0 ∨
        before = 0 ∧ (∀ entry ∈ obtained.tail, Near message.address entry) ∧
          ∀ entry ∈ obtained, Fits entry := by
  have inBytes : ReturnData.Recorded before obtained
      (withBytes order shared message.arena.bytes) :=
    ⟨recorded.owned, recorded.inside, recorded.head, recorded.retsize,
      mirrors.stored recorded.stored⟩
  have same := @announced_same (message.reading order)
    (withBytes order shared message.arena.bytes) mirrors.address.symm mirrors.record.symm rfl
  have place : (withBytes order shared message.arena.bytes).address = message.address :=
    mirrors.address
  rw [same, ReturnData.announced_iff order before obtained _ inBytes bounded sink unlimited, place]

/-- The message in the bytes of the arena is the one that was sent with this content. -/
structure Delivered (order : ByteOrder) (sent : EmiMsg) (content : List Byte)
    (message : Message) : Prop where
  msg : (message.record order).msg = sent.msg
  cmd : (message.record order).cmd = sent.cmd
  size : (message.record order).size = sent.size
  retsize : (message.record order).retsize = sent.retsize
  flag : (message.record order).flag =
    if FitsInline sent.size then sent.flag else raise sent.flag flagAllocdata
  moved : Holds (message.record order).flag flagAllocdata ↔ ¬ FitsInline sent.size
  data : readBytes message.arena.bytes
    (getAddr message.address (message.record order).dataOffset) sent.size.toNat = content

end Emilib.ArenaBytes
