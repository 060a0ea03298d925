import Emilib.Requests

/-!
# Where `emi_msg_read` stores the data of a request

A request announces the size of its data in 32 bits. `realloc_shared_msg` adds the
size of the record and converts the sum to an `int` before it compares it with the
room in the block of the message. Below `2 ^ 31` the sum is kept, and the data lie
inside the block or inside a new one. From there on it turns negative or wraps to
less than the size of a record, so the message passes for one that has the room, and
no block of the arena is as large as what `emi_msg_read_data` then stores.
-/

namespace Emilib.Requests

open ByteWords FlagBits Messages Transfers SharedBlocks

/-- The bytes from an address on lie inside a block, behind its index. -/
def Spans (extent : Extent) (data : Address) (size : Nat) : Prop :=
  extent.blkOffset * 2 ^ buddyShift + addrBufOffset ≤ data.toNat ∧
    data.toNat + size ≤ (extent.blkOffset + 2 ^ extent.order) * 2 ^ buddyShift

/-- The region that `emi_msg_read_data` fills lies inside one live block: that of the
message, which has room for the record and the data, or one that was not live before,
of at least the four bytes of an index more than the data. -/
def Reserved (before placed : Shared) : Prop :=
  ∃ extent ∈ placed.shm.live.extents,
    Spans extent (getAddr placed.address placed.message.dataOffset)
      placed.message.size.toNat ∧
    (extent.address = placed.address ∧
        addrBufOffset + sizeofMsg + placed.message.size.toNat ≤
          2 ^ extent.order * 2 ^ buddyShift ∨
      ¬ before.shm.Owns extent.address ∧
        placed.message.size.toNat + addrBufOffset ≤ 2 ^ extent.order * 2 ^ buddyShift)

/-- `realloc_shared_msg` has a result, and where it is not NULL the data are reserved. -/
def Sheltered (shared : Shared) : Prop :=
  ∃ returned placed, reallocSharedMsg shared = some (returned, placed) ∧
    (returned = true → Reserved shared placed)

/-- A new message lies in a live block of its own. -/
theorem allocSharedMsg_own (arena : Shm) (size : BitVec 32) (shared : Shared)
    (allocated : allocSharedMsg arena size = .inr shared) :
    ∃ own ∈ shared.shm.live.extents, own.address = shared.address ∧
      shared.shm.blockOrder shared.address = some own.order ∧ shared.message = emptyMsg := by
  rcases emiAlloc_cases arena (sizeofMsg + size.toNat) with
    ⟨offers, refused⟩ | ⟨own, available, offers, _, taken⟩
  · rw [allocSharedMsg, refused] at allocated
    cases allocated
  · rw [allocSharedMsg, taken] at allocated
    obtain rfl := Sum.inr.inj allocated
    exact ⟨own, List.mem_cons_self, rfl, by simp [Shm.blockOrder, Shm.grant, Live.insert], rfl⟩

/-- From `2 ^ 31` on the sum turns into less than the size of a record. -/
theorem newsize_overlong (size : BitVec 32) (large : 2 ^ 31 ≤ size.toNat + sizeofMsg) :
    newsize size < sizeofMsg := by
  have bound : size.toNat < 2 ^ 32 := size.isLt
  have record : sizeofMsg = 72 := rfl
  rw [newsize, toInt, BitVec.toInt_eq_toNat_cond, BitVec.toNat_ofNat]
  split <;> omega

/-- Every block has room for a record. -/
theorem oldsize_record (order : Nat) : sizeofMsg ≤ oldsize order := by
  have positive : (0 : Int) < 2 ^ order := Int.pow_pos (by decide)
  simp only [sizeofMsg, oldsize, buddyShift, addrBufOffset]
  omega

/-- So the message is returned as it is. -/
theorem overlong_returned (shared : Shared) (order : Nat)
    (held : shared.shm.blockOrder shared.address = some order)
    (large : 2 ^ 31 ≤ shared.message.size.toNat + sizeofMsg) :
    reallocSharedMsg shared = some (true, shared) := by
  apply reallocSharedMsg_kept shared order held
  have short := newsize_overlong shared.message.size large
  have room := oldsize_record order
  omega

/-- No block of the arena spans data of such a size. -/
theorem overlong_unreserved (before placed : Shared)
    (large : 2 ^ 31 ≤ placed.message.size.toNat + sizeofMsg) : ¬ Reserved before placed := by
  rintro ⟨extent, member, ⟨_, finish⟩, _⟩
  have inside := placed.shm.live.tiled.2 extent member
  simp only [buddyShift, emiOrderNum, sizeofMsg] at finish inside large
  omega

/-- A message that keeps its data behind its record has room for them there. -/
theorem kept_reserved (shared : Shared) (own : Extent) (live : own ∈ shared.shm.live.extents)
    (place : own.address = shared.address)
    (inline : shared.message.dataOffset = BitVec.ofNat 64 sizeofMsg)
    (small : shared.message.size.toNat + sizeofMsg < 2 ^ 31)
    (fits : oldsize own.order ≥ newsize shared.message.size) : Reserved shared shared := by
  have inside := shared.shm.live.tiled.2 own live
  have start := own.address_toNat inside
  rw [newsize_exact _ small] at fits
  have room : addrBufOffset + sizeofMsg + shared.message.size.toNat ≤
      2 ^ own.order * 2 ^ buddyShift := by
    simp only [oldsize, sizeofMsg, addrBufOffset, buddyShift] at fits ⊢
    have cast : ((4 + 72 + shared.message.size.toNat : Nat) : Int) ≤
        (2 ^ own.order * 2 ^ 8 : Nat) := by
      push_cast
      omega
    exact_mod_cast cast
  refine ⟨own, live, ?_, .inl ⟨place, room⟩⟩
  have offset : (BitVec.ofNat 64 sizeofMsg).toNat = 72 := rfl
  rw [Spans, inline, getAddr, ← place, BitVec.toNat_add, start, offset]
  simp only [emiOrderNum, buddyShift, addrBufOffset, sizeofMsg] at inside room ⊢
  omega

/-- No block starts where the data behind a record do. -/
theorem inline_no_block (own extent : Extent) :
    extent.address ≠ getAddr own.address (BitVec.ofNat 64 sizeofMsg) := by
  intro same
  have equal := congrArg BitVec.toNat same
  have offset : (BitVec.ofNat 64 sizeofMsg).toNat = 72 := rfl
  rw [getAddr, BitVec.toNat_add, offset, Extent.address, Extent.address, BitVec.toNat_ofNat,
    BitVec.toNat_ofNat] at equal
  simp only [buddyShift, addrBufOffset] at equal
  omega

/-- A message whose data moved has room for them in the new block. -/
theorem moved_reserved (shared : Shared) (own extent : Extent)
    (place : own.address = shared.address)
    (inline : shared.message.dataOffset = BitVec.ofNat 64 sizeofMsg)
    (available : extent.Available shared.shm.live.extents) (offers : List (Option Nat))
    (room : shared.message.size.toNat + addrBufOffset ≤ 2 ^ extent.order * 2 ^ buddyShift) :
    Reserved shared
      (relocate shared (shared.shm.grant extent available offers) extent.address) := by
  have inside := available.2.1
  have start := extent.address_toNat inside
  refine ⟨extent, ?_, ?_, .inr ⟨available.fresh, room⟩⟩
  · by_cases flagged : Holds shared.message.flag flagAllocdata
    · rw [relocate_flagged _ _ _ flagged, emiFree_live]
      refine ⟨List.mem_cons_self, ?_⟩
      rw [inline, ← place]
      exact inline_no_block own extent
    · rw [relocate_plain _ _ _ flagged]
      exact List.mem_cons_self
  · have data : getAddr shared.address (getOffset shared.address extent.address) = extent.address :=
      getAddr_getOffset _ _
    simp only [relocate]
    rw [Spans, data, start]
    simp only [emiOrderNum, buddyShift, addrBufOffset] at inside room ⊢
    omega

/-- The data of a message in its own block, with its data area behind its record, are
reserved exactly when their size and that of the record make a sum below `2 ^ 31`. -/
theorem sheltered_iff (shared : Shared) (own : Extent) (live : own ∈ shared.shm.live.extents)
    (place : own.address = shared.address)
    (held : shared.shm.blockOrder shared.address = some own.order)
    (inline : shared.message.dataOffset = BitVec.ofNat 64 sizeofMsg) :
    Sheltered shared ↔ shared.message.size.toNat + sizeofMsg < 2 ^ 31 := by
  constructor
  · rintro ⟨returned, placed, result, reserved⟩
    rw [← Nat.not_le]
    intro large
    rw [overlong_returned shared own.order held large] at result
    obtain ⟨rfl, rfl⟩ := Prod.mk.inj (Option.some.inj result)
    exact overlong_unreserved shared shared large (reserved rfl)
  · intro small
    by_cases fits : oldsize own.order ≥ newsize shared.message.size
    · exact ⟨true, shared, reallocSharedMsg_kept shared own.order held fits,
        fun _ => kept_reserved shared own live place inline small fits⟩
    · rcases emiAlloc_cases shared.shm shared.message.size.toNat with
        ⟨offers, refused⟩ | ⟨extent, available, offers, order, taken⟩
      · exact ⟨false, _, reallocSharedMsg_refused shared own.order _ held fits refused,
          fun returned => absurd returned Bool.false_ne_true⟩
      · refine ⟨true, _, reallocSharedMsg_moved shared own.order _ _ held fits taken, fun _ => ?_⟩
        apply moved_reserved shared own extent place inline available offers
        have record : sizeofMsg = 72 := rfl
        have index : addrBufOffset = 4 := rfl
        have kept : (shared.message.size.toNat + addrBufOffset) % 2 ^ 64 =
            shared.message.size.toNat + addrBufOffset := Nat.mod_eq_of_lt (by omega)
        rw [order, kept]
        exact sizeToOrder_room _ (by omega)

/-- No payload changes where the data of a new message are. -/
theorem stored_inline (order : ByteOrder) (shared : Shared) (source : Source)
    (empty : shared.message = emptyMsg) :
    (stored order ⟨shared, source⟩).message.dataOffset = BitVec.ofNat 64 sizeofMsg := by
  simp [stored, recorded, overwritePayload, withPayload, empty, emptyMsg]

/-- Whatever payload is read over a new message and whatever the allocator offers, the
data are reserved exactly when their size and that of the record make a sum that stays
positive as an `int`. -/
theorem data_reserved_iff (arena : Shm) (first : BitVec 32) (shared : Shared)
    (allocated : allocSharedMsg arena first = .inr shared) (order : ByteOrder) (source : Source) :
    Sheltered (stored order ⟨shared, source⟩) ↔
      (stored order ⟨shared, source⟩).message.size.toNat + sizeofMsg < 2 ^ 31 := by
  obtain ⟨own, live, place, held, empty⟩ := allocSharedMsg_own arena first shared allocated
  exact sheltered_iff _ own live place held (stored_inline order shared source empty)

/-- The message with the record of a request whose data do not fit behind it. -/
def longStored : Shared :=
  stored .little ⟨firstMessage, ⟨payloadBytes .little longRequest, .closed, []⟩⟩

/-- Its data move to a second block, which has room for them. -/
theorem long_request_reserved :
    ∃ placed, reallocSharedMsg longStored = some (true, placed) ∧
      Holds placed.message.flag flagAllocdata ∧ Reserved longStored placed := by
  have sheltered : Sheltered longStored :=
    (data_reserved_iff emptyArena 0 firstMessage rfl .little
      ⟨payloadBytes .little longRequest, .closed, []⟩).mpr (by decide)
  obtain ⟨returned, placed, result, reserved⟩ := sheltered
  have outcome : (reallocSharedMsg longStored).map (fun result =>
      (result.1, decide (Holds result.2.message.flag flagAllocdata))) = some (true, true) := by
    decide
  rw [result] at outcome
  obtain ⟨moved, flagged⟩ := Prod.mk.inj (Option.some.inj outcome)
  obtain rfl : returned = true := moved
  exact ⟨placed, result, of_decide_eq_true flagged, reserved rfl⟩

/-- The size of all ones wraps: the message stays in its smallest block. -/
theorem widest_size_unreserved : ¬ ∀ (arena : Shm) (first : BitVec 32) (shared : Shared),
    allocSharedMsg arena first = .inr shared → ∀ (order : ByteOrder) (source : Source),
      Sheltered (stored order ⟨shared, source⟩) := by
  intro always
  obtain ⟨returned, placed, result, reserved⟩ := always emptyArena 0 firstMessage rfl .little
    ⟨payloadBytes .little { longRequest with size := 0xffffffff }, .closed, []⟩
  have size : (stored .little ⟨firstMessage, ⟨payloadBytes .little
      { longRequest with size := 0xffffffff }, .closed, []⟩⟩).message.size = 0xffffffff := by decide
  have large : 2 ^ 31 ≤ (stored .little ⟨firstMessage, ⟨payloadBytes .little
      { longRequest with size := 0xffffffff }, .closed, []⟩⟩).message.size.toNat + sizeofMsg := by
    rw [size]
    decide
  rw [overlong_returned _ 0 (by decide) large] at result
  obtain ⟨rfl, rfl⟩ := Prod.mk.inj (Option.some.inj result)
  exact overlong_unreserved _ _ large (reserved rfl)

/-- Stored bytes are found only where they were stored. -/
theorem writeBytes_place {memory : Address → Byte} {address place : Address} {bytes : List Byte}
    (changed : writeBytes memory address bytes place ≠ memory place) :
    (place - address).toNat < bytes.length := by
  rw [← Nat.not_le]
  intro beyond
  apply changed
  rw [writeBytes, List.getElem?_eq_none beyond, Option.getD_none]

/-- A byte of a region inside a block of the arena is inside the block. -/
theorem Spans.byte {extent : Extent} {data place : Address} {size : Nat}
    (spans : Spans extent data size)
    (arena : extent.blkOffset + 2 ^ extent.order ≤ 2 ^ emiOrderNum)
    (inside : (place - data).toNat < size) : Spans extent place 1 := by
  obtain ⟨start, finish⟩ := spans
  have low : data.toNat < 2 ^ 64 := data.isLt
  have bound : place.toNat < 2 ^ 64 := place.isLt
  rw [BitVec.toNat_sub] at inside
  simp only [emiOrderNum, buddyShift] at arena start finish
  have ahead : data.toNat ≤ place.toNat := by omega
  simp only [Spans, buddyShift]
  omega

/-- `realloc_shared_msg` stores nothing in the data areas. -/
theorem reallocSharedMsg_memory (shared placed : Shared) (order : Nat) (returned : Bool)
    (held : shared.shm.blockOrder shared.address = some order)
    (result : reallocSharedMsg shared = some (returned, placed)) :
    placed.shm.memory = shared.shm.memory ∧ placed.address = shared.address := by
  rcases reallocSharedMsg_cases shared order held with
    kept | ⟨offers, refused⟩ | ⟨extent, available, offers, moved⟩
  · obtain ⟨-, rfl⟩ := Prod.mk.inj (Option.some.inj (kept.symm.trans result))
    exact ⟨rfl, rfl⟩
  · obtain ⟨-, rfl⟩ := Prod.mk.inj (Option.some.inj (refused.symm.trans result))
    exact ⟨rfl, rfl⟩
  · obtain ⟨-, rfl⟩ := Prod.mk.inj (Option.some.inj (moved.symm.trans result))
    refine ⟨?_, rfl⟩
    by_cases flagged : Holds shared.message.flag flagAllocdata
    · rw [relocate_flagged _ _ _ flagged]
      rfl
    · rw [relocate_plain _ _ _ flagged]
      rfl

/-- The bytes of reserved data are stored inside the block they are reserved in. -/
theorem emiMsgReadData_inside (before placed : Shared) (source : Source)
    (reserved : Reserved before placed) (ret : Int) (final : Receiving)
    (read : emiMsgReadData ⟨placed, source⟩ = some (ret, final)) (place : Address)
    (changed : final.shared.shm.memory place ≠ placed.shm.memory place) :
    ∃ extent ∈ final.shared.shm.live.extents, Spans extent place 1 ∧
      (extent.address = placed.address ∨ ¬ before.shm.Owns extent.address) := by
  obtain ⟨rest, exact, _⟩ := emiMsgReadData_exact ⟨placed, source⟩
  obtain ⟨-, rfl⟩ := Prod.mk.inj (Option.some.inj (exact.symm.trans read))
  obtain ⟨extent, member, spans, owned⟩ := reserved
  have near := writeBytes_place changed
  rw [List.length_take] at near
  have inside := Nat.lt_of_lt_of_le near (Nat.min_le_left _ _)
  refine ⟨extent, member, spans.byte (placed.shm.live.tiled.2 extent member) inside, ?_⟩
  rcases owned with ⟨same, _⟩ | ⟨fresh, _⟩
  · exact .inl same
  · exact .inr fresh

/-- While the sum stays below `2 ^ 31`, every byte that `emi_msg_read` changes lies in the
block of its message or in one that was not live before, whatever the stream holds. -/
theorem emiMsgRead_stores_inside (arena : Shm) (first : BitVec 32) (shared : Shared)
    (allocated : allocSharedMsg arena first = .inr shared) (order : ByteOrder) (source : Source)
    (small : (stored order ⟨shared, source⟩).message.size.toNat + sizeofMsg < 2 ^ 31) (ret : Int)
    (final : Receiving) (read : emiMsgRead order ⟨shared, source⟩ = some (ret, final))
    (place : Address) (changed : final.shared.shm.memory place ≠ shared.shm.memory place) :
    ∃ extent ∈ final.shared.shm.live.extents, Spans extent place 1 ∧
      (extent.address = shared.address ∨ ¬ shared.shm.Owns extent.address) := by
  obtain ⟨own, live, address, held, empty⟩ := allocSharedMsg_own arena first shared allocated
  have inline := stored_inline order shared source empty
  obtain ⟨after, payload, _⟩ := emiMsgReadPayload_exact order source shared.message
  rw [emiMsgRead_stored order ⟨shared, source⟩ after payload] at read
  -- from here on only what the stored message shares with the new one matters
  have areas : (stored order ⟨shared, source⟩).shm = shared.shm := rfl
  have base : (stored order ⟨shared, source⟩).address = shared.address := rfl
  generalize stored order ⟨shared, source⟩ = opened at small read inline areas base
  rw [← areas] at live held changed ⊢
  rw [← base] at address held ⊢
  by_cases failed : readStatus source payloadSize ≠ 0
  · rw [if_pos failed] at read
    obtain ⟨-, rfl⟩ := Prod.mk.inj (Option.some.inj read)
    exact absurd rfl changed
  rw [if_neg failed] at read
  by_cases announced : opened.message.size.toNat > 0
  · obtain ⟨returned, placed, result, reserved⟩ :=
      (sheltered_iff opened own live address held inline).mpr small
    obtain ⟨memory, kept⟩ := reallocSharedMsg_memory opened placed own.order returned held result
    rw [← memory] at changed
    rw [if_pos announced, result, Option.bind_some] at read
    cases returned with
    | false =>
      obtain ⟨-, rfl⟩ := Prod.mk.inj (Option.some.inj read)
      exact absurd rfl changed
    | true =>
      rw [← kept]
      exact emiMsgReadData_inside opened placed after (reserved rfl) ret final read place changed
  · rw [if_neg announced] at read
    obtain ⟨-, rfl⟩ := Prod.mk.inj (Option.some.inj read)
    exact absurd rfl changed

end Emilib.Requests
