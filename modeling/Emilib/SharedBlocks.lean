import Mathlib.Algebra.Order.Ring.Int
import Emilib.Messages

/-!
# Shared messages and the blocks they own

This is the upper half of `emi_shbuf.c`: `emi_alloc`, `emi_free` and the
functions that create, enlarge and destroy a message in the shared arena, where
the blocks in use are separate. Each call of `emi_alloc` consumes one offer of the
environment, which names a place for the block or none; an offer that is not
aligned, leaves the arena or meets a live block counts as none. So the offers range
over every outcome of an arena whose requests were all clean (`clean_runs_refine`),
but not over those of an arena where the order fields have gone wrong.

Addresses are relative to the base of the arena. The 4-byte index that precedes
every block is not part of the modelled memory: the order of a block is looked
up by its address. The record of a message is kept beside the memory too, which
holds data areas only. The same functions on the bytes of the arena, with blocks
that may overlap, are in `ArenaBytes`; these here are what they come to as long as
the blocks stay separate.
-/

namespace Emilib.SharedBlocks

open ByteWords FlagBits Messages

/-- `BUDDY_SHIFT`. -/
def buddyShift : Nat := 8

/-- `EMI_ORDER_NUM`, as `config.mk` sets it. -/
def emiOrderNum : Nat := 16

/-- `ADDR_BUF_OFFSET`. -/
def addrBufOffset : Nat := 4

/-- The conversion of a `size_t` to `int`. -/
def toInt (size : Nat) : Int := (BitVec.ofNat 32 size).toInt

/-- The loop of `size_to_order`; an `int` is zero after 32 shifts. -/
def shiftsToZero : Nat → Int → Nat
  | 0, _ => 0
  | fuel + 1, size => if size > 0 then shiftsToZero fuel (size / 2) + 1 else 0

/-- `size_to_order`. The subtraction wraps around as in two's complement; the
language leaves it undefined for the least `int`. -/
def sizeToOrder (size : Int) : Nat :=
  shiftsToZero 32 ((size - 1).bmod (2 ^ 32) / 2 ^ buddyShift)

/-- A block in use: the number of its first smallest block, and its order. -/
structure Extent where
  blkOffset : Nat
  order : Nat
deriving DecidableEq, Repr

/-- `GET_ALLOC_ADDR`, relative to the base of the arena. -/
def Extent.address (extent : Extent) : Address :=
  BitVec.ofNat 64 (extent.blkOffset * 2 ^ buddyShift + addrBufOffset)

/-- Two blocks have no smallest block in common. -/
def Extent.Apart (left right : Extent) : Prop :=
  left.blkOffset + 2 ^ left.order ≤ right.blkOffset ∨
    right.blkOffset + 2 ^ right.order ≤ left.blkOffset

instance (left right : Extent) : Decidable (left.Apart right) :=
  inferInstanceAs (Decidable (_ ∨ _))

/-- The blocks lie in the arena and are pairwise apart. -/
def Tiled (extents : List Extent) : Prop :=
  extents.Pairwise Extent.Apart ∧
    ∀ extent ∈ extents, extent.blkOffset + 2 ^ extent.order ≤ 2 ^ emiOrderNum

/-- A block a correct allocator may hand out next to the live ones. -/
def Extent.Available (extents : List Extent) (extent : Extent) : Prop :=
  extent.blkOffset % 2 ^ extent.order = 0 ∧
    extent.blkOffset + 2 ^ extent.order ≤ 2 ^ emiOrderNum ∧
    ∀ other ∈ extents, extent.Apart other

instance (extents : List Extent) (extent : Extent) : Decidable (extent.Available extents) :=
  inferInstanceAs (Decidable (_ ∧ _ ∧ _))

/-- The live blocks of a correct allocator. -/
structure Live where
  extents : List Extent
  tiled : Tiled extents

/-- Hand out an available block. -/
def Live.insert (live : Live) (extent : Extent) (available : extent.Available live.extents) :
    Live where
  extents := extent :: live.extents
  tiled := by
    obtain ⟨_, inside, apart⟩ := available
    obtain ⟨pairwise, bounded⟩ := live.tiled
    refine ⟨List.pairwise_cons.2 ⟨apart, pairwise⟩, ?_⟩
    intro other member
    rcases List.mem_cons.1 member with rfl | old
    · exact inside
    · exact bounded other old

/-- Take back the block at an address, if there is one. -/
def Live.remove (live : Live) (address : Address) : Live where
  extents := live.extents.eraseP (fun extent => extent.address = address)
  tiled := ⟨live.tiled.1.sublist List.eraseP_sublist,
    fun extent member => live.tiled.2 extent (List.mem_of_mem_eraseP member)⟩

/-- The shared arena: the live blocks, the outcomes of the allocations to come,
the addresses `emi_alloc` returned and those passed to `emi_free`, newest first,
the data areas, and the return blocks by address. -/
structure Shm where
  live : Live
  offers : List (Option Nat)
  granted : List Address
  freed : List Address
  memory : Address → Byte
  returns : Address → Option EmiRetdata

/-- The order recorded for the block at an address. -/
def Shm.blockOrder (shm : Shm) (address : Address) : Option Nat :=
  (shm.live.extents.find? (fun extent => extent.address = address)).map Extent.order

/-- The arena once the offer was taken up with this block. -/
def Shm.grant (shm : Shm) (extent : Extent) (available : extent.Available shm.live.extents)
    (offers : List (Option Nat)) : Shm :=
  { shm with
    live := shm.live.insert extent available
    offers := offers
    granted := extent.address :: shm.granted }

/-- `alloc_emi_buf` under the lock: the environment's next offer, if it is sound. -/
def allocEmiBuf (shm : Shm) (size : Nat) : Option Extent × Shm :=
  if size = 0 then (none, shm)
  else match shm.offers with
    | [] => (none, shm)
    | none :: offers => (none, { shm with offers := offers })
    | some blkOffset :: offers =>
        let extent : Extent := ⟨blkOffset, sizeToOrder (toInt size)⟩
        if available : extent.Available shm.live.extents then
          (some extent, shm.grant extent available offers)
        else (none, { shm with offers := offers })

/-- `emi_alloc`: the address, or NULL, and the arena. A `size_t` is a number
below `2 ^ 64`. -/
def emiAlloc (shm : Shm) (size : Nat) : Option Address × Shm :=
  if size > 0 then
    match allocEmiBuf shm ((size + addrBufOffset) % 2 ^ 64) with
    | (none, shm) => (none, shm)
    | (some extent, shm) => (some extent.address, shm)
  else (none, shm)

/-- `emi_free`: the address is logged, and the block at it is no longer live. What it does
to the tree where no block is live is left out. -/
def emiFree (shm : Shm) (addr : Address) : Shm :=
  { shm with live := shm.live.remove addr, freed := addr :: shm.freed }

/-- A message in the arena, together with the arena. -/
structure Shared where
  shm : Shm
  address : Address
  message : EmiMsg

/-- The record `alloc_shared_msg` leaves: zero but for the offset of the data,
which lie behind the record. -/
def emptyMsg : EmiMsg where
  flag := 0
  msg := 0
  cmd := 0
  size := 0
  retsize := 0
  dataOffset := BitVec.ofNat 64 sizeofMsg
  retdataOffset := 0

/-- `alloc_shared_msg`: the message, or NULL, and the arena. -/
def allocSharedMsg (shm : Shm) (size : BitVec 32) : Shm ⊕ Shared :=
  match emiAlloc shm (sizeofMsg + size.toNat) with
  | (none, shm) => .inl shm
  | (some address, shm) =>
      let data := getAddr address (BitVec.ofNat 64 sizeofMsg)
      let memory := writeBytes shm.memory data (List.replicate size.toNat 0)
      .inr ⟨{ shm with memory := memory }, address, emptyMsg⟩

/-- `oldsize` of `realloc_shared_msg`: the room in a block of this order. -/
def oldsize (order : Nat) : Int := 2 ^ order * 2 ^ buddyShift - addrBufOffset

/-- `newsize` of `realloc_shared_msg`, converted to `int`. -/
def newsize (size : BitVec 32) : Int := toInt (size.toNat + sizeofMsg)

/-- The message after `realloc_shared_msg` found no block for the data. -/
def refuse (shared : Shared) (shm : Shm) : Shared :=
  { shared with
    shm := shm
    message := { shared.message with flag := lower shared.message.flag retSucceeded } }

/-- The message after its data area moved to the new block at `data`. -/
def relocate (shared : Shared) (shm : Shm) (data : Address) : Shared :=
  { shared with
    shm :=
      if Holds shared.message.flag flagAllocdata then
        emiFree shm (getAddr shared.address shared.message.dataOffset)
      else shm
    message := { shared.message with
      dataOffset := getOffset shared.address data
      flag := raise shared.message.flag flagAllocdata } }

/-- Moving the data area for the first time frees nothing. -/
theorem relocate_plain (shared : Shared) (shm : Shm) (data : Address)
    (plain : ¬ Holds shared.message.flag flagAllocdata) :
    (relocate shared shm data).shm = shm := if_neg plain

/-- Moving the data area frees the place where the message says they were. -/
theorem relocate_flagged (shared : Shared) (shm : Shm) (data : Address)
    (flagged : Holds shared.message.flag flagAllocdata) :
    (relocate shared shm data).shm =
      emiFree shm (getAddr shared.address shared.message.dataOffset) := if_pos flagged

/-- `realloc_shared_msg`: whether it returns the message rather than NULL, and
the message. Without a block at the address there is no result. -/
def reallocSharedMsg (shared : Shared) : Option (Bool × Shared) := do
  let order ← shared.shm.blockOrder shared.address
  if oldsize order ≥ newsize shared.message.size then return (true, shared)
  else
    match emiAlloc shared.shm shared.message.size.toNat with
    | (none, shm) => return (false, refuse shared shm)
    | (some data, shm) => return (true, relocate shared shm data)

/-- The first branch of `free_shared_msg_data`. -/
def freeAllocdata (shared : Shared) : Shared :=
  if Holds shared.message.flag flagAllocdata then
    { shared with
      shm := emiFree shared.shm (getAddr shared.address shared.message.dataOffset)
      message := { shared.message with flag := lower shared.message.flag flagAllocdata } }
  else shared

/-- The second branch of `free_shared_msg_data`. -/
def freeRetdata (shared : Shared) : Shared :=
  if shared.message.retsize.toNat > 0 then
    { shared with
      shm := emiFree shared.shm (getAddr shared.address shared.message.retdataOffset)
      message := { shared.message with retsize := 0 } }
  else shared

/-- `free_shared_msg_data`. -/
def freeSharedMsgData (shared : Shared) : Shared := freeRetdata (freeAllocdata shared)

/-- `free_shared_msg`: what is left is the arena. -/
def freeSharedMsg (shared : Shared) : Shm :=
  let shared := freeSharedMsgData shared
  emiFree shared.shm shared.address

/-- The conversion to `int` keeps sizes below `2 ^ 31`. -/
theorem toInt_exact (size : Nat) (small : size < 2 ^ 31) : toInt size = size := by
  have fits : (BitVec.ofNat 32 size).toNat = size := by
    rw [BitVec.toNat_ofNat]
    exact Nat.mod_eq_of_lt (by omega)
  rw [toInt, BitVec.toInt_eq_toNat_of_lt (by rw [fits]; omega), fits]

/-- The loop counts the bits of its argument. -/
theorem lt_shiftsToZero (fuel value : Nat) (bounded : value < 2 ^ fuel) :
    value < 2 ^ shiftsToZero fuel value := by
  induction fuel generalizing value with
  | zero => simpa [shiftsToZero] using bounded
  | succ fuel inductionHypothesis =>
    by_cases positive : (value : Int) > 0
    · have halved : ((value : Int) / 2) = ((value / 2 : Nat) : Int) := by omega
      have counted := inductionHypothesis (value / 2) (by omega)
      rw [shiftsToZero, if_pos positive, halved, Nat.pow_succ]
      omega
    · have zero : value = 0 := by omega
      simp [shiftsToZero, zero]

/-- The loop counts no bit that its argument does not have. -/
theorem shiftsToZero_least (fuel value order : Nat) (below : value < 2 ^ order) :
    shiftsToZero fuel value ≤ order := by
  induction fuel generalizing value order with
  | zero => exact Nat.zero_le order
  | succ fuel inductionHypothesis =>
    by_cases positive : (value : Int) > 0
    · have halved : ((value : Int) / 2) = ((value / 2 : Nat) : Int) := by omega
      rw [shiftsToZero, if_pos positive, halved]
      cases order with
      | zero => omega
      | succ order =>
        rw [Nat.pow_succ] at below
        exact Nat.succ_le_succ (inductionHypothesis (value / 2) order (by omega))
    · rw [shiftsToZero, if_neg positive]
      exact Nat.zero_le order

/-- When the conversion to `int` keeps the size, `size_to_order` counts the bits of
the number of smallest blocks before the last byte. -/
theorem sizeToOrder_exact (size : Nat) (small : size < 2 ^ 31) :
    sizeToOrder (toInt size) = shiftsToZero 32 ((size - 1) / 2 ^ buddyShift : Nat) := by
  have kept : ((size : Int) - 1).bmod (2 ^ 32) = size - 1 :=
    Int.bmod_eq_of_le (by omega) (by omega)
  rw [toInt_exact size small, sizeToOrder, kept]
  by_cases zero : size = 0
  · subst zero
    rfl
  · congr 1
    simp only [buddyShift]
    omega

/-- A block of the order that `size_to_order` computes has room for the size,
when the conversion to `int` keeps it. -/
theorem sizeToOrder_room (size : Nat) (small : size < 2 ^ 31) :
    size ≤ 2 ^ sizeToOrder (toInt size) * 2 ^ buddyShift := by
  have counted := lt_shiftsToZero 32 ((size - 1) / 2 ^ buddyShift) (by
    simp only [buddyShift]
    omega)
  rw [sizeToOrder_exact size small]
  simp only [buddyShift] at counted ⊢
  omega

/-- No smaller block has room for the size. -/
theorem sizeToOrder_least (size order : Nat) (small : size < 2 ^ 31)
    (room : size ≤ 2 ^ order * 2 ^ buddyShift) : sizeToOrder (toInt size) ≤ order := by
  rw [sizeToOrder_exact size small]
  apply shiftsToZero_least
  have positive : 0 < 2 ^ order := Nat.two_pow_pos order
  simp only [buddyShift] at room ⊢
  omega

/-- What one call of `alloc_emi_buf` can do: consume an offer at most, or take a
block that was available. -/
theorem allocEmiBuf_cases (shm : Shm) (size : Nat) :
    (∃ offers, allocEmiBuf shm size = (none, { shm with offers := offers })) ∨
      ∃ extent available offers, extent.order = sizeToOrder (toInt size) ∧
        allocEmiBuf shm size = (some extent, shm.grant extent available offers) := by
  by_cases zero : size = 0
  · exact Or.inl ⟨shm.offers, by simp only [allocEmiBuf, if_pos zero]⟩
  cases offered : shm.offers with
  | nil =>
    refine Or.inl ⟨shm.offers, ?_⟩
    simp only [allocEmiBuf, if_neg zero, offered]
    rw [← offered]
  | cons offer offers =>
    cases offer with
    | none => exact Or.inl ⟨offers, by simp only [allocEmiBuf, if_neg zero, offered]⟩
    | some blkOffset =>
      by_cases available :
          (Extent.mk blkOffset (sizeToOrder (toInt size))).Available shm.live.extents
      · exact Or.inr ⟨⟨blkOffset, sizeToOrder (toInt size)⟩, available, offers, rfl,
          by simp only [allocEmiBuf, if_neg zero, offered, dif_pos available]⟩
      · exact Or.inl ⟨offers,
          by simp only [allocEmiBuf, if_neg zero, offered, dif_neg available]⟩

/-- What one call of `emi_alloc` can do, likewise. -/
theorem emiAlloc_cases (shm : Shm) (size : Nat) :
    (∃ offers, emiAlloc shm size = (none, { shm with offers := offers })) ∨
      ∃ extent available offers,
        extent.order = sizeToOrder (toInt ((size + addrBufOffset) % 2 ^ 64)) ∧
        emiAlloc shm size = (some extent.address, shm.grant extent available offers) := by
  by_cases positive : size > 0
  · rcases allocEmiBuf_cases shm ((size + addrBufOffset) % 2 ^ 64) with
      ⟨offers, refused⟩ | ⟨extent, available, offers, order, taken⟩
    · exact Or.inl ⟨offers, by simp only [emiAlloc, if_pos positive, refused]⟩
    · exact Or.inr ⟨extent, available, offers, order,
        by simp only [emiAlloc, if_pos positive, taken]⟩
  · exact Or.inl ⟨shm.offers, by simp only [emiAlloc, if_neg positive]⟩

/-- Some live block is at this address. -/
def Shm.Owns (shm : Shm) (address : Address) : Prop :=
  ∃ extent ∈ shm.live.extents, extent.address = address

/-- The address of a block of the arena, as a number. -/
theorem Extent.address_toNat (extent : Extent)
    (inside : extent.blkOffset + 2 ^ extent.order ≤ 2 ^ emiOrderNum) :
    extent.address.toNat = extent.blkOffset * 2 ^ buddyShift + addrBufOffset := by
  have positive : 0 < 2 ^ extent.order := Nat.two_pow_pos extent.order
  rw [Extent.address, BitVec.toNat_ofNat]
  apply Nat.mod_eq_of_lt
  simp only [emiOrderNum, buddyShift, addrBufOffset] at inside ⊢
  omega

/-- A block that is available is at the address of no live block. -/
theorem Extent.Available.fresh {shm : Shm} {extent : Extent}
    (available : extent.Available shm.live.extents) : ¬ shm.Owns extent.address := by
  rintro ⟨other, member, same⟩
  have inside := shm.live.tiled.2 other member
  have places : other.blkOffset = extent.blkOffset := by
    have equal := congrArg BitVec.toNat same
    rw [other.address_toNat inside, extent.address_toNat available.2.1] at equal
    simp only [buddyShift, addrBufOffset] at equal
    omega
  have left : 0 < 2 ^ extent.order := Nat.two_pow_pos extent.order
  have right : 0 < 2 ^ other.order := Nat.two_pow_pos other.order
  rcases available.2.2 other member with before | behind
  · omega
  · omega

/-- Granting a block makes its address owned. -/
theorem Shm.owns_grant (shm : Shm) (extent : Extent)
    (available : extent.Available shm.live.extents) (offers : List (Option Nat)) :
    (shm.grant extent available offers).Owns extent.address :=
  ⟨extent, List.mem_cons_self, rfl⟩

/-- Granting a block keeps every address owned. -/
theorem Shm.Owns.grant {shm : Shm} {address : Address} (owned : shm.Owns address)
    (extent : Extent) (available : extent.Available shm.live.extents)
    (offers : List (Option Nat)) : (shm.grant extent available offers).Owns address := by
  obtain ⟨other, member, placed⟩ := owned
  exact ⟨other, List.mem_cons_of_mem extent member, placed⟩

/-- Taking back one block leaves every other address owned. -/
theorem Shm.Owns.free {shm : Shm} {address : Address} (owned : shm.Owns address)
    (addr : Address) (other : address ≠ addr) : (emiFree shm addr).Owns address := by
  obtain ⟨extent, member, placed⟩ := owned
  refine ⟨extent, ?_, placed⟩
  apply (List.mem_eraseP_of_neg _).2 member
  simp [placed, other]

/-- An owned address lies in the arena. -/
theorem Shm.Owns.inside {shm : Shm} {address : Address} (owned : shm.Owns address) :
    address.toNat ≤ 2 ^ buddyShift * 2 ^ emiOrderNum := by
  obtain ⟨extent, member, rfl⟩ := owned
  have bound := shm.live.tiled.2 extent member
  have positive : 0 < 2 ^ extent.order := Nat.two_pow_pos extent.order
  rw [extent.address_toNat bound]
  simp only [buddyShift, emiOrderNum, addrBufOffset] at bound ⊢
  omega

/-- No two live blocks have the same address. -/
theorem Live.nodup (live : Live) : (live.extents.map Extent.address).Nodup := by
  obtain ⟨extents, pairwise, inside⟩ := live
  induction extents with
  | nil => exact List.nodup_nil
  | cons extent extents inductionHypothesis =>
    obtain ⟨apart, rest⟩ := List.pairwise_cons.1 pairwise
    have below : ∀ other ∈ extents, other.blkOffset + 2 ^ other.order ≤ 2 ^ emiOrderNum :=
      fun other member => inside other (List.mem_cons_of_mem extent member)
    refine List.nodup_cons.2 ⟨?_, inductionHypothesis rest below⟩
    intro member
    obtain ⟨other, there, same⟩ := List.mem_map.1 member
    have here := inside extent List.mem_cons_self
    have equal := congrArg BitVec.toNat same
    rw [other.address_toNat (below other there), extent.address_toNat here] at equal
    have left : 0 < 2 ^ extent.order := Nat.two_pow_pos extent.order
    have right : 0 < 2 ^ other.order := Nat.two_pow_pos other.order
    simp only [buddyShift, addrBufOffset] at equal
    rcases apart other there with before | behind
    · omega
    · omega

/-- Erasing the block at an address from blocks with distinct addresses. -/
theorem mem_eraseP_address (extents : List Extent) (addr : Address)
    (distinct : (extents.map Extent.address).Nodup) (extent : Extent) :
    extent ∈ extents.eraseP (fun extent => extent.address = addr) ↔
      extent ∈ extents ∧ extent.address ≠ addr := by
  induction extents with
  | nil => simp
  | cons head tail inductionHypothesis =>
    obtain ⟨fresh, rest⟩ := List.nodup_cons.1 distinct
    by_cases here : head.address = addr
    · have others : ∀ other ∈ tail, other.address ≠ addr := fun other member same =>
        fresh (List.mem_map.2 ⟨other, member, same.trans here.symm⟩)
      rw [List.eraseP_cons_of_pos (by simp [here]), List.mem_cons]
      constructor
      · exact fun member => ⟨Or.inr member, others extent member⟩
      · rintro ⟨rfl | member, other⟩
        · exact absurd here other
        · exact member
    · rw [List.eraseP_cons_of_neg (by simp [here]), List.mem_cons, List.mem_cons,
        inductionHypothesis rest]
      constructor
      · rintro (rfl | ⟨member, other⟩)
        · exact ⟨Or.inl rfl, here⟩
        · exact ⟨Or.inr member, other⟩
      · rintro ⟨rfl | member, other⟩
        · exact Or.inl rfl
        · exact Or.inr ⟨member, other⟩

/-- `emi_free` takes back the block at its address and no other. -/
theorem emiFree_live (shm : Shm) (addr : Address) (extent : Extent) :
    extent ∈ (emiFree shm addr).live.extents ↔
      extent ∈ shm.live.extents ∧ extent.address ≠ addr :=
  mem_eraseP_address shm.live.extents addr shm.live.nodup extent

/-- A message for no data occupies one smallest block, which is live at its address. -/
theorem allocSharedMsg_inline (arena : Shm) (shared : Shared)
    (allocated : allocSharedMsg arena 0 = .inr shared) :
    shared.shm.blockOrder shared.address = some 0 ∧ shared.shm.Owns shared.address ∧
      shared.message = emptyMsg := by
  rcases emiAlloc_cases arena (sizeofMsg + (0 : BitVec 32).toNat) with
    ⟨offers, refused⟩ | ⟨extent, available, offers, order, taken⟩
  · rw [allocSharedMsg, refused] at allocated
    cases allocated
  · rw [allocSharedMsg, taken] at allocated
    obtain rfl := Sum.inr.inj allocated
    have smallest : extent.order = 0 := order
    exact ⟨by simp [Shm.blockOrder, Shm.grant, Live.insert, smallest],
      arena.owns_grant extent available offers, rfl⟩

/-- Sizes that stay positive as an `int` are compared exactly. -/
theorem newsize_exact (size : BitVec 32) (small : size.toNat + sizeofMsg < 2 ^ 31) :
    newsize size = size.toNat + sizeofMsg := by
  rw [newsize, toInt_exact _ small]
  push_cast
  rfl

/-- `realloc_shared_msg` keeps a message whose data fit into its own block. -/
theorem reallocSharedMsg_kept (shared : Shared) (order : Nat)
    (held : shared.shm.blockOrder shared.address = some order)
    (fits : oldsize order ≥ newsize shared.message.size) :
    reallocSharedMsg shared = some (true, shared) := by
  simp [reallocSharedMsg, held, fits]

/-- Without a block for the data, `realloc_shared_msg` clears the success bit. -/
theorem reallocSharedMsg_refused (shared : Shared) (order : Nat) (shm : Shm)
    (held : shared.shm.blockOrder shared.address = some order)
    (outgrown : ¬ oldsize order ≥ newsize shared.message.size)
    (refused : emiAlloc shared.shm shared.message.size.toNat = (none, shm)) :
    reallocSharedMsg shared = some (false, refuse shared shm) := by
  simp [reallocSharedMsg, held, outgrown, refused]

/-- With a block for the data, `realloc_shared_msg` moves the data area there. -/
theorem reallocSharedMsg_moved (shared : Shared) (order : Nat) (data : Address) (shm : Shm)
    (held : shared.shm.blockOrder shared.address = some order)
    (outgrown : ¬ oldsize order ≥ newsize shared.message.size)
    (taken : emiAlloc shared.shm shared.message.size.toNat = (some data, shm)) :
    reallocSharedMsg shared = some (true, relocate shared shm data) := by
  simp [reallocSharedMsg, held, outgrown, taken]

/-- Everything `realloc_shared_msg` can do to a message with a block. -/
theorem reallocSharedMsg_cases (shared : Shared) (order : Nat)
    (held : shared.shm.blockOrder shared.address = some order) :
    reallocSharedMsg shared = some (true, shared) ∨
      (∃ offers, reallocSharedMsg shared =
        some (false, refuse shared { shared.shm with offers := offers })) ∨
      ∃ extent available offers, reallocSharedMsg shared =
        some (true, relocate shared (shared.shm.grant extent available offers) extent.address) := by
  by_cases fits : oldsize order ≥ newsize shared.message.size
  · exact Or.inl (reallocSharedMsg_kept shared order held fits)
  · rcases emiAlloc_cases shared.shm shared.message.size.toNat with
      ⟨offers, refused⟩ | ⟨extent, available, offers, _, taken⟩
    · exact Or.inr (Or.inl ⟨offers, reallocSharedMsg_refused shared order _ held fits refused⟩)
    · exact Or.inr (Or.inr ⟨extent, available, offers,
        reallocSharedMsg_moved shared order _ _ held fits taken⟩)

/-- The data do not fit into the message's block, and the arena has no other for them. -/
def NoRoom (shared : Shared) (order : Nat) : Prop :=
  ¬ oldsize order ≥ newsize shared.message.size ∧
    (emiAlloc shared.shm shared.message.size.toNat).1 = none

instance (shared : Shared) (order : Nat) : Decidable (NoRoom shared order) :=
  inferInstanceAs (Decidable (_ ∧ _))

/-- `realloc_shared_msg` returns NULL exactly when there is no room, and never
changes the size of the data. -/
theorem reallocSharedMsg_status (shared : Shared) (order : Nat)
    (held : shared.shm.blockOrder shared.address = some order) :
    ∃ placed, reallocSharedMsg shared = some (decide (¬ NoRoom shared order), placed) ∧
      placed.message.size = shared.message.size := by
  by_cases fits : oldsize order ≥ newsize shared.message.size
  · have room : ¬ NoRoom shared order := fun full => full.1 fits
    refine ⟨shared, ?_, rfl⟩
    rw [reallocSharedMsg_kept shared order held fits, decide_eq_true room]
  · cases taken : emiAlloc shared.shm shared.message.size.toNat with
    | mk data shm =>
      cases data with
      | none =>
        have full : NoRoom shared order := ⟨fits, by rw [taken]⟩
        refine ⟨refuse shared shm, ?_, rfl⟩
        rw [reallocSharedMsg_refused shared order shm held fits taken]
        simp [full]
      | some data =>
        have room : ¬ NoRoom shared order := by
          rintro ⟨_, refused⟩
          rw [taken] at refused
          cases refused
        refine ⟨relocate shared shm data, ?_, rfl⟩
        rw [reallocSharedMsg_moved shared order data shm held fits taken, decide_eq_true room]

end Emilib.SharedBlocks
