import Mathlib.Data.List.Nodup
import Mathlib.Data.List.Pairwise
import Emilib.AllocSizes
import Emilib.BuddyExtents

/-!
# The index in front of a block

`emi_alloc` takes an entry of the buddy tree under the lock of the arena. Then,
without the lock, it stores the index of the entry in the four bytes in front of the
address it returns. `emi_free` reads the index back before it takes the lock, and
the order of the block from the entry when it has the lock. In between, other
processes allocate, free, and store into blocks of their own.

The arena is the array of entries and the bytes from its base on, so addresses are
relative to the base. A block in use is in `emi_alloc`, at its user or in
`emi_free`. What the code keeps nowhere stands beside it: the entry and the order
each block was taken with, and what its user stored there.

Sizes stay below `2 ^ 31` with the index. For larger ones the `int` of `size_to_order`
wraps and the block has less room than was asked for, so a user of the whole size
reaches the next block.
-/

namespace Emilib.BlockIndices

open AllocSizes BuddyExtents ByteWords Messages Node
open BuddyTree hiding allocEmiBuf
open SharedBlocks (Extent addrBufOffset buddyShift emiOrderNum sizeToOrder sizeToOrder_room toInt)

/-- A block in use: its address, the size that was asked for, its entry and its order. -/
structure Piece where
  addr : Address
  size : BitVec 64
  block : Block
deriving DecidableEq, Repr

/-- A block in `emi_free`, and the index read in front of it. -/
structure Leaving where
  piece : Piece
  buf : BitVec 32
deriving DecidableEq, Repr

/-- The arena, with the blocks that are in `emi_alloc`, at their users and in
`emi_free`. A user finds the contents of its block at its address. -/
structure Heap where
  arena : Arena
  bytes : Address → Byte
  taken : List Piece
  issued : List Piece
  leaving : List Leaving
  contents : Address → List Byte

/-- All blocks in use. -/
def Heap.held (heap : Heap) : List Piece :=
  heap.taken ++ heap.issued ++ heap.leaving.map Leaving.piece

/-- `emi_alloc` up to the end of its lock, and behind it; a store of a user; and
`emi_free` up to its lock, and in it. -/
inductive Use where
  | alloc (size : BitVec 64)
  | stamp (piece : Piece)
  | store (piece : Piece) (offset : Nat) (bytes : List Byte)
  | read (piece : Piece)
  | free (leaving : Leaving)
deriving DecidableEq, Repr

/-- The order `alloc_emi_buf` computes for a size passed to `emi_alloc`. -/
def orderOf (size : BitVec 64) : Nat := sizeToOrder (toInt (requested size).toNat)

/-- The place of `GET_BUF_ADDR`. -/
def indexPlace (addr : Address) : Address := addr - BitVec.ofNat 64 addrBufOffset

/-- `free_emi_buf`: the block it frees, and the array. A negative order would take
`update_buf_order` past the root, to the entry in front of the array. -/
def freeEmiBuf (top : List EmiBuf) (buf : BitVec 32) : Option (Block × List EmiBuf) := do
  let entry ← load top buf.toNat
  let order := flipOrder entry.order
  if 0 ≤ order then
    let top ← BuddyTree.freeEmiBuf top buf.toNat order.toNat emiOrderNum
    return (⟨buf.toNat, order.toNat⟩, top)
  else none

section Calls

variable (machine : ByteOrder)

/-- `GET_BUF_ADDR`. -/
def getBufAddr (bytes : Address → Byte) (addr : Address) : BitVec 32 :=
  word32 machine (readBytes bytes (indexPlace addr) 4)

/-- The assignment to `GET_BUF_ADDR`. -/
def setBufAddr (bytes : Address → Byte) (addr : Address) (buf : BitVec 32) : Address → Byte :=
  writeBytes bytes (indexPlace addr) (bytes32 machine buf)

/-- The heap after one use. A block can be used only where it is, and an access outside
the array leaves no next heap. -/
def perform (heap : Heap) : Use → Option Heap
  | .alloc size => do
      match ← emiAlloc heap.arena.top size with
      | (none, top) => return { heap with arena := ⟨top, heap.arena.live⟩ }
      | (some granted, top) =>
          let block : Block := ⟨granted.bufAddr, orderOf size⟩
          return { heap with
            arena := ⟨top, block :: heap.arena.live⟩
            taken := ⟨BitVec.ofInt 64 granted.addr, size, block⟩ :: heap.taken }
  | .stamp piece =>
      if piece ∈ heap.taken then
        let bytes := setBufAddr machine heap.bytes piece.addr (BitVec.ofInt 32 piece.block.buf)
        some { heap with
          bytes := bytes
          taken := heap.taken.erase piece
          issued := piece :: heap.issued
          contents := Function.update heap.contents piece.addr
            (readBytes bytes piece.addr piece.size.toNat) }
      else none
  | .store piece offset bytes =>
      if piece ∈ heap.issued then
        let old := heap.contents piece.addr
        some { heap with
          bytes := writeBytes heap.bytes (piece.addr + BitVec.ofNat 64 offset) bytes
          contents := Function.update heap.contents piece.addr
            (old.take offset ++ bytes ++ old.drop (offset + bytes.length)) }
      else none
  | .read piece =>
      if piece ∈ heap.issued then
        some { heap with
          issued := heap.issued.erase piece
          leaving := ⟨piece, getBufAddr machine heap.bytes piece.addr⟩ :: heap.leaving }
      else none
  | .free leaving =>
      if leaving ∈ heap.leaving then do
        let (block, top) ← freeEmiBuf heap.arena.top leaving.buf
        return { heap with
          arena := ⟨top, heap.arena.live.erase block⟩
          leaving := heap.leaving.erase leaving }
      else none

/-- The runs from an arena just initialized, with any bytes in it. -/
def heaps : System Heap Use :=
  System.performing (fun heap => (allocator emiOrderNum).start heap.arena ∧ heap.held = [])
    (perform machine)

end Calls

/-- Users ask for sizes that an `int` can hold together with the index, and stay inside
them; the requests to the tree are clean. -/
def Proper (heap : Heap) : Use → Prop
  | .alloc size => size.toNat + addrBufOffset < 2 ^ 31 ∧
      CleanRequest emiOrderNum heap.arena (.alloc (orderOf size))
  | .store piece offset bytes => offset + bytes.length ≤ piece.size.toNat
  | .free leaving => ∀ freed ∈ freeEmiBuf heap.arena.top leaving.buf,
      CleanRequest emiOrderNum heap.arena (.free freed.1)
  | .stamp _ | .read _ => True

instance (heap : Heap) (use : Use) : Decidable (Proper heap use) :=
  match use with
  | .alloc _ => inferInstanceAs (Decidable (_ ∧ _))
  | .store _ _ _ => inferInstanceAs (Decidable (_ ≤ _))
  | .free _ => inferInstanceAs (Decidable (∀ _ ∈ _, _))
  | .stamp _ | .read _ => inferInstanceAs (Decidable True)

/-- The block lies where its entry says, and has room for what was asked for. -/
structure Piece.Fits (top : List EmiBuf) (piece : Piece) : Prop where
  addr : piece.addr = (extentOf top piece.block).address
  room : piece.size.toNat + addrBufOffset ≤ 2 ^ (buddyShift + piece.block.order)

/-- The invariant of proper runs. -/
structure Sound (machine : ByteOrder) (heap : Heap) : Prop where
  faithful : Faithful emiOrderNum heap.arena
  held : (heap.held.map Piece.block).Perm heap.arena.live
  fits : ∀ piece ∈ heap.held, piece.Fits heap.arena.top
  indexed : ∀ piece ∈ heap.issued,
    getBufAddr machine heap.bytes piece.addr = BitVec.ofInt 32 piece.block.buf
  contents : ∀ piece ∈ heap.issued,
    readBytes heap.bytes piece.addr piece.size.toNat = heap.contents piece.addr
  leaving : ∀ leaving ∈ heap.leaving, leaving.buf = BitVec.ofInt 32 leaving.piece.block.buf

/-- No live block is listed twice. -/
theorem live_nodup {arena : Arena} (faithful : Faithful emiOrderNum arena) :
    arena.live.Nodup := by
  have distinct : (arena.live.map (extentOf arena.top)).Nodup :=
    List.Nodup.of_map Extent.address (liveOf arena faithful).nodup
  exact List.Nodup.of_map (extentOf arena.top) distinct

/-- Any two live blocks are apart. -/
theorem extents_apart {arena : Arena} (faithful : Faithful emiOrderNum arena) {one other : Block}
    (oneLive : one ∈ arena.live) (otherLive : other ∈ arena.live) (different : one ≠ other) :
    (extentOf arena.top one).Apart (extentOf arena.top other) := by
  have symmetric : Std.Symm fun one other : Block =>
      (extentOf arena.top one).Apart (extentOf arena.top other) := ⟨fun _ _ apart => Or.symm apart⟩
  exact (List.pairwise_map.mp (extents_tiled faithful).1).forall oneLive otherLive different

/-- What was asked for and the four bytes in front of it lie in memory, and apart from
those of another block. -/
structure Laid (left right : Piece) : Prop where
  start : addrBufOffset ≤ left.addr.toNat
  finish : left.addr.toNat + left.size.toNat < 2 ^ 31
  apart : left.block ≠ right.block →
    left.addr.toNat + left.size.toNat + addrBufOffset ≤ right.addr.toNat ∨
      right.addr.toNat + right.size.toNat + addrBufOffset ≤ left.addr.toNat

/-- Live blocks that fit are laid out so. -/
theorem laid_of_fits {arena : Arena} (faithful : Faithful emiOrderNum arena) {left right : Piece}
    (leftLive : left.block ∈ arena.live) (rightLive : right.block ∈ arena.live)
    (leftFits : left.Fits arena.top) (rightFits : right.Fits arena.top) : Laid left right := by
  have inside := (extents_tiled faithful).2
  have leftInside := inside _ (List.mem_map_of_mem leftLive)
  have rightInside := inside _ (List.mem_map_of_mem rightLive)
  have leftAddr := (extentOf arena.top left.block).address_toNat leftInside
  have rightAddr := (extentOf arena.top right.block).address_toNat rightInside
  rw [← leftFits.addr] at leftAddr
  rw [← rightFits.addr] at rightAddr
  have leftRoom := leftFits.room
  have rightRoom := rightFits.room
  have leftOrder : (extentOf arena.top left.block).order = left.block.order := rfl
  have rightOrder : (extentOf arena.top right.block).order = right.block.order := rfl
  rw [leftOrder] at leftInside
  rw [rightOrder] at rightInside
  rw [Nat.pow_add] at leftRoom rightRoom
  have offset : addrBufOffset = 4 := rfl
  simp only [buddyShift, offset, emiOrderNum] at leftInside leftAddr leftRoom
  simp only [buddyShift, offset, emiOrderNum] at rightInside rightAddr rightRoom ⊢
  refine ⟨by omega, by omega, fun different => ?_⟩
  rcases extents_apart faithful leftLive rightLive different with before | behind
  · rw [leftOrder] at before
    left
    omega
  · rw [rightOrder] at behind
    right
    omega

/-- The place of the index of a block in memory. -/
theorem indexPlace_toNat {addr : Address} (start : addrBufOffset ≤ addr.toNat) :
    (indexPlace addr).toNat = addr.toNat - addrBufOffset := by
  have bound : addr.toNat < 2 ^ 64 := addr.isLt
  have offset : (BitVec.ofNat 64 addrBufOffset).toNat = addrBufOffset := rfl
  rw [indexPlace, BitVec.toNat_sub, offset]
  simp only [addrBufOffset] at start ⊢
  omega

section Frame

variable (machine : ByteOrder)

/-- Bytes stored inside one block leave the index and the contents of another. -/
theorem Laid.frame {left right : Piece} (laid : Laid left right) (inside : Laid right left)
    (different : left.block ≠ right.block) (bytes : Address → Byte) (place : Address)
    (stored : List Byte) (start : right.addr.toNat ≤ place.toNat + addrBufOffset)
    (finish : place.toNat + stored.length ≤ right.addr.toNat + right.size.toNat) :
    getBufAddr machine (writeBytes bytes place stored) left.addr =
        getBufAddr machine bytes left.addr ∧
      readBytes (writeBytes bytes place stored) left.addr left.size.toNat =
        readBytes bytes left.addr left.size.toNat := by
  have index := indexPlace_toNat laid.start
  have low := laid.start
  have apart := laid.apart different
  have leftFinish := laid.finish
  have rightFinish := inside.finish
  have untouched : Untouched bytes (writeBytes bytes place stored) (indexPlace left.addr)
      (addrBufOffset + left.size.toNat) := by
    apply writeBytes_untouched
    · omega
    · omega
    · simp only [addrBufOffset] at index low apart start ⊢
      omega
  have head := untouched.read 0 4 (by simp only [addrBufOffset]; omega)
  have body := untouched.read addrBufOffset left.size.toNat (Nat.le_refl _)
  rw [indexPlace, BitVec.sub_add_cancel] at body
  rw [BitVec.add_zero] at head
  exact ⟨by rw [getBufAddr, getBufAddr, head], body⟩

/-- A stored index is read back. -/
theorem getBufAddr_set (bytes : Address → Byte) (addr : Address) (buf : BitVec 32) :
    getBufAddr machine (setBufAddr machine bytes addr buf) addr = buf := by
  have read := readBytes_writeBytes bytes (indexPlace addr) (bytes32 machine buf) (by simp)
  rw [bytes32_length] at read
  rw [getBufAddr, setBufAddr, read, word32_bytes32]

end Frame

section Calls

variable {arena : Arena} {top : List EmiBuf}

/-- `emi_alloc` answers NULL and leaves the array, or takes the block that the tree
serves for the order of the size. -/
theorem emiAlloc_serve {size : BitVec 64} {answer : Option Granted}
    (answered : emiAlloc arena.top size = some (answer, top)) :
    answer = none ∧ top = arena.top ∨
      ∃ granted, answer = some granted ∧
        serve emiOrderNum arena (.alloc (orderOf size)) =
          some ⟨top, ⟨granted.bufAddr, orderOf size⟩ :: arena.live⟩ ∧
        granted.addr = blockOffset top ⟨granted.bufAddr, orderOf size⟩ * 2 ^ buddyShift +
          addrBufOffset := by
  by_cases positive : size > 0
  · rw [emiAlloc, if_pos positive] at answered
    obtain ⟨⟨found, array⟩, allocated, returned⟩ := Option.bind_eq_some_iff.mp answered
    rw [allocEmiBuf] at allocated
    by_cases zero : size + BitVec.ofNat 64 addrBufOffset = 0
    · rw [if_pos zero] at allocated
      obtain ⟨rfl, rfl⟩ := Prod.mk.inj (Option.some.inj allocated)
      obtain ⟨rfl, rfl⟩ := Prod.mk.inj (Option.some.inj returned)
      exact Or.inl ⟨rfl, rfl⟩
    · rw [if_neg zero] at allocated
      cases found with
      | none =>
        obtain ⟨rfl, rfl⟩ := Prod.mk.inj (Option.some.inj returned)
        obtain ⟨chosen, _, kept⟩ := Option.bind_eq_some_iff.mp allocated
        cases chosen with
        | none => exact Or.inl ⟨rfl, (Prod.mk.inj (Option.some.inj kept)).2.symm⟩
        | some tmp =>
          obtain ⟨_, _, marked⟩ := Option.bind_eq_some_iff.mp kept
          obtain ⟨_, _, walked⟩ := Option.bind_eq_some_iff.mp marked
          cases Option.some.inj walked
      | some buf =>
        obtain ⟨chosen, loaded, returned⟩ := Option.bind_eq_some_iff.mp returned
        obtain ⟨rfl, rfl⟩ := Prod.mk.inj (Option.some.inj returned)
        refine Or.inr ⟨_, rfl, ?_, ?_⟩
        · have served : BuddyTree.allocEmiBuf arena.top (orderOf size) emiOrderNum =
              some (some buf, array) := allocated
          rw [serve, served]
          rfl
        · rw [blockOffset, loaded]
          rfl
  · rw [emiAlloc, if_neg positive] at answered
    obtain ⟨rfl, rfl⟩ := Prod.mk.inj (Option.some.inj answered)
    exact Or.inl ⟨rfl, rfl⟩

/-- `free_emi_buf` finds the order of a live block in its entry, and frees that block. -/
theorem freeEmiBuf_serve (faithful : Faithful emiOrderNum arena) {block : Block}
    (live : block ∈ arena.live) :
    ∃ top, freeEmiBuf arena.top (BitVec.ofInt 32 block.buf) = some (block, top) ∧
      serve emiOrderNum arena (.free block) = some ⟨top, arena.live.erase block⟩ := by
  obtain ⟨inTree, address⟩ := faithful.inTree block live
  obtain ⟨positive, inside⟩ := node_stored faithful.sized inTree
  have few := (code_bounds inTree).2
  have place : ((BitVec.ofInt 32 block.buf).toNat : Int) = block.buf := by
    rw [address, pointer]
    simp only [emiOrderNum] at few
    rw [BitVec.toNat_ofInt]
    omega
  have loaded : load arena.top block.buf = some (entry arena.top block.node.code) := by
    rw [address]
    exact load_pointer positive inside
  have order : (entry arena.top block.node.code).order = flipOrder block.order :=
    (faithful.exact block.node inTree).held (List.mem_map_of_mem live)
  have flipped : flipOrder (flipOrder block.order) = block.order := by
    simp only [flipOrder]
    omega
  obtain ⟨top, completed, _⟩ := marked_kept block.order faithful.sized inTree
  have height : block.node.height = block.order := rfl
  rw [← address, height] at completed
  refine ⟨top, ?_, serve_free live completed⟩
  have freed : BuddyTree.freeEmiBuf arena.top block.buf block.order emiOrderNum = some top :=
    completed
  rw [freeEmiBuf, place, loaded]
  simp [order, flipped, freed]

end Calls

section Moves

variable (machine : ByteOrder)

/-- What one use does: `emi_alloc` finds no block or takes one, and the other uses as
they are defined. -/
inductive Moves (before : Heap) : Use → Heap → Prop
  | refused (size : BitVec 64) : Moves before (.alloc size) before
  | alloc (size : BitVec 64) (granted : Granted) (top : List EmiBuf)
      (served : serve emiOrderNum before.arena (.alloc (orderOf size)) =
        some ⟨top, ⟨granted.bufAddr, orderOf size⟩ :: before.arena.live⟩)
      (addr : granted.addr = blockOffset top ⟨granted.bufAddr, orderOf size⟩ * 2 ^ buddyShift +
        addrBufOffset) :
      Moves before (.alloc size) { before with
        arena := ⟨top, ⟨granted.bufAddr, orderOf size⟩ :: before.arena.live⟩
        taken := ⟨BitVec.ofInt 64 granted.addr, size, ⟨granted.bufAddr, orderOf size⟩⟩ ::
          before.taken }
  | stamp (piece : Piece) (bytes : Address → Byte)
      (stamped : bytes = setBufAddr machine before.bytes piece.addr
        (BitVec.ofInt 32 piece.block.buf)) (member : piece ∈ before.taken) :
      Moves before (.stamp piece) { before with
        bytes := bytes
        taken := before.taken.erase piece
        issued := piece :: before.issued
        contents := Function.update before.contents piece.addr
          (readBytes bytes piece.addr piece.size.toNat) }
  | store (piece : Piece) (offset : Nat) (bytes : List Byte) (member : piece ∈ before.issued) :
      Moves before (.store piece offset bytes) { before with
        bytes := writeBytes before.bytes (piece.addr + BitVec.ofNat 64 offset) bytes
        contents := Function.update before.contents piece.addr
          ((before.contents piece.addr).take offset ++ bytes ++
            (before.contents piece.addr).drop (offset + bytes.length)) }
  | read (piece : Piece) (member : piece ∈ before.issued) :
      Moves before (.read piece) { before with
        issued := before.issued.erase piece
        leaving := ⟨piece, getBufAddr machine before.bytes piece.addr⟩ :: before.leaving }
  | free (leaving : Leaving) (block : Block) (top : List EmiBuf)
      (member : leaving ∈ before.leaving)
      (freed : freeEmiBuf before.arena.top leaving.buf = some (block, top)) :
      Moves before (.free leaving) { before with
        arena := ⟨top, before.arena.live.erase block⟩
        leaving := before.leaving.erase leaving }

variable {machine}

theorem perform_moves {before after : Heap} {use : Use}
    (performed : perform machine before use = some after) : Moves machine before use after := by
  cases use with
  | alloc size =>
    obtain ⟨⟨answer, top⟩, answered, returned⟩ := Option.bind_eq_some_iff.mp performed
    rcases emiAlloc_serve answered with ⟨rfl, rfl⟩ | ⟨granted, rfl, served, addr⟩
    · obtain rfl := Option.some.inj returned
      exact .refused size
    · obtain rfl := Option.some.inj returned
      exact .alloc size granted top served addr
  | stamp piece =>
    obtain ⟨member, done⟩ := Option.ite_none_right_eq_some.mp performed
    obtain rfl := Option.some.inj done
    exact .stamp piece _ rfl member
  | store piece offset bytes =>
    obtain ⟨member, done⟩ := Option.ite_none_right_eq_some.mp performed
    obtain rfl := Option.some.inj done
    exact .store piece offset bytes member
  | read piece =>
    obtain ⟨member, done⟩ := Option.ite_none_right_eq_some.mp performed
    obtain rfl := Option.some.inj done
    exact .read piece member
  | free leaving =>
    obtain ⟨member, done⟩ := Option.ite_none_right_eq_some.mp performed
    obtain ⟨⟨block, top⟩, freed, returned⟩ := Option.bind_eq_some_iff.mp done
    obtain rfl := Option.some.inj returned
    exact .free leaving block top member freed

end Moves

section Invariant

variable {machine : ByteOrder} {heap : Heap}

theorem mem_held_taken {piece : Piece} (member : piece ∈ heap.taken) : piece ∈ heap.held :=
  List.mem_append_left _ (List.mem_append_left _ member)

theorem mem_held_issued {piece : Piece} (member : piece ∈ heap.issued) : piece ∈ heap.held :=
  List.mem_append_left _ (List.mem_append_right _ member)

theorem mem_held_leaving {leaving : Leaving} (member : leaving ∈ heap.leaving) :
    leaving.piece ∈ heap.held :=
  List.mem_append_right _ (List.mem_map_of_mem member)

/-- A block in use is live. -/
theorem Sound.live (sound : Sound machine heap) {piece : Piece} (member : piece ∈ heap.held) :
    piece.block ∈ heap.arena.live :=
  sound.held.mem_iff.mp (List.mem_map_of_mem member)

/-- No block is in use twice. -/
theorem Sound.nodup (sound : Sound machine heap) : (heap.held.map Piece.block).Nodup :=
  sound.held.nodup_iff.mpr (live_nodup sound.faithful)

theorem Sound.different (sound : Sound machine heap) {left right : Piece}
    (leftHeld : left ∈ heap.held) (rightHeld : right ∈ heap.held) (different : left ≠ right) :
    left.block ≠ right.block :=
  fun same => different (List.inj_on_of_nodup_map sound.nodup leftHeld rightHeld same)

theorem Sound.laid (sound : Sound machine heap) {left right : Piece}
    (leftHeld : left ∈ heap.held) (rightHeld : right ∈ heap.held) : Laid left right :=
  laid_of_fits sound.faithful (sound.live leftHeld) (sound.live rightHeld)
    (sound.fits left leftHeld) (sound.fits right rightHeld)

/-- Bytes stored inside one block, or as its index, leave the other users' blocks. -/
theorem Sound.others (sound : Sound machine heap) {piece other : Piece}
    (held : piece ∈ heap.held) (issued : other ∈ heap.issued) (different : other ≠ piece)
    (place : Address) (stored : List Byte)
    (start : piece.addr.toNat ≤ place.toNat + addrBufOffset)
    (finish : place.toNat + stored.length ≤ piece.addr.toNat + piece.size.toNat)
    (content : List Byte) :
    getBufAddr machine (writeBytes heap.bytes place stored) other.addr =
        BitVec.ofInt 32 other.block.buf ∧
      readBytes (writeBytes heap.bytes place stored) other.addr other.size.toNat =
        Function.update heap.contents piece.addr content other.addr := by
  have otherHeld := mem_held_issued issued
  have laid := sound.laid otherHeld held
  have apart := sound.different otherHeld held different
  obtain ⟨index, body⟩ := laid.frame machine (sound.laid held otherHeld) apart heap.bytes place
    stored start finish
  have elsewhere : other.addr ≠ piece.addr := by
    intro same
    have ranges := laid.apart apart
    rw [same] at ranges
    simp only [addrBufOffset] at ranges
    omega
  exact ⟨by rw [index, sound.indexed other issued],
    by rw [body, sound.contents other issued, Function.update_of_ne elsewhere]⟩

/-- Blocks that only change hands still fit, and are the live ones. -/
theorem Sound.rearranged (sound : Sound machine heap) (after : Heap)
    (same : after.arena = heap.arena) (moved : after.held.Perm heap.held) :
    (after.held.map Piece.block).Perm after.arena.live ∧
      ∀ piece ∈ after.held, piece.Fits after.arena.top := by
  rw [same]
  exact ⟨(moved.map _).trans sound.held,
    fun piece member => sound.fits piece (moved.mem_iff.mp member)⟩

/-- An element that goes from one list to the next. -/
theorem moved_perm {α : Type} [DecidableEq α] {first : List α} (second : List α) {element : α}
    (member : element ∈ first) :
    (first.erase element ++ element :: second).Perm (first ++ second) :=
  List.perm_middle.trans ((List.perm_cons_erase member).symm.append_right second)

/-- A block that fits still fits when the tree has served a request that leaves it. -/
theorem Piece.Fits.kept {before after : Arena} {piece : Piece}
    (fits : piece.Fits before.top) (earlier : Faithful emiOrderNum before)
    (later : Faithful emiOrderNum after) (was : piece.block ∈ before.live)
    (remains : piece.block ∈ after.live) : piece.Fits after.top :=
  ⟨by rw [fits.addr, extentOf_kept earlier later was remains], fits.room⟩

/-- The block `emi_alloc` takes has room for the size and the index. -/
theorem orderOf_room {size : BitVec 64} (small : size.toNat + addrBufOffset < 2 ^ 31) :
    size.toNat + addrBufOffset ≤ 2 ^ (buddyShift + orderOf size) := by
  have index : (BitVec.ofNat 64 addrBufOffset).toNat = addrBufOffset := rfl
  have exact : (requested size).toNat = size.toNat + addrBufOffset := by
    rw [requested, BitVec.toNat_add, index]
    exact Nat.mod_eq_of_lt (by omega)
  have room := sizeToOrder_room _ small
  rw [orderOf, exact, Nat.pow_add, Nat.mul_comm]
  exact room

/-- Taking an entry adds a block in use. -/
theorem alloc_sound (sound : Sound machine heap) {size : BitVec 64} {granted : Granted}
    {top : List EmiBuf} (proper : Proper heap (.alloc size))
    (served : serve emiOrderNum heap.arena (.alloc (orderOf size)) =
      some ⟨top, ⟨granted.bufAddr, orderOf size⟩ :: heap.arena.live⟩)
    (addr : granted.addr = blockOffset top ⟨granted.bufAddr, orderOf size⟩ * 2 ^ buddyShift +
      addrBufOffset) :
    Sound machine { heap with
      arena := ⟨top, ⟨granted.bufAddr, orderOf size⟩ :: heap.arena.live⟩
      taken := ⟨BitVec.ofInt 64 granted.addr, size, ⟨granted.bufAddr, orderOf size⟩⟩ ::
        heap.taken } := by
  have later := serve_faithful sound.faithful proper.2 served
  have positive := (later.separated.2 _ List.mem_cons_self).1
  refine ⟨later, sound.held.cons _, ?_, sound.indexed, sound.contents, sound.leaving⟩
  intro piece member
  rcases List.mem_cons.mp member with rfl | old
  · refine ⟨?_, orderOf_room proper.1⟩
    have place : granted.addr = ((blockOffset top ⟨granted.bufAddr, orderOf size⟩).toNat *
        2 ^ buddyShift + addrBufOffset : Nat) := by
      rw [addr]
      push_cast
      rw [Int.toNat_of_nonneg positive]
    change BitVec.ofInt 64 granted.addr = _
    rw [place, BitVec.ofInt_natCast]
    rfl
  · exact (sound.fits piece old).kept sound.faithful later (sound.live old)
      (List.mem_cons_of_mem _ (sound.live old))

/-- Storing the index hands the block to its user. -/
theorem stamp_sound (sound : Sound machine heap) {piece : Piece} {bytes : Address → Byte}
    (stamped : bytes = setBufAddr machine heap.bytes piece.addr (BitVec.ofInt 32 piece.block.buf))
    (member : piece ∈ heap.taken) :
    Sound machine { heap with
      bytes := bytes
      taken := heap.taken.erase piece
      issued := piece :: heap.issued
      contents := Function.update heap.contents piece.addr
        (readBytes bytes piece.addr piece.size.toNat) } := by
  have held := mem_held_taken member
  have unissued : piece ∉ heap.issued := by
    have distinct := (List.nodup_append.mp (List.Nodup.of_map _ sound.nodup)).1
    exact fun issued => (List.nodup_append.mp distinct).2.2 piece member piece issued rfl
  have others (other : Piece) (issued : other ∈ heap.issued) := by
    have place := indexPlace_toNat (sound.laid held held).start
    have low := (sound.laid held held).start
    exact sound.others held issued (fun same => unissued (same ▸ issued)) (indexPlace piece.addr)
      (bytes32 machine (BitVec.ofInt 32 piece.block.buf)) (by omega)
      (by rw [bytes32_length]; simp only [addrBufOffset] at place low; omega)
      (readBytes bytes piece.addr piece.size.toNat)
  rw [setBufAddr] at stamped
  rw [← stamped] at others
  obtain ⟨kept, fits⟩ := sound.rearranged
    { heap with taken := heap.taken.erase piece, issued := piece :: heap.issued } rfl
    ((moved_perm heap.issued member).append_right _)
  refine ⟨sound.faithful, kept, fits, ?_, ?_, sound.leaving⟩
  · refine List.forall_mem_cons.mpr ⟨?_, fun other issued => (others other issued).1⟩
    rw [stamped]
    exact getBufAddr_set machine heap.bytes piece.addr _
  · refine List.forall_mem_cons.mpr ⟨?_, fun other issued => (others other issued).2⟩
    change _ = Function.update heap.contents piece.addr _ piece.addr
    rw [Function.update_self]

/-- A store of a user shows in its own block only. -/
theorem store_sound (sound : Sound machine heap) {piece : Piece} {offset : Nat}
    {bytes : List Byte} (proper : Proper heap (.store piece offset bytes))
    (member : piece ∈ heap.issued) :
    Sound machine { heap with
      bytes := writeBytes heap.bytes (piece.addr + BitVec.ofNat 64 offset) bytes
      contents := Function.update heap.contents piece.addr
        ((heap.contents piece.addr).take offset ++ bytes ++
          (heap.contents piece.addr).drop (offset + bytes.length)) } := by
  have held := mem_held_issued member
  have inside : offset + bytes.length ≤ piece.size.toNat := proper
  obtain ⟨low, finish, _⟩ := sound.laid held held
  have place : (piece.addr + BitVec.ofNat 64 offset).toNat = piece.addr.toNat + offset := by
    rw [BitVec.toNat_add, BitVec.toNat_ofNat]
    omega
  have own : readBytes (writeBytes heap.bytes (piece.addr + BitVec.ofNat 64 offset) bytes)
      piece.addr piece.size.toNat = (heap.contents piece.addr).take offset ++ bytes ++
        (heap.contents piece.addr).drop (offset + bytes.length) := by
    rw [readBytes_spliced _ _ _ _ _ inside (by omega), sound.contents piece member]
  have index : getBufAddr machine
      (writeBytes heap.bytes (piece.addr + BitVec.ofNat 64 offset) bytes) piece.addr =
        BitVec.ofInt 32 piece.block.buf := by
    have front := indexPlace_toNat low
    have untouched : Untouched heap.bytes
        (writeBytes heap.bytes (piece.addr + BitVec.ofNat 64 offset) bytes)
        (indexPlace piece.addr) addrBufOffset := by
      apply writeBytes_untouched
      · omega
      · omega
      · left
        omega
    have head := untouched.read 0 4 (Nat.le_refl 4)
    rw [BitVec.add_zero] at head
    rw [← sound.indexed piece member, getBufAddr, getBufAddr, head]
  have others (other : Piece) (issued : other ∈ heap.issued) (different : other ≠ piece) :=
    sound.others held issued different (piece.addr + BitVec.ofNat 64 offset) bytes (by omega)
      (by omega) ((heap.contents piece.addr).take offset ++ bytes ++
        (heap.contents piece.addr).drop (offset + bytes.length))
  refine ⟨sound.faithful, sound.held, sound.fits, ?_, ?_, sound.leaving⟩
  · intro other issued
    by_cases same : other = piece
    · rw [same]
      exact index
    · exact (others other issued same).1
  · intro other issued
    by_cases same : other = piece
    · rw [same]
      change _ = Function.update heap.contents piece.addr _ piece.addr
      rw [Function.update_self]
      exact own
    · exact (others other issued same).2

/-- `emi_free` reads the index that `emi_alloc` stored. -/
theorem read_sound (sound : Sound machine heap) {piece : Piece} (member : piece ∈ heap.issued) :
    Sound machine { heap with
      issued := heap.issued.erase piece
      leaving := ⟨piece, getBufAddr machine heap.bytes piece.addr⟩ :: heap.leaving } := by
  have perm : (heap.taken ++ heap.issued.erase piece ++
      piece :: heap.leaving.map Leaving.piece).Perm heap.held := by
    rw [Heap.held, List.append_assoc, List.append_assoc]
    exact (moved_perm (heap.leaving.map Leaving.piece) member).append_left heap.taken
  obtain ⟨kept, fits⟩ := sound.rearranged { heap with
    issued := heap.issued.erase piece
    leaving := ⟨piece, getBufAddr machine heap.bytes piece.addr⟩ :: heap.leaving } rfl perm
  exact ⟨sound.faithful, kept, fits,
    fun other issued => sound.indexed other (List.mem_of_mem_erase issued),
    fun other issued => sound.contents other (List.mem_of_mem_erase issued),
    List.forall_mem_cons.mpr ⟨sound.indexed piece member, sound.leaving⟩⟩

/-- `free_emi_buf` frees the block that is in this `emi_free`. -/
theorem Sound.freed (sound : Sound machine heap) {leaving : Leaving}
    (member : leaving ∈ heap.leaving) :
    ∃ top, freeEmiBuf heap.arena.top leaving.buf = some (leaving.piece.block, top) ∧
      serve emiOrderNum heap.arena (.free leaving.piece.block) =
        some ⟨top, heap.arena.live.erase leaving.piece.block⟩ := by
  rw [sound.leaving leaving member]
  exact freeEmiBuf_serve sound.faithful (sound.live (mem_held_leaving member))

/-- Freeing takes the block away from those in use. -/
theorem free_sound (sound : Sound machine heap) {leaving : Leaving} {block : Block}
    {top : List EmiBuf} (proper : Proper heap (.free leaving)) (member : leaving ∈ heap.leaving)
    (freed : freeEmiBuf heap.arena.top leaving.buf = some (block, top)) :
    Sound machine { heap with
      arena := ⟨top, heap.arena.live.erase block⟩
      leaving := heap.leaving.erase leaving } := by
  obtain ⟨expected, answered, served⟩ := sound.freed member
  obtain ⟨rfl, rfl⟩ := Prod.mk.inj (Option.some.inj (answered.symm.trans freed))
  have later := serve_faithful sound.faithful (proper _ freed) served
  have split : (leaving.piece :: (heap.taken ++ heap.issued ++
      (heap.leaving.erase leaving).map Leaving.piece)).Perm heap.held := by
    refine List.perm_middle.symm.trans ?_
    exact ((List.perm_cons_erase member).map Leaving.piece).symm.append_left _
  obtain ⟨_, kept⟩ := List.cons_perm_iff_perm_erase.mp ((split.map Piece.block).trans sound.held)
  refine ⟨later, kept, ?_, sound.indexed, sound.contents,
    fun other others => sound.leaving other (List.mem_of_mem_erase others)⟩
  intro piece remains
  have held : piece ∈ heap.held := split.mem_iff.mp (List.mem_cons_of_mem _ remains)
  exact (sound.fits piece held).kept sound.faithful later (sound.live held)
    (kept.mem_iff.mp (List.mem_map_of_mem remains))

/-- Every proper use keeps the invariant. -/
theorem perform_sound {after : Heap} {use : Use} (sound : Sound machine heap)
    (proper : Proper heap use) (performed : perform machine heap use = some after) :
    Sound machine after := by
  cases perform_moves performed with
  | refused _ => exact sound
  | alloc size granted top served addr => exact alloc_sound sound proper served addr
  | stamp piece bytes stamped member => exact stamp_sound sound stamped member
  | store piece offset bytes member => exact store_sound sound proper member
  | read piece member => exact read_sound sound member
  | free leaving block top member freed => exact free_sound sound proper member freed

/-- A proper use leaves the arena, or is a clean request of the buddy tree. -/
theorem perform_serves {after : Heap} {use : Use} (sound : Sound machine heap)
    (proper : Proper heap use) (performed : perform machine heap use = some after) :
    after.arena = heap.arena ∨ ∃ request, CleanRequest emiOrderNum heap.arena request ∧
      serve emiOrderNum heap.arena request = some after.arena := by
  cases perform_moves performed with
  | refused _ | stamp _ _ _ _ | store _ _ _ _ | read _ _ => exact Or.inl rfl
  | alloc size granted top served _ => exact Or.inr ⟨_, proper.2, served⟩
  | free leaving block top member freed =>
    obtain ⟨expected, answered, served⟩ := sound.freed member
    obtain ⟨rfl, rfl⟩ := Prod.mk.inj (Option.some.inj (answered.symm.trans freed))
    exact Or.inr ⟨_, proper _ freed, served⟩

/-- An arena just initialized, in which no block is in use. -/
theorem initial_sound (starts : (heaps machine).start heap) : Sound machine heap := by
  obtain ⟨arena, none⟩ := starts
  obtain ⟨upper, leaving⟩ := List.append_eq_nil_iff.mp none
  obtain ⟨_, issued⟩ := List.append_eq_nil_iff.mp upper
  have empty : heap.leaving = [] := List.map_eq_nil_iff.mp leaving
  have unused (piece : Piece) : piece ∉ heap.issued := by
    rw [issued]
    exact List.not_mem_nil
  refine ⟨initial_faithful arena, ?_, ?_, fun piece member => absurd member (unused piece),
    fun piece member => absurd member (unused piece), ?_⟩
  · rw [none, arena.1]
    exact List.Perm.nil
  · rw [none]
    exact fun _ member => absurd member List.not_mem_nil
  · rw [empty]
    exact fun _ member => absurd member List.not_mem_nil

/-- Every state of a proper run is sound. -/
theorem reached_sound (reached : (heaps machine).ReachedUnder Proper heap) : Sound machine heap :=
  reached.invariant (fun _ starts => initial_sound starts)
    fun _ _ _ sound proper performed => perform_sound sound proper performed

/-- The arena of a proper run is one of a clean run of the buddy tree. -/
theorem reached_tree (reached : (heaps machine).ReachedUnder Proper heap) :
    (allocator emiOrderNum).ReachedUnder (CleanRequest emiOrderNum) heap.arena := by
  induction reached with
  | initial heap starts => exact .initial heap.arena starts.1
  | next before after use reached proper performed inductionHypothesis =>
    rcases perform_serves (reached_sound reached) proper performed with same | served
    · rw [same]
      exact inductionHypothesis
    · obtain ⟨request, clean, served⟩ := served
      exact .next _ _ request inductionHypothesis clean served

end Invariant

/-- In every state of every run of clean requests for sizes as above, whose users stay
inside their sizes, the blocks in use are the live blocks of a clean run of the buddy
tree, and every `emi_free` frees the entry, with the order, that `emi_alloc` took for its
block. -/
theorem freed_as_allocated (machine : ByteOrder) (heap : Heap)
    (reached : (heaps machine).ReachedUnder Proper heap) :
    (allocator emiOrderNum).ReachedUnder (CleanRequest emiOrderNum) heap.arena ∧
      (heap.held.map Piece.block).Perm heap.arena.live ∧
      ∀ leaving ∈ heap.leaving, ∃ top,
        freeEmiBuf heap.arena.top leaving.buf = some (leaving.piece.block, top) := by
  have sound := reached_sound reached
  refine ⟨reached_tree reached, sound.held, fun leaving member => ?_⟩
  obtain ⟨top, freed, _⟩ := sound.freed member
  exact ⟨top, freed⟩

/-- In every state of every such run each block holds what its user found in it and
stored there since, whatever else was allocated, freed and stored in between. -/
theorem contents_kept (machine : ByteOrder) (heap : Heap)
    (reached : (heaps machine).ReachedUnder Proper heap) (piece : Piece)
    (issued : piece ∈ heap.issued) :
    readBytes heap.bytes piece.addr piece.size.toNat = heap.contents piece.addr :=
  (reached_sound reached).contents piece issued

/-- A size that takes the whole arena. -/
def wholeSize : BitVec 64 := BitVec.ofNat 64 (2 ^ 24 - 4)

/-- A run whose only block takes the whole arena, and holds three bytes of its user. -/
theorem whole_issued : ∃ heap piece, (heaps .little).ReachedUnder Proper heap ∧
    heap.issued = [piece] ∧ (heap.contents piece.addr).take 3 = [1, 2, 3] := by
  have sized : Sized emiOrderNum (List.replicate (2 ^ (emiOrderNum + 1) - 1) ⟨0, 0⟩) :=
    List.length_replicate
  obtain ⟨top, completed, topSized, entries⟩ := initEmiBuf_exact emiOrderNum _ sized
  have whole : orders top 1 = emiOrderNum :=
    congrArg EmiBuf.order (entries (root emiOrderNum) (within_refl _))
  have order : orderOf wholeSize = emiOrderNum := by decide
  have promised : ¬ TurnedDown top wholeSize := by
    rintro (zero | small)
    · exact absurd zero (by decide)
    · rw [whole] at small
      exact absurd small (by decide)
  obtain ⟨granted, updated, _, answered, _⟩ := emiAlloc_granted topSized (by decide) promised
  let piece : Piece := ⟨BitVec.ofInt 64 granted.addr, wholeSize,
    ⟨granted.bufAddr, orderOf wholeSize⟩⟩
  let start : Heap := ⟨⟨top, []⟩, fun _ => 0, [], [], [], fun _ => []⟩
  let taken : Heap := { start with arena := ⟨updated, [piece.block]⟩, taken := [piece] }
  let bytes := setBufAddr .little taken.bytes piece.addr (BitVec.ofInt 32 piece.block.buf)
  let found := readBytes bytes piece.addr piece.size.toNat
  let stamped : Heap := { taken with
    bytes := bytes
    taken := taken.taken.erase piece
    issued := [piece]
    contents := Function.update taken.contents piece.addr found }
  let stored : Heap := { stamped with
    bytes := writeBytes bytes (piece.addr + BitVec.ofNat 64 0) [1, 2, 3]
    contents := Function.update stamped.contents piece.addr
      ((stamped.contents piece.addr).take 0 ++ [1, 2, 3] ++
        (stamped.contents piece.addr).drop (0 + 3)) }
  have proper : Proper start (.alloc wholeSize) := by
    refine ⟨by decide, ?_⟩
    rw [order]
    exact fun _ _ _ _ _ _ => True.intro
  have inside : Proper stamped (.store piece 0 [1, 2, 3]) :=
    (by decide : 0 + [(1 : Byte), 2, 3].length ≤ wholeSize.toNat)
  have allocating : perform .little start (.alloc wholeSize) = some taken := by
    rw [perform, answered]
    rfl
  have stamping : perform .little taken (.stamp piece) = some stamped := if_pos List.mem_cons_self
  have storing : perform .little stamped (.store piece 0 [1, 2, 3]) = some stored :=
    if_pos List.mem_cons_self
  have started : (heaps .little).ReachedUnder Proper start :=
    .initial start ⟨⟨rfl, _, sized, completed⟩, rfl⟩
  have first := started.next _ taken (Use.alloc wholeSize) proper allocating
  have second := first.next _ stamped (Use.stamp piece) True.intro stamping
  exact ⟨stored, piece, second.next _ stored _ inside storing, rfl, by simp [stored]⟩

/-- The three bytes are in memory. -/
theorem whole_contents_kept : ∃ heap, ∃ piece : Piece, (heaps .little).ReachedUnder Proper heap ∧
    (readBytes heap.bytes piece.addr piece.size.toNat).take 3 = [1, 2, 3] := by
  obtain ⟨heap, piece, reached, issued, contents⟩ := whole_issued
  refine ⟨heap, piece, reached, ?_⟩
  rw [contents_kept .little heap reached piece (issued ▸ List.mem_cons_self)]
  exact contents

/-- The user gives the block back. -/
theorem whole_block_freed : ∃ heap leaving, (heaps .little).ReachedUnder Proper heap ∧
    leaving ∈ heap.leaving ∧
    ∃ top, freeEmiBuf heap.arena.top leaving.buf = some (leaving.piece.block, top) := by
  obtain ⟨heap, piece, reached, issued, _⟩ := whole_issued
  let after : Heap := { heap with
    issued := heap.issued.erase piece
    leaving := ⟨piece, getBufAddr .little heap.bytes piece.addr⟩ :: heap.leaving }
  have reading : perform .little heap (.read piece) = some after :=
    if_pos (issued ▸ List.mem_cons_self)
  have given := reached.next _ after (Use.read piece) True.intro reading
  exact ⟨_, _, given, List.mem_cons_self,
    (freed_as_allocated .little _ given).2.2 _ List.mem_cons_self⟩

end Emilib.BlockIndices
