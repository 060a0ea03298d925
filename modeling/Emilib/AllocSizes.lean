import Emilib.BuddyRecovery
import Emilib.SharedBlocks

/-!
# The block `emi_alloc` chooses for a size

Here `emi_alloc` runs on the buddy tree itself, with the size it is given as a
64-bit `size_t`. Adding the index in front of a block wraps around at 64 bits, and
`alloc_emi_buf` passes the sum on to `size_to_order` as an `int`, which keeps its
low 32 bits only.

A size is served well when the answer is NULL or an entry of the least order that
has room for the size and the index, and is NULL for a size beyond the arena. The
arrays are those of any allocator run, and any others of the same length.
-/

namespace Emilib.AllocSizes

open BuddyTree Node SharedBlocks

/-- What `emi_alloc` returns when it does not return NULL: the address relative to
the base of the arena, and the index it stores in front of that address. -/
structure Granted where
  addr : Int
  bufAddr : Int
deriving DecidableEq, Repr

/-- `alloc_emi_buf`. -/
def allocEmiBuf (top : List EmiBuf) (size : BitVec 64) : Option (Option Int × List EmiBuf) :=
  if size = 0 then some (none, top)
  else BuddyTree.allocEmiBuf top (sizeToOrder (toInt size.toNat)) emiOrderNum

/-- `emi_alloc`: the answer, or NULL, and the array. The outer option is an access
outside the array. -/
def emiAlloc (top : List EmiBuf) (size : BitVec 64) :
    Option (Option Granted × List EmiBuf) :=
  if size > 0 then do
    match ← allocEmiBuf top (size + BitVec.ofNat 64 addrBufOffset) with
    | (none, top) => return (none, top)
    | (some buf, top) =>
        let chosen ← load top buf
        return (some ⟨chosen.blkOffset * 2 ^ buddyShift + addrBufOffset, buf⟩, top)
  else some (none, top)

/-- A block of this order has room for the size and the index in front of it. -/
def HasRoom (size : BitVec 64) (order : Nat) : Prop :=
  size.toNat + addrBufOffset ≤ 2 ^ (buddyShift + order)

instance (size : BitVec 64) (order : Nat) : Decidable (HasRoom size order) :=
  inferInstanceAs (Decidable (_ ≤ _))

/-- The answer is NULL or an entry of the least order with room for the size, and
a size beyond the arena is answered by NULL. -/
def ServedWell (top : List EmiBuf) (size : BitVec 64) : Prop :=
  ∃ answer updated, emiAlloc top size = some (answer, updated) ∧
    (∀ granted ∈ answer, ∃ node, Within node (root emiOrderNum) ∧
      granted.bufAddr = pointer node.code ∧ HasRoom size node.height ∧
      ∀ order, HasRoom size order → node.height ≤ order) ∧
    (2 ^ (buddyShift + emiOrderNum) < size.toNat → answer = none)

/-- The size that `alloc_emi_buf` is given. -/
def requested (size : BitVec 64) : BitVec 64 := size + BitVec.ofNat 64 addrBufOffset

/-- `emi_alloc` finds nothing for the size: the sum is zero, or the root promises
less than the order computed from the sum. -/
def TurnedDown (top : List EmiBuf) (size : BitVec 64) : Prop :=
  requested size = 0 ∨ orders top 1 < sizeToOrder (toInt (requested size).toNat)

instance (top : List EmiBuf) (size : BitVec 64) : Decidable (TurnedDown top size) :=
  inferInstanceAs (Decidable (_ ∨ _))

section Answers

variable {top : List EmiBuf} {size : BitVec 64}

/-- The tree answers a request of any order the root promises. An order beyond the
tree's own is answered by the root. -/
theorem allocEmiBuf_granted (order : Nat) (sized : Sized emiOrderNum top)
    (enough : order ≤ orders top 1) :
    ∃ node updated, BuddyTree.allocEmiBuf top order emiOrderNum =
        some (some (pointer node.code), updated) ∧ Sized emiOrderNum updated ∧
      Within node (root emiOrderNum) ∧ (order ≤ emiOrderNum → node.height = order) := by
  by_cases low : order ≤ emiOrderNum
  · obtain ⟨found, chosen, foundIn, rfl⟩ := getEmiBuf_node sized low enough
    obtain ⟨updated, completed, updatedSized, _⟩ :=
      marked_kept (flipOrder found.height) sized foundIn
    obtain ⟨marked, marking, walked⟩ := Option.bind_eq_some_iff.mp completed
    exact ⟨found, updated, by simp [BuddyTree.allocEmiBuf, chosen, marking, walked],
      updatedSized, foundIn, fun _ => rfl⟩
  · have rootIn := within_refl (root emiOrderNum)
    obtain ⟨positive, inside⟩ := node_stored sized rootIn
    have loaded : load top 0 = some (entry top 1) := load_pointer positive inside
    have test : ¬ (entry top 1).order < order := Int.not_lt.mpr enough
    have stays : descend top order (emiOrderNum + 1) 0 = some 0 := by
      rw [descend, if_neg (by omega)]
    have chosen : getEmiBuf top order emiOrderNum = some (some 0) := by
      simp [getEmiBuf, loaded, test, stays]
    have marking : setOrder top 0 (flipOrder order) = some (assign top 1 (flipOrder order)) :=
      setOrder_pointer (flipOrder order) positive inside
    have none : emiOrderNum - order = 0 := by omega
    refine ⟨root emiOrderNum, assign top 1 (flipOrder order), ?_,
      sized_assign 1 _ sized, rootIn, fun fits => absurd fits low⟩
    simp [BuddyTree.allocEmiBuf, chosen, marking, updateBufOrder, none, updateLoop, pointer, root]

/-- A request that is turned down, or asks for nothing, is answered by NULL. -/
theorem emiAlloc_refused (sized : Sized emiOrderNum top)
    (refused : size = 0 ∨ TurnedDown top size) : emiAlloc top size = some (none, top) := by
  by_cases positive : size > 0
  · have down : TurnedDown top size := by
      rcases refused with rfl | down
      · exact absurd positive (by decide)
      · exact down
    have answered : allocEmiBuf top (requested size) = some (none, top) := by
      rcases down with zero | small
      · rw [allocEmiBuf, if_pos zero]
      · by_cases zero : requested size = 0
        · rw [allocEmiBuf, if_pos zero]
        · rw [allocEmiBuf, if_neg zero]
          simp [BuddyTree.allocEmiBuf, getEmiBuf_refused sized small]
    rw [requested] at answered
    rw [emiAlloc, if_pos positive, answered]
    rfl
  · rw [emiAlloc, if_neg positive]

/-- Any other request is answered by an entry of the tree. -/
theorem emiAlloc_granted (sized : Sized emiOrderNum top) (positive : size > 0)
    (taken : ¬ TurnedDown top size) :
    ∃ granted updated node, emiAlloc top size = some (some granted, updated) ∧
      Within node (root emiOrderNum) ∧ granted.bufAddr = pointer node.code ∧
      (sizeToOrder (toInt (requested size).toNat) ≤ emiOrderNum →
        node.height = sizeToOrder (toInt (requested size).toNat)) := by
  obtain ⟨nonzero, promised⟩ := not_or.mp taken
  obtain ⟨node, updated, answered, updatedSized, nodeIn, height⟩ :=
    allocEmiBuf_granted _ sized (Int.not_lt.mp promised)
  obtain ⟨counted, inside⟩ := node_stored updatedSized nodeIn
  have loaded := load_pointer counted inside
  have served : allocEmiBuf top (requested size) = some (some (pointer node.code), updated) := by
    rw [allocEmiBuf, if_neg nonzero]
    exact answered
  rw [requested] at served
  refine ⟨⟨(entry updated node.code).blkOffset * 2 ^ buddyShift + addrBufOffset,
    pointer node.code⟩, updated, node, ?_, nodeIn, rfl, height⟩
  rw [emiAlloc, if_pos positive, served]
  simp [loaded]

/-- Below the wrap of 64 bits, the request is the size and the index. -/
theorem requested_exact (fits : HasRoom size emiOrderNum) :
    (requested size).toNat = size.toNat + addrBufOffset := by
  simp only [HasRoom, buddyShift, emiOrderNum] at fits
  have index : (BitVec.ofNat 64 addrBufOffset).toNat = addrBufOffset := rfl
  rw [requested, BitVec.toNat_add, index]
  apply Nat.mod_eq_of_lt
  simp only [addrBufOffset] at fits ⊢
  omega

/-- A size the arena has room for is given the least order with room for it. -/
theorem order_least (fits : HasRoom size emiOrderNum) :
    HasRoom size (sizeToOrder (toInt (requested size).toNat)) ∧
      ∀ order, HasRoom size order → sizeToOrder (toInt (requested size).toNat) ≤ order := by
  have exact := requested_exact fits
  have small : size.toNat + addrBufOffset < 2 ^ 31 := by
    simp only [HasRoom, buddyShift, emiOrderNum] at fits
    omega
  rw [exact]
  constructor
  · rw [HasRoom, Nat.add_comm buddyShift, Nat.pow_add]
    exact sizeToOrder_room _ small
  · intro order room
    rw [HasRoom, Nat.add_comm buddyShift, Nat.pow_add] at room
    exact sizeToOrder_least _ order small room

/-- On any array of the tree's length, a size is served well exactly when the arena
has room for it or the request is turned down. -/
theorem served_well_iff (sized : Sized emiOrderNum top) :
    ServedWell top size ↔ HasRoom size emiOrderNum ∨ TurnedDown top size := by
  constructor
  · rintro ⟨answer, updated, answered, chosen, beyond⟩
    by_cases refused : size = 0 ∨ TurnedDown top size
    · rcases refused with rfl | down
      · exact Or.inl (by decide)
      · exact Or.inr down
    · obtain ⟨nonzero, taken⟩ := not_or.mp refused
      have positive : size > 0 := (BitVec.pos_iff_ne_zero size).mpr nonzero
      obtain ⟨granted, array, _, served, _⟩ := emiAlloc_granted sized positive taken
      obtain ⟨rfl, rfl⟩ := Prod.mk.inj (Option.some.inj (served.symm.trans answered))
      obtain ⟨node, nodeIn, _, room, _⟩ := chosen granted rfl
      have low : buddyShift + node.height ≤ buddyShift + emiOrderNum :=
        Nat.add_le_add_left nodeIn.1 buddyShift
      exact Or.inl (room.trans (Nat.pow_le_pow_right (by decide) low))
  · intro condition
    by_cases refused : size = 0 ∨ TurnedDown top size
    · exact ⟨none, top, emiAlloc_refused sized refused,
        fun granted answered => (Option.not_mem_none granted answered).elim, fun _ => rfl⟩
    · obtain ⟨nonzero, taken⟩ := not_or.mp refused
      have positive : size > 0 := (BitVec.pos_iff_ne_zero size).mpr nonzero
      have fits := condition.resolve_right taken
      obtain ⟨room, least⟩ := order_least fits
      obtain ⟨granted, updated, node, served, nodeIn, address, height⟩ :=
        emiAlloc_granted sized positive taken
      have chosen := height (least emiOrderNum fits)
      refine ⟨some granted, updated, served, ?_, ?_⟩
      · intro other same
        obtain rfl := Option.some.inj same
        rw [← chosen] at room least
        exact ⟨node, nodeIn, address, room, least⟩
      · intro beyond
        simp only [HasRoom] at fits
        omega

end Answers

/-- Assigning an order field keeps the length of the array. -/
theorem setOrder_length {top updated : List EmiBuf} {buf order : Int}
    (assigned : setOrder top buf order = some updated) : updated.length = top.length := by
  obtain ⟨current, _, stored⟩ := Option.bind_eq_some_iff.mp assigned
  obtain ⟨_, same⟩ := Option.ite_none_right_eq_some.mp stored
  obtain rfl := Option.some.inj same
  exact List.length_set

/-- So does one iteration of `update_buf_order`. -/
theorem updateParent_length {top updated : List EmiBuf} {buf next : Int} {order : Nat}
    (merged : updateParent top buf order = some (updated, next)) :
    updated.length = top.length := by
  obtain ⟨_, _, merged⟩ := Option.bind_eq_some_iff.mp merged
  obtain ⟨_, _, merged⟩ := Option.bind_eq_some_iff.mp merged
  obtain ⟨_, _, merged⟩ := Option.bind_eq_some_iff.mp merged
  obtain ⟨_, assigned, same⟩ := Option.bind_eq_some_iff.mp merged
  obtain ⟨rfl, _⟩ := Prod.mk.inj (Option.some.inj same)
  exact setOrder_length assigned

/-- So does its loop. -/
theorem updateLoop_length (remaining : Nat) {top updated : List EmiBuf} {buf : Int} {order : Nat}
    (walked : updateLoop remaining top buf order = some updated) :
    updated.length = top.length := by
  induction remaining generalizing top buf order with
  | zero =>
    obtain rfl := Option.some.inj walked
    rfl
  | succ remaining inductionHypothesis =>
    obtain ⟨⟨middle, next⟩, merged, rest⟩ := Option.bind_eq_some_iff.mp walked
    exact (inductionHypothesis rest).trans (updateParent_length merged)

/-- Every request keeps the length of the array. -/
theorem serve_length {maxOrder : Nat} {before after : Arena} {request : Request}
    (taken : serve maxOrder before request = some after) :
    after.top.length = before.top.length := by
  cases request with
  | alloc order =>
    obtain ⟨⟨answer, top⟩, chosen, answered⟩ := Option.bind_eq_some_iff.mp taken
    have kept : top.length = before.top.length := by
      obtain ⟨found, _, marked⟩ := Option.bind_eq_some_iff.mp chosen
      cases found with
      | none =>
        obtain ⟨_, rfl⟩ := Prod.mk.inj (Option.some.inj marked)
        rfl
      | some buf =>
        obtain ⟨middle, marking, rest⟩ := Option.bind_eq_some_iff.mp marked
        obtain ⟨updated, walked, same⟩ := Option.bind_eq_some_iff.mp rest
        obtain ⟨_, rfl⟩ := Prod.mk.inj (Option.some.inj same)
        exact (updateLoop_length _ walked).trans (setOrder_length marking)
    cases answer with
    | none =>
      obtain rfl := Option.some.inj answered
      exact kept
    | some buf =>
      obtain rfl := Option.some.inj answered
      exact kept
  | free block =>
    obtain ⟨_, freed⟩ := Option.ite_none_right_eq_some.mp taken
    obtain ⟨top, marked, same⟩ := Option.bind_eq_some_iff.mp freed
    obtain rfl := Option.some.inj same
    obtain ⟨middle, marking, walked⟩ := Option.bind_eq_some_iff.mp marked
    exact (updateLoop_length _ walked).trans (setOrder_length marking)

/-- The array has the length of the tree in every state of every allocator run. -/
theorem reached_sized {maxOrder : Nat} {arena : Arena}
    (reached : (allocator maxOrder).Reached arena) : Sized maxOrder arena.top := by
  apply reached.invariant (fun arena starts => (initial_faithful starts).sized)
  intro before request after sized _ taken
  exact (serve_length taken).trans sized

/-- In every state of every allocator run, `emi_alloc` serves a size well exactly
when the arena has room for the size and the index, or the request is turned down. -/
theorem reached_served_well_iff {arena : Arena}
    (reached : (allocator emiOrderNum).Reached arena) (size : BitVec 64) :
    ServedWell arena.top size ↔ HasRoom size emiOrderNum ∨ TurnedDown arena.top size :=
  served_well_iff (reached_sized reached)

/-- An arena fresh from initialization, whose root promises the whole of it. -/
theorem fresh_arena : ∃ arena, (allocator emiOrderNum).Reached arena ∧
    orders arena.top 1 = emiOrderNum := by
  have sized : Sized emiOrderNum (List.replicate (2 ^ (emiOrderNum + 1) - 1) ⟨0, 0⟩) :=
    List.length_replicate
  obtain ⟨top, completed, _, entries⟩ := initEmiBuf_exact emiOrderNum _ sized
  refine ⟨⟨top, []⟩, .initial _ ⟨rfl, _, sized, completed⟩, ?_⟩
  have first := entries (root emiOrderNum) (within_refl _)
  exact congrArg EmiBuf.order first

/-- On a fresh arena a size of 100 bytes is served well. -/
theorem fresh_arena_serves : ∃ arena, (allocator emiOrderNum).Reached arena ∧
    ServedWell arena.top 100 := by
  obtain ⟨arena, reached, _⟩ := fresh_arena
  exact ⟨arena, reached, (reached_served_well_iff reached 100).mpr (Or.inl (by decide))⟩

/-- On a fresh arena a size of `2 ^ 32` bytes is answered with a smallest block. -/
theorem oversized_request_granted : ¬ ∀ arena, (allocator emiOrderNum).Reached arena →
    ∀ size, ServedWell arena.top size := by
  intro always
  obtain ⟨arena, reached, whole⟩ := fresh_arena
  rcases (served_well_iff (reached_sized reached)).mp (always arena reached (2 ^ 32)) with
    fits | zero | small
  · exact absurd fits (by decide)
  · exact absurd zero (by decide)
  · rw [whole] at small
    exact absurd small (by decide)

end Emilib.AllocSizes
