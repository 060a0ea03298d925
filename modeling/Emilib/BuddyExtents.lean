import Emilib.BuddyOwnership
import Emilib.SharedBlocks

/-!
# The buddy tree behind the shared arena

The arena of the message functions is described by its live blocks alone: a
correct allocator hands out any available block, or none, and takes back the
block at an address. That description is a system of its own here. The functions
`emi_alloc` and `emi_free` take its steps, and so does the buddy tree, along every
run of clean requests: its offsets and orders describe live blocks that are
aligned, inside the arena and apart from each other.
-/

namespace Emilib.BuddyExtents

open BuddyTree Messages SharedBlocks

/-- What a correct allocator does for one call. -/
inductive Outcome where
  | granted (extent : Extent)
  | refused
  | returned (extent : Extent)

/-- A correct allocator from an empty arena. -/
def correctAllocator : System Live Outcome where
  start live := live.extents = []
  step before outcome after :=
    match outcome with
    | .granted extent => ∃ available : extent.Available before.extents,
        after = before.insert extent available
    | .refused => after = before
    | .returned extent => extent ∈ before.extents ∧ after = before.remove extent.address

/-- The range of a block, as its entry records it. -/
def extentOf (top : List EmiBuf) (block : Block) : Extent :=
  ⟨(blockOffset top block).toNat, block.order⟩

/-- The live blocks of the buddy tree. -/
def extents (arena : Arena) : List Extent := arena.live.map (extentOf arena.top)

/-- A block of a faithful state starts at a multiple of its size. -/
theorem extentOf_aligned {arena : Arena} (faithful : Faithful emiOrderNum arena) {block : Block}
    (member : block ∈ arena.live) :
    (extentOf arena.top block).blkOffset % 2 ^ (extentOf arena.top block).order = 0 := by
  have offset := faithful.blockOffset member
  simp only [initialEntry] at offset
  have place : (extentOf arena.top block).blkOffset =
      (block.node.code - 2 ^ (emiOrderNum - block.node.height)) * 2 ^ block.order := by
    simp only [extentOf]
    rw [offset]
    have height : block.node.height = block.order := rfl
    rw [height]
    exact_mod_cast Int.toNat_natCast _
  rw [place]
  exact Nat.mul_mod_left _ _

/-- The live blocks of a faithful state lie in the arena and are pairwise apart. -/
theorem extents_tiled {arena : Arena} (faithful : Faithful emiOrderNum arena) :
    Tiled (extents arena) := by
  obtain ⟨separated, inside⟩ := faithful.separated
  have cast (order : Nat) : ((2 ^ order : Nat) : Int) = 2 ^ order := Nat.cast_pow 2 order
  constructor
  · refine List.pairwise_map.mpr (separated.imp_of_mem ?_)
    intro first second firstMember secondMember apart
    have firstStart := (inside first firstMember).1
    have secondStart := (inside second secondMember).1
    have firstSize := cast first.order
    have secondSize := cast second.order
    rcases apart with before | after
    · left
      simp only [extentOf]
      omega
    · right
      simp only [extentOf]
      omega
  · intro extent member
    obtain ⟨block, live, rfl⟩ := List.mem_map.mp member
    obtain ⟨start, finish⟩ := inside block live
    have size := cast block.order
    have whole := cast emiOrderNum
    simp only [extentOf]
    omega

/-- The allocator of the arena whose live blocks are those of the buddy tree. -/
def liveOf (arena : Arena) (faithful : Faithful emiOrderNum arena) : Live :=
  ⟨extents arena, extents_tiled faithful⟩

theorem live_eq {left right : Live} (same : left.extents = right.extents) : left = right := by
  cases left
  cases right
  cases same
  rfl

/-- The range of a block does not change while it is live. -/
theorem extentOf_kept {before after : Arena} (earlier : Faithful emiOrderNum before)
    (later : Faithful emiOrderNum after) {block : Block} (was : block ∈ before.live)
    (remains : block ∈ after.live) : extentOf after.top block = extentOf before.top block := by
  rw [extentOf, extentOf, earlier.blockOffset was, later.blockOffset remains]

/-- Among blocks at distinct addresses, erasing by address is erasing the block. -/
theorem erase_at {α : Type} [DecidableEq α] (address : α → Address) {blocks : List α}
    (distinct : (blocks.map address).Nodup) {block : α} (member : block ∈ blocks) :
    blocks.eraseP (fun other => address other = address block) = blocks.erase block := by
  induction blocks with
  | nil => rfl
  | cons head rest inductionHypothesis =>
    obtain ⟨fresh, distinctRest⟩ := List.nodup_cons.mp distinct
    rcases eq_or_ne head block with rfl | different
    · simp
    · have rested : block ∈ rest := (List.mem_cons.mp member).resolve_left different.symm
      have elsewhere : address head ≠ address block := fun same =>
        fresh (same ▸ List.mem_map_of_mem rested)
      rw [List.eraseP_cons_of_neg (by simpa using elsewhere),
        List.erase_cons_tail (by simpa using different), inductionHypothesis distinctRest rested]

/-- A clean request of the buddy tree is a step of a correct allocator. -/
theorem serve_refines {before after : Arena} {request : Request}
    (earlier : Faithful emiOrderNum before) (later : Faithful emiOrderNum after)
    (taken : serve emiOrderNum before request = some after) :
    ∃ outcome, correctAllocator.step (liveOf before earlier) outcome (liveOf after later) := by
  have kept (block : Block) (was : block ∈ before.live) (remains : block ∈ after.live) :=
    extentOf_kept earlier later was remains
  cases request with
  | alloc order =>
    rcases serve_alloc_cases taken with same | ⟨buf, grown⟩
    · refine ⟨.refused, live_eq ?_⟩
      change after.live.map _ = before.live.map _
      rw [same]
      exact List.map_congr_left fun block member => kept block member (same ▸ member)
    · have others : before.live.map (extentOf after.top) = extents before :=
        List.map_congr_left fun block member =>
          kept block member (grown ▸ List.mem_cons_of_mem _ member)
      have listed : extents after = extentOf after.top ⟨buf, order⟩ :: extents before := by
        rw [extents, grown, List.map_cons, others]
      have tiled := extents_tiled later
      rw [listed] at tiled
      have granted : (⟨buf, order⟩ : Block) ∈ after.live := grown ▸ List.mem_cons_self
      refine ⟨.granted (extentOf after.top ⟨buf, order⟩), ⟨extentOf_aligned later granted,
        tiled.2 _ List.mem_cons_self, (List.pairwise_cons.mp tiled.1).1⟩, live_eq listed⟩
  | free block =>
    obtain ⟨live, erased⟩ := serve_free_cases taken
    refine ⟨.returned (extentOf before.top block), List.mem_map_of_mem live, live_eq ?_⟩
    have distinct := (liveOf before earlier).nodup
    change ((before.live.map (extentOf before.top)).map Extent.address).Nodup at distinct
    rw [List.map_map] at distinct
    have removed := erase_at (Extent.address ∘ extentOf before.top) distinct live
    calc extents after
        = (before.live.erase block).map (extentOf after.top) := by rw [extents, erased]
      _ = (before.live.erase block).map (extentOf before.top) :=
          List.map_congr_left fun other member =>
            kept other (List.mem_of_mem_erase member) (erased ▸ member)
      _ = (before.live.map (extentOf before.top)).eraseP
            (fun extent => extent.address = (extentOf before.top block).address) := by
          rw [← removed, List.eraseP_map]
          rfl

/-- Along every run of clean requests the buddy tree is a correct allocator. -/
theorem clean_runs_refine {arena : Arena}
    (reached : (allocator emiOrderNum).ReachedUnder (CleanRequest emiOrderNum) arena) :
    correctAllocator.Reached (liveOf arena (clean_reached_faithful reached)) := by
  induction reached with
  | initial arena starts =>
    refine .initial _ ?_
    change arena.live.map _ = []
    rw [starts.1]
    rfl
  | next before after request reached clean taken inductionHypothesis =>
    obtain ⟨outcome, step⟩ := serve_refines (clean_reached_faithful reached)
      (clean_reached_faithful (.next before after request reached clean taken)) taken
    exact inductionHypothesis.next step

/-- `emi_alloc` takes a step of a correct allocator. -/
theorem emiAlloc_steps (shm : Shm) (size : Nat) :
    ∃ outcome, correctAllocator.step shm.live outcome (emiAlloc shm size).2.live := by
  rcases emiAlloc_cases shm size with ⟨offers, refused⟩ | ⟨extent, available, offers, _, granted⟩
  · exact ⟨.refused, by rw [refused]; rfl⟩
  · exact ⟨.granted extent, available, by rw [granted]; rfl⟩

/-- `emi_free` of the address of a live block takes a step of a correct allocator. -/
theorem emiFree_steps {shm : Shm} {extent : Extent} (live : extent ∈ shm.live.extents) :
    correctAllocator.step shm.live (.returned extent) (emiFree shm extent.address).live :=
  ⟨live, rfl⟩

end Emilib.BuddyExtents
