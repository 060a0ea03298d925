import Emilib.BuddyPromises

/-!
# No free block is hidden, and everything freed is restored

Runs of the allocator along which the live blocks stay disjoint, whether or not the
walks of their requests were clean. Every state they reach is ample: each request
marks a node that meets no other live block, and walks up from it.

Two things follow. A free aligned block is promised by every node above it, so the
root admits a request of its order. And when no block is live, every field is the
height of its node, as after initialization.
-/

namespace Emilib.BuddyTree

open Node

section Marks

variable {maxOrder : Nat} {top : List EmiBuf} {taken remaining : List Node} {start : Node}

/-- Above a node that lies apart from a block, nothing is inside that block. -/
theorem Apart.above {block other : Node} (apart : Apart start block) (above : Within start other) :
    ¬ Within other block :=
  fun contained => apart.1 (within_trans above contained)

/-- Marking a node leaves what the nodes strictly above it promise of their other half. -/
theorem marked_bounded (mark : Int) (sized : Sized maxOrder top)
    (startIn : Within start (root maxOrder))
    (ample : ∀ node, Within node (root maxOrder) → Ample (orders top) taken node)
    (outside : ∀ other, Within start other → other ≠ start →
      ∀ block ∈ taken, ¬ Within other block) :
    ∀ other, Within other (root maxOrder) → Within start other → other ≠ start →
      ∀ child, child = other.left ∨ child = other.right → ¬ Within start child →
        0 ≤ orders (assign top start.code mark) child.code →
          orders (assign top start.code mark) child.code ≤
            orders (assign top start.code mark) other.code := by
  intro other otherIn above different child side aside full
  have inner : 0 < other.height := by
    rcases Nat.lt_or_eq_of_le above.1 with lower | same
    · omega
    · exact absurd (within_same_height above same).symm different
  obtain ⟨leftIn, rightIn⟩ := children_within_root otherIn inner
  have childIn : Within child (root maxOrder) := by
    rcases side with rfl | rfl
    · exact leftIn
    · exact rightIn
  have childApart : child ≠ start := by
    rintro rfl
    exact aside (within_refl child)
  rw [orders_assign_node mark sized startIn childIn, if_neg childApart] at full ⊢
  rw [orders_assign_node mark sized startIn otherIn, if_neg different]
  exact (ample other otherIn).promised (outside other above different) inner child side full

/-- Marking a node that meets no held block as held. -/
theorem alloc_settled (sized : Sized maxOrder top) (startIn : Within start (root maxOrder))
    (ample : ∀ node, Within node (root maxOrder) → Ample (orders top) taken node)
    (apart : ∀ block ∈ taken, Apart start block) :
    ∀ other, Within other (root maxOrder) → ¬ (Within start other ∧ other ≠ start) →
      Ample (orders (assign top start.code (flipOrder start.height))) (start :: taken) other := by
  intro other otherIn notAbove
  have reading := orders_assign_node (flipOrder start.height) sized startIn otherIn
  by_cases same : other = start
  · subst same
    constructor
    · exact fun none => absurd (within_refl other) (none other List.mem_cons_self)
    · exact fun _ => reading.trans (if_pos rfl)
    · intro last member contained different
      rcases List.mem_cons.mp member with rfl | present
      · exact absurd rfl different
      · exact absurd contained (apart last present).2
    · exact fun outside => absurd (within_refl other) (outside other List.mem_cons_self)
  · apply (ample other otherIn).transfer (reading.trans (if_neg same))
    · exact fun inner =>
        children_assign_node (flipOrder start.height) sized startIn otherIn inner notAbove
    · intro block contained
      have different : block ≠ start := by
        rintro rfl
        exact notAbove ⟨contained, same⟩
      simp [different]
    · exact fun outside block member => outside block (List.mem_cons_of_mem start member)

/-- The fields above such a node are fit for the walk. -/
theorem alloc_poised (sized : Sized maxOrder top) (startIn : Within start (root maxOrder))
    (ample : ∀ node, Within node (root maxOrder) → Ample (orders top) taken node)
    (apart : ∀ block ∈ taken, Apart start block) :
    Poised maxOrder (assign top start.code (flipOrder start.height)) (start :: taken) start := by
  constructor
  · intro other above different block member contained
    rcases List.mem_cons.mp member with rfl | present
    · exact different (within_antisymm contained above)
    · exact (apart block present).above above contained
  · exact fun other _ above _ none => absurd above (none start List.mem_cons_self)
  · apply marked_bounded (flipOrder start.height) sized startIn ample
    exact fun other above _ block member => (apart block member).above above

/-- Marking a held node as free. -/
theorem free_settled (sized : Sized maxOrder top) (startIn : Within start (root maxOrder))
    (ample : ∀ node, Within node (root maxOrder) → Ample (orders top) taken node)
    (held : ∀ block, block ∈ taken ↔ block = start ∨ block ∈ remaining)
    (apart : ∀ block ∈ remaining, Apart start block) :
    ∀ other, Within other (root maxOrder) → ¬ (Within start other ∧ other ≠ start) →
      Ample (orders (assign top start.code start.height)) remaining other := by
  intro other otherIn notAbove
  have reading {inner : Node} (innerIn : Within inner (root maxOrder)) :=
    orders_assign_node (start.height : Int) sized startIn innerIn
  by_cases inside : Within other start
  · apply ample_of_heights
    · intro inner contained
      have innerIn := within_trans contained otherIn
      rw [reading innerIn]
      by_cases same : inner = start
      · rw [if_pos same, same]
      · rw [if_neg same]
        apply (ample inner innerIn).whole
        intro block member lower
        have below := within_trans (within_trans lower contained) inside
        rcases (held block).mp member with rfl | present
        · exact same (within_antisymm (within_trans contained inside) lower)
        · exact (apart block present).2 below
    · exact fun block member contained =>
        (apart block member).2 (within_trans contained inside)
  · have different : other ≠ start := by
      rintro rfl
      exact inside (within_refl other)
    apply (ample other otherIn).transfer ((reading otherIn).trans (if_neg different))
    · exact fun inner => children_assign_node _ sized startIn otherIn inner notAbove
    · intro block contained
      have apartFrom : block ≠ start := by
        rintro rfl
        exact notAbove ⟨contained, different⟩
      rw [held block]
      exact ⟨.inr, fun member => member.resolve_left apartFrom⟩
    · intro outside block member contained
      rcases (held block).mp member with rfl | present
      · exact inside contained
      · exact outside block present contained

/-- The fields above such a node are fit for the walk. -/
theorem free_poised (sized : Sized maxOrder top) (startIn : Within start (root maxOrder))
    (ample : ∀ node, Within node (root maxOrder) → Ample (orders top) taken node)
    (held : ∀ block, block ∈ taken ↔ block = start ∨ block ∈ remaining)
    (apart : ∀ block ∈ remaining, Apart start block) :
    Poised maxOrder (assign top start.code start.height) remaining start := by
  have outside (other : Node) (above : Within start other) (different : other ≠ start)
      (block : Node) (member : block ∈ taken) : ¬ Within other block := by
    rcases (held block).mp member with rfl | present
    · exact fun contained => different (within_antisymm contained above)
    · exact (apart block present).above above
  constructor
  · exact fun other above different block member =>
      outside other above different block ((held block).mpr (.inr member))
  · intro other otherIn above different none
    rw [orders_assign_node _ sized startIn otherIn, if_neg different]
    apply (ample other otherIn).single start ((held start).mpr (.inl rfl)) above different.symm
    intro block member contained
    rcases (held block).mp member with same | present
    · exact same
    · exact absurd contained (none block present)
  · exact marked_bounded start.height sized startIn ample outside

/-- Marking a node and walking up from it completes, and keeps the size and the
offsets, whatever the fields are. -/
theorem marked_kept (mark : Int) (sized : Sized maxOrder top)
    (startIn : Within start (root maxOrder)) :
    ∃ updated, (setOrder top (pointer start.code) mark).bind
        (fun marked => updateBufOrder marked (pointer start.code) start.height maxOrder) =
        some updated ∧ Sized maxOrder updated ∧
      ∀ code, (entry updated code).blkOffset = (entry top code).blkOffset := by
  obtain ⟨positive, inside⟩ := node_stored sized startIn
  obtain ⟨updated, walked, updatedSized, offsets⟩ := updateLoop_rule
    (fun top' _ => Sized maxOrder top' ∧
      ∀ code, (entry top' code).blkOffset = (entry top code).blkOffset)
    (fun _ _ held => held.1)
    (fun _ _ _ _ held => by
      refine ⟨sized_assign _ _ held.1, ?_⟩
      intro code
      rw [offset_assign]
      exact held.2 code)
    (assign top start.code mark) start startIn
    ⟨sized_assign _ _ sized, fun code => offset_assign top start.code code mark⟩
  refine ⟨updated, ?_, updatedSized, offsets⟩
  rw [setOrder_pointer mark positive inside]
  exact walked

end Marks

section Requests

variable {maxOrder : Nat} {arena : Arena}

/-- The orders of a tree. Frees ask for none of their own. -/
def Fitting (maxOrder : Nat) : Request → Prop
  | .alloc order => order ≤ maxOrder
  | .free _ => True

instance (maxOrder : Nat) (request : Request) : Decidable (Fitting maxOrder request) :=
  match request with
  | .alloc _ => inferInstanceAs (Decidable (_ ≤ _))
  | .free _ => inferInstanceAs (Decidable True)

/-- A request of a fitting order that leaves the live blocks pairwise disjoint. -/
def Parting (maxOrder : Nat) (arena : Arena) (request : Request) : Prop :=
  Fitting maxOrder request ∧
    ∀ after ∈ serve maxOrder arena request, after.live.Pairwise (Disjoint after.top)

instance (maxOrder : Nat) (arena : Arena) (request : Request) :
    Decidable (Parting maxOrder arena request) :=
  inferInstanceAs (Decidable (_ ∧ _))

/-- The invariant of runs of such requests. -/
structure Restorable (maxOrder : Nat) (arena : Arena) : Prop extends Placed maxOrder arena where
  apart : (arena.live.map Block.node).Pairwise Apart
  ample : ∀ node, Within node (root maxOrder) →
    Ample (orders arena.top) (arena.live.map Block.node) node

/-- The leaf range of a live block starts at its offset. -/
theorem Placed.leafStart (placed : Placed maxOrder arena) {block : Block}
    (member : block ∈ arena.live) : BuddyTree.blockOffset arena.top block + 2 ^ maxOrder =
      (block.node.code * 2 ^ block.node.height : Nat) := by
  rw [placed.blockOffset member]
  exact (offset_range (placed.inTree block member).1).1

/-- A node whose range meets no part of a live block's lies apart from the block. -/
theorem Placed.apart_of_ranges (placed : Placed maxOrder arena) {block : Block}
    (member : block ∈ arena.live) {node : Node} {start : Int}
    (leaf : start + 2 ^ maxOrder = (node.code * 2 ^ node.height : Nat))
    (ranges : BuddyTree.blockOffset arena.top block + 2 ^ block.order ≤ start ∨
      start + 2 ^ node.height ≤ BuddyTree.blockOffset arena.top block) : Apart node block.node := by
  have address := placed.leafStart member
  have height : block.node.height = block.order := rfl
  apply ranges_apart
  rcases ranges with before | behind
  · right
    have cast : ((block.node.code * 2 ^ block.node.height : Nat) : Int) + 2 ^ block.node.height ≤
        (node.code * 2 ^ node.height : Nat) := by
      rw [← address, ← leaf, height]
      omega
    exact_mod_cast cast
  · left
    have cast : ((node.code * 2 ^ node.height : Nat) : Int) + 2 ^ node.height ≤
        (block.node.code * 2 ^ block.node.height : Nat) := by
      rw [← address, ← leaf]
      omega
    exact_mod_cast cast

/-- Live blocks with disjoint ranges are nodes of which neither contains the other. -/
theorem Placed.apart (placed : Placed maxOrder arena)
    (disjoint : arena.live.Pairwise (Disjoint arena.top)) :
    (arena.live.map Block.node).Pairwise Apart := by
  rw [List.pairwise_map]
  apply disjoint.imp_of_mem
  intro first second firstLive secondLive ranges
  apply placed.apart_of_ranges secondLive (placed.leafStart firstLive)
  exact ranges.symm

/-- An array that keeps the size and the offsets serves any blocks of the tree. -/
theorem Placed.update (placed : Placed maxOrder arena) {top : List EmiBuf} {live : List Block}
    (sized : Sized maxOrder top)
    (offsets : ∀ code, (entry top code).blkOffset = (entry arena.top code).blkOffset)
    (inTree : ∀ block ∈ live, Within block.node (root maxOrder) ∧
      block.buf = pointer block.node.code) : Placed maxOrder ⟨top, live⟩ := by
  refine ⟨sized, ?_, inTree⟩
  intro node nodeIn
  rw [offsets]
  exact placed.offsets node nodeIn

/-- After initialization the invariant holds. -/
theorem initial_restorable (starts : (allocator maxOrder).start arena) :
    Restorable maxOrder arena := by
  have faithful := initial_faithful starts
  have empty : arena.live.map Block.node = [] := by rw [starts.1, List.map_nil]
  refine ⟨faithful.placed, faithful.apart, ?_⟩
  intro node inTree
  rw [empty]
  apply ample_of_heights
  · intro inner contained
    have exact := faithful.exact inner (within_trans contained inTree)
    rw [empty] at exact
    exact exact.whole fun block member => absurd member List.not_mem_nil
  · exact fun block member => absurd member List.not_mem_nil

/-- An allocation that leaves the live blocks disjoint keeps the invariant.

The walk keeps the offsets whatever the fields are, so the ranges of the blocks
after it already tell that the chosen node lies apart from the others. -/
theorem alloc_restorable {order : Nat} {after : Arena} (restorable : Restorable maxOrder arena)
    (low : order ≤ maxOrder) (disjoint : after.live.Pairwise (Disjoint after.top))
    (taken : serve maxOrder arena (.alloc order) = some after) : Restorable maxOrder after := by
  by_cases small : orders arena.top 1 < order
  · have unchanged := serve_refused (getEmiBuf_refused restorable.sized small)
    exact Option.some.inj (unchanged.symm.trans taken) ▸ restorable
  · obtain ⟨found, chosen, foundIn, rfl⟩ :=
      getEmiBuf_node restorable.sized low (Int.not_lt.mp small)
    obtain ⟨updated, completed, sized, offsets⟩ :=
      marked_kept (flipOrder found.height) restorable.sized foundIn
    have served := serve_alloc chosen completed
    have same := Option.some.inj (served.symm.trans taken)
    subst same
    have placed : Placed maxOrder ⟨updated, ⟨pointer found.code, found.height⟩ :: arena.live⟩ := by
      apply restorable.toPlaced.update sized offsets
      intro block member
      rcases List.mem_cons.mp member with rfl | present
      · rw [node_of_pointer]
        exact ⟨foundIn, rfl⟩
      · exact restorable.inTree block present
    have apart := placed.apart disjoint
    refine ⟨placed, apart, ?_⟩
    rw [List.map_cons, node_of_pointer] at apart ⊢
    have outside := (List.pairwise_cons.mp apart).1
    obtain ⟨walked, finished, _, _, ample⟩ := marked_ample (flipOrder found.height) foundIn
      restorable.sized (alloc_settled restorable.sized foundIn restorable.ample outside)
      (alloc_poised restorable.sized foundIn restorable.ample outside)
    have same := Option.some.inj (finished.symm.trans completed)
    exact same ▸ ample

/-- The free of a live block keeps the invariant. -/
theorem free_restorable {block : Block} {after : Arena} (restorable : Restorable maxOrder arena)
    (taken : serve maxOrder arena (.free block) = some after) : Restorable maxOrder after := by
  obtain ⟨live, _⟩ := serve_free_cases taken
  obtain ⟨startIn, address⟩ := restorable.inTree block live
  have rearranged := live_nodes live
  have apart := rearranged.pairwise restorable.apart Apart.symm
  obtain ⟨outside, restApart⟩ := List.pairwise_cons.mp apart
  have held (node : Node) : node ∈ arena.live.map Block.node ↔
      node = block.node ∨ node ∈ (arena.live.erase block).map Block.node := by
    rw [rearranged.mem_iff, List.mem_cons]
  obtain ⟨updated, completed, sized, offsets, ample⟩ := marked_ample block.node.height startIn
    restorable.sized (free_settled restorable.sized startIn restorable.ample held outside)
    (free_poised restorable.sized startIn restorable.ample held outside)
  rw [← address] at completed
  have served := serve_free live completed
  have same := Option.some.inj (served.symm.trans taken)
  subst same
  refine ⟨restorable.toPlaced.update sized offsets ?_, restApart, ample⟩
  exact fun other member => restorable.inTree other (List.mem_of_mem_erase member)

/-- Every state of a run along which the live blocks stay disjoint is restorable. -/
theorem parting_reached_restorable
    (reached : (allocator maxOrder).ReachedUnder (Parting maxOrder) arena) :
    Restorable maxOrder arena := by
  apply reached.invariant (fun _ starts => initial_restorable starts)
  intro before request after restorable allowed taken
  have disjoint := allowed.2 after taken
  cases request with
  | alloc order => exact alloc_restorable restorable allowed.1 disjoint taken
  | free block => exact free_restorable restorable taken

/-- What a node outside of the held blocks has, every node above it promises.

The induction is on the distance to the root; above such a node every node is
outside of the held blocks, so each promises what the one below it has. -/
theorem promised_upward {top : List EmiBuf} {taken : List Node}
    (ample : ∀ node, Within node (root maxOrder) → Ample (orders top) taken node) (node : Node)
    (inTree : Within node (root maxOrder)) (outside : ∀ block ∈ taken, ¬ Within node block)
    (full : 0 ≤ orders top node.code) : orders top node.code ≤ orders top 1 := by
  generalize distance : maxOrder - node.height = remaining
  induction remaining generalizing node with
  | zero =>
    have low : node.height ≤ maxOrder := inTree.1
    have atRoot : node = root maxOrder :=
      within_same_height inTree (by simp only [root]; omega)
    rw [atRoot]
    exact Int.le_refl _
  | succ remaining inductionHypothesis =>
    have below : node.height < maxOrder := by omega
    have parentIn := parent_in_tree inTree below
    have parentOutside (block : Node) (member : block ∈ taken) : ¬ Within node.parent block :=
      fun contained => outside block member (within_trans (within_parent node) contained)
    have side : node = node.parent.left ∨ node = node.parent.right := by
      rcases child_cases node with ⟨own, _⟩ | ⟨own, _⟩
      · exact .inl own
      · exact .inr own
    have promised := (ample node.parent parentIn).promised parentOutside (Nat.succ_pos _)
      node side full
    have closer : maxOrder - node.parent.height = remaining := by
      simp only [Node.parent]
      omega
    have continued := inductionHypothesis node.parent parentIn parentOutside (by omega) closer
    exact Int.le_trans promised continued

/-- The aligned range of an order with an index meets no live block. -/
def Unused (arena : Arena) (order index : Nat) : Prop :=
  ∀ block ∈ arena.live, blockOffset arena.top block + 2 ^ block.order ≤ index * 2 ^ order ∨
    index * 2 ^ order + 2 ^ order ≤ blockOffset arena.top block

instance (arena : Arena) (order index : Nat) : Decidable (Unused arena order index) :=
  inferInstanceAs (Decidable (∀ _ ∈ _, _))

/-- An unused range inside the arena is the range of a node apart from every live block. -/
theorem Placed.unused_node (placed : Placed maxOrder arena) {order index : Nat}
    (low : order ≤ maxOrder) (inside : index * 2 ^ order + 2 ^ order ≤ 2 ^ maxOrder)
    (unused : Unused arena order index) :
    ∃ node, Within node (root maxOrder) ∧ node.height = order ∧
      ∀ block ∈ arena.live.map Block.node, Apart node block := by
  have positive : 0 < 2 ^ order := Nat.pow_pos (by decide)
  have whole : 2 ^ (maxOrder - order) * 2 ^ order = 2 ^ maxOrder := by
    rw [← Nat.pow_add]
    congr 1
    omega
  have bounded : index < 2 ^ (maxOrder - order) := by
    rw [← whole, ← Nat.succ_mul] at inside
    exact Nat.le_of_mul_le_mul_right inside positive
  have shifted : index * 2 ^ order + 2 ^ maxOrder =
      (2 ^ (maxOrder - order) + index) * 2 ^ order := by
    rw [Nat.add_mul, whole, Nat.add_comm]
  refine ⟨⟨order, 2 ^ (maxOrder - order) + index⟩, ?_, rfl, ?_⟩
  · rw [within_root_iff]
    refine ⟨low, Nat.le_add_right _ _, ?_⟩
    rw [Nat.two_mul]
    exact Nat.add_lt_add_left bounded _
  · intro node member
    obtain ⟨block, live, rfl⟩ := List.mem_map.mp member
    apply placed.apart_of_ranges live _ (unused block live)
    exact_mod_cast shifted

/-- Along every run whose live blocks stay disjoint, a request is answered whenever
an aligned range of its order inside the arena meets no live block.

Nothing is held below the range's node, so its field is its height; the root
promises as much, and from there the descent ends at a node of the order. -/
theorem unused_range_answered (maxOrder : Nat) (arena : Arena)
    (reached : (allocator maxOrder).ReachedUnder (Parting maxOrder) arena)
    (order index : Nat) (low : order ≤ maxOrder)
    (inside : index * 2 ^ order + 2 ^ order ≤ 2 ^ maxOrder) (unused : Unused arena order index) :
    ∃ buf top, allocEmiBuf arena.top order maxOrder = some (some buf, top) := by
  have restorable := parting_reached_restorable reached
  obtain ⟨node, inTree, height, apart⟩ := restorable.unused_node low inside unused
  have field := (restorable.ample node inTree).whole fun block member => (apart block member).2
  have promised := promised_upward restorable.ample node inTree
    (fun block member => (apart block member).1) (by omega)
  obtain ⟨found, chosen, foundIn, rfl⟩ := getEmiBuf_node restorable.sized low (by omega)
  obtain ⟨updated, completed, _, _⟩ :=
    marked_kept (flipOrder found.height) restorable.sized foundIn
  obtain ⟨marked, marking, walked⟩ := Option.bind_eq_some_iff.mp completed
  exact ⟨pointer found.code, updated, by simp [allocEmiBuf, chosen, marking, walked]⟩

/-- Along every run whose live blocks stay disjoint, once no block is live the array is
what initialization writes, whatever it is given to write over. -/
theorem emptied_arena_restored (maxOrder : Nat) (arena : Arena)
    (reached : (allocator maxOrder).ReachedUnder (Parting maxOrder) arena)
    (empty : arena.live = []) (memory : List EmiBuf)
    (sized : memory.length = 2 ^ (maxOrder + 1) - 1) :
    initEmiBuf memory maxOrder = some arena.top := by
  have restorable := parting_reached_restorable reached
  obtain ⟨top, completed, topSized, entries⟩ := initEmiBuf_exact maxOrder memory sized
  have same (node : Node) (inTree : Within node (root maxOrder)) :
      entry top node.code = entry arena.top node.code := by
    rw [entries node inTree]
    apply EmiBuf.ext
    · exact (restorable.offsets node inTree).symm
    · apply ((restorable.ample node inTree).whole _).symm
      intro block member
      rw [empty] at member
      exact absurd member List.not_mem_nil
  have lengths : top.length = arena.top.length := topSized.trans restorable.sized.symm
  rw [completed]
  congr 1
  apply List.ext_getElem lengths
  intro index stored storedToo
  have bound : index + 1 < 2 ^ (maxOrder + 1) := by
    rw [topSized] at stored
    omega
  have entry_eq := same _ (code_in_tree (Nat.succ_pos index) bound)
  simpa [entry, stored, storedToo] using entry_eq

/-- The same run with its last two blocks freed, against an initialization of other
memory: the root, which had promised too much, has its height again. -/
theorem emptied_run_restored : initEmiBuf (List.replicate 7 ⟨5, -3⟩) 2 =
    some [⟨0, 2⟩, ⟨0, 1⟩, ⟨2, 1⟩, ⟨0, 0⟩, ⟨1, 0⟩, ⟨2, 0⟩, ⟨3, 0⟩] :=
  emptied_arena_restored 2 ⟨[⟨0, 2⟩, ⟨0, 1⟩, ⟨2, 1⟩, ⟨0, 0⟩, ⟨1, 0⟩, ⟨2, 0⟩, ⟨3, 0⟩], []⟩
    (System.follow_reached
      [.alloc 0, .alloc 0, .alloc 0, .free ⟨3, 0⟩, .free ⟨5, 0⟩, .free ⟨4, 0⟩]
      (.initial ⟨[⟨0, 2⟩, ⟨0, 1⟩, ⟨2, 1⟩, ⟨0, 0⟩, ⟨1, 0⟩, ⟨2, 0⟩, ⟨3, 0⟩], []⟩
        ⟨rfl, List.replicate 7 ⟨0, 0⟩, by decide, by decide⟩) (by decide))
    rfl (List.replicate 7 ⟨5, -3⟩) rfl

end Requests

end Emilib.BuddyTree
