import Emilib.BuddySummary

/-!
# Disjoint ownership over allocator runs

An allocator state is faithful when its array has the tree's size and offsets,
its live blocks are nodes of the tree none of which contains another, and every
order field is exact for them. Initialization establishes this. Serving a
request preserves it when the upward walk of that request is clean, so along a
run of clean requests the live ranges stay disjoint and inside the arena.

Cleanness is a condition on the state before the request: the walk starting at
the block it touches never finds two equal nonnegative children that are not
wholly free. Both allocating and freeing can be unclean.
-/

namespace Emilib.BuddyTree

open Node

/-- The children an iteration of `update_buf_order` compares: equal fields are
negative, or those of two wholly free nodes of the current height. -/
def CleanMerge (height : Nat) (siblingOrder bufOrder : Int) : Prop :=
  siblingOrder = bufOrder → bufOrder < 0 ∨ bufOrder = height

instance (height : Nat) (siblingOrder bufOrder : Int) :
    Decidable (CleanMerge height siblingOrder bufOrder) :=
  inferInstanceAs (Decidable (_ → _))

/-- Every iteration of the loop of `update_buf_order` from here is clean. -/
def CleanWalk : Nat → List EmiBuf → Int → Nat → Prop
  | 0, _, _, _ => True
  | remaining + 1, top, buf, order =>
      (∀ siblingBuf ∈ load top (sibling buf), ∀ current ∈ load top buf,
        CleanMerge order siblingBuf.order current.order) ∧
      ∀ next ∈ updateParent top buf (order + 1), CleanWalk remaining next.1 next.2 (order + 1)

/-- The update a request starts is clean: the walk from the entry it marks. -/
def CleanUpdate (top : List EmiBuf) (buf mark : Int) (order maxOrder : Nat) : Prop :=
  ∀ marked ∈ setOrder top buf mark, CleanWalk (maxOrder - order) marked buf order

/-- A request whose update, if it makes one, is clean. -/
def CleanRequest (maxOrder : Nat) (arena : Arena) : Request → Prop
  | .alloc order => ∀ answer ∈ getEmiBuf arena.top order maxOrder, ∀ buf ∈ answer,
      CleanUpdate arena.top buf (flipOrder order) order maxOrder
  | .free block => CleanUpdate arena.top block.buf block.order block.order maxOrder

instance decidableCleanWalk : (remaining : Nat) → (top : List EmiBuf) → (buf : Int) →
    (order : Nat) → Decidable (CleanWalk remaining top buf order)
  | 0, _, _, _ => inferInstanceAs (Decidable True)
  | remaining + 1, _, _, order =>
      have := fun next : List EmiBuf × Int => decidableCleanWalk remaining next.1 next.2 (order + 1)
      inferInstanceAs (Decidable (_ ∧ _))

instance (top : List EmiBuf) (buf mark : Int) (order maxOrder : Nat) :
    Decidable (CleanUpdate top buf mark order maxOrder) :=
  inferInstanceAs (Decidable (∀ _ ∈ _, _))

instance (maxOrder : Nat) (arena : Arena) (request : Request) :
    Decidable (CleanRequest maxOrder arena request) :=
  match request with
  | .alloc _ => inferInstanceAs (Decidable (∀ _ ∈ _, ∀ _ ∈ _, _))
  | .free _ => inferInstanceAs (Decidable (CleanUpdate _ _ _ _ _))

/-- The tree node of a block. -/
def Block.node (block : Block) : Node := ⟨block.order, (block.buf + 1).toNat⟩

/-- Neither node contains the other. -/
def Apart (left right : Node) : Prop := ¬ Within left right ∧ ¬ Within right left

theorem Apart.symm {left right : Node} (apart : Apart left right) : Apart right left :=
  ⟨apart.2, apart.1⟩

/-- The state of an upward walk: fields are exact except strictly above the
current node, and there they still are what they were before the walk. -/
structure Walking (maxOrder : Nat) (before : List EmiBuf) (taken : List Node) (start : Node)
    (top : List EmiBuf) (node : Node) : Prop where
  sized : Sized maxOrder top
  offsets : ∀ code, (entry top code).blkOffset = (entry before code).blkOffset
  settled : ∀ other, Within other (root maxOrder) → ¬ (Within node other ∧ other ≠ node) →
    Exact (orders top) taken other
  pending : ∀ other, Within other (root maxOrder) → Within node other → other ≠ node →
    orders top other.code = orders before other.code
  climbed : Within start node
  clean : CleanWalk (maxOrder - node.height) top (pointer node.code) node.height

/-- What a parent is given when its children are exact: its own exact field.
`empty` is the parent's field before the walk when nothing below it is held. -/
theorem merged_exact {top : List EmiBuf} {taken : List Node} {node : Node}
    (exact : ∀ other, Within other node ∨ Within other node.sibling →
      Exact (orders top) taken other)
    (clean : CleanMerge node.height (orders top node.sibling.code) (orders top node.code))
    (absent : node.parent ∉ taken)
    (empty : (∀ block ∈ taken, ¬ Within block node.parent) →
      orders top node.parent.code = node.height) :
    ((∀ block ∈ taken, ¬ Within block node.parent) → mergedAt top node = node.parent.height) ∧
      ((∃ block ∈ taken, Within block node.parent) → mergedAt top node =
        combined node.parent.height (orders top node.parent.left.code)
          (orders top node.parent.right.code)) := by
  have siblingBelow : Within node.sibling node.parent := by
    rcases child_cases node with ⟨_, other⟩ | ⟨_, other⟩
    · exact other ▸ right_within node.parent (Nat.succ_pos _)
    · exact other ▸ left_within node.parent (Nat.succ_pos _)
  constructor
  · intro none
    have own := (exact node (Or.inl (within_refl node))).whole
      (fun block member contained =>
        none block member (within_trans contained (within_parent node)))
    have other := (exact node.sibling (Or.inr (within_refl _))).whole
      (fun block member contained => none block member (within_trans contained siblingBelow))
    have siblingHeight : node.sibling.height = node.height := rfl
    rw [siblingHeight] at other
    have notFull : ¬ ((node.height : Int) < 0 ∧ (node.height : Int) < 0) := by omega
    rw [mergedAt, mergedOrder, own, other, empty none, if_neg notFull, if_pos rfl]
    simp only [Node.parent]
    omega
  · rintro ⟨block, member, contained⟩
    have sides : combined node.parent.height (orders top node.parent.left.code)
        (orders top node.parent.right.code) =
          combined node.parent.height (orders top node.sibling.code) (orders top node.code) := by
      rcases child_cases node with ⟨own, other⟩ | ⟨own, other⟩
      · rw [← own, ← other, combined_comm]
      · rw [← own, ← other]
    have inHalf : Within block node ∨ Within block node.sibling := by
      have different : block ≠ node.parent := fun same => absent (same ▸ member)
      rcases child_cases node with ⟨own, other⟩ | ⟨own, other⟩
      · rcases within_child contained different with leftward | rightward
        · exact Or.inl (own ▸ leftward)
        · exact Or.inr (other ▸ rightward)
      · rcases within_child contained different with leftward | rightward
        · exact Or.inr (other ▸ leftward)
        · exact Or.inl (own ▸ rightward)
    have ownBound := exact_bound node (fun inner lower => exact inner (Or.inl lower))
    have siblingBound := exact_bound node.sibling (fun inner lower => exact inner (Or.inr lower))
    have siblingHeight : node.sibling.height = node.height := rfl
    rw [siblingHeight] at siblingBound
    rw [sides, mergedAt, mergedOrder, combined]
    have parentHeight : node.parent.height = node.height + 1 := rfl
    by_cases full : orders top node.sibling.code < 0 ∧ orders top node.code < 0
    · rw [if_pos full, if_pos full, parentHeight]
    · rw [if_neg full, if_neg full]
      by_cases equal : orders top node.sibling.code = orders top node.code
      · -- equal and nonnegative: clean children are wholly free, but one holds the block
        exfalso
        rcases clean equal with negative | free
        · exact full ⟨equal ▸ negative, negative⟩
        · rcases inHalf with lower | lower
          · have strict := ownBound.2 ⟨block, member, lower⟩
            omega
          · have strict := siblingBound.2 ⟨block, member, lower⟩
            omega
      · rw [if_neg equal]
        split <;> omega

/-- Climbing one level keeps the walk's state. Above the start no ancestor is
held, and an ancestor below which nothing is held any more had a field one
short of its height: its other half was wholly free and the start's half not. -/
theorem Walking.climb {maxOrder : Nat} {before : List EmiBuf} {taken : List Node} {start : Node}
    (absent : ∀ other, Within start other → other ≠ start → other ∉ taken)
    (freed : ∀ other, Within other (root maxOrder) → Within start other → other ≠ start →
      (∀ block ∈ taken, ¬ Within block other) → orders before other.code = other.height - 1)
    {top : List EmiBuf} {node : Node} (inTree : Within node (root maxOrder))
    (below : node.height < maxOrder) (walking : Walking maxOrder before taken start top node) :
    Walking maxOrder before taken start (assign top node.parent.code (mergedAt top node))
      node.parent := by
  have parentIn : Within node.parent (root maxOrder) := parent_in_tree inTree below
  have siblingIn : Within node.sibling (root maxOrder) := sibling_in_tree inTree below
  have higher : node.parent ≠ node := fun same =>
    parent_not_within node (same.symm ▸ within_refl node)
  have startHigher : node.parent ≠ start := fun same =>
    parent_not_within node (same ▸ walking.climbed)
  have startBelow : Within start node.parent := within_trans walking.climbed (within_parent node)
  have childrenExact : ∀ other, Within other node ∨ Within other node.sibling →
      Exact (orders top) taken other := by
    intro other inHalf
    refine walking.settled other ?_ (half_not_above (code_bounds inTree).1 inHalf)
    rcases inHalf with lower | lower
    · exact within_trans lower inTree
    · exact within_trans lower siblingIn
  have step : CleanWalk (maxOrder - node.height - 1 + 1) top (pointer node.code) node.height := by
    have distance : maxOrder - node.height - 1 + 1 = maxOrder - node.height := by omega
    rw [distance]
    exact walking.clean
  have ownStored := node_stored walking.sized inTree
  have siblingStored := node_stored walking.sized siblingIn
  have cleanHere : CleanMerge node.height (orders top node.sibling.code) (orders top node.code) :=
    step.1 (entry top node.sibling.code)
      (by rw [sibling_pointer node ownStored.1, load_pointer siblingStored.1 siblingStored.2]; rfl)
      (entry top node.code) (by rw [load_pointer ownStored.1 ownStored.2]; rfl)
  have parentAbsent : node.parent ∉ taken := absent node.parent startBelow startHigher
  have merged := merged_exact childrenExact cleanHere parentAbsent (fun none => by
    rw [walking.pending node.parent parentIn (within_parent node) higher,
      freed node.parent parentIn startBelow startHigher none]
    simp only [Node.parent]
    omega)
  have reading (other : Node) (otherIn : Within other (root maxOrder)) :=
    orders_assign_node (mergedAt top node) walking.sized parentIn otherIn
  have childrenRead (other : Node) (otherIn : Within other (root maxOrder)) :=
    children_assign_node (mergedAt top node) walking.sized parentIn otherIn
  refine ⟨sized_assign _ _ walking.sized, ?_, ?_, ?_, startBelow, ?_⟩
  · intro code
    rw [offset_assign]
    exact walking.offsets code
  · intro other otherIn notAbove
    by_cases same : other = node.parent
    · subst same
      have children := childrenRead node.parent otherIn (Nat.succ_pos _) notAbove
      have own : orders (assign top node.parent.code (mergedAt top node)) node.parent.code =
          mergedAt top node := by rw [reading _ parentIn, if_pos rfl]
      constructor
      · intro none
        rw [own]
        exact merged.1 none
      · intro member
        exact absurd member parentAbsent
      · intro _ used
        rw [own, children.1, children.2]
        exact merged.2 used
    · have earlier : ¬ (Within node other ∧ other ≠ node) := by
        rintro ⟨upper, different⟩
        exact notAbove ⟨parent_within upper (fun equal => different equal.symm), same⟩
      exact (walking.settled other otherIn earlier).transfer
        (by rw [reading _ otherIn, if_neg same])
        (fun inner => childrenRead other otherIn inner notAbove) Iff.rfl (fun _ _ => Iff.rfl)
  · intro other otherIn above different
    rw [reading _ otherIn, if_neg different]
    refine walking.pending other otherIn (within_trans (within_parent node) above) ?_
    rintro rfl
    exact parent_not_within other above
  · have next := step.2 _ (updateParent_pointer walking.sized inTree below)
    have distance : maxOrder - node.parent.height = maxOrder - node.height - 1 := by
      simp only [Node.parent]
      omega
    rw [distance]
    exact next

/-- A clean walk from a node whose own field and everything not above it is
exact completes, and leaves every field exact. -/
theorem updateBufOrder_exact {maxOrder : Nat} (before : List EmiBuf) (taken : List Node)
    {start : Node} (startIn : Within start (root maxOrder))
    (absent : ∀ other, Within start other → other ≠ start → other ∉ taken)
    (freed : ∀ other, Within other (root maxOrder) → Within start other → other ≠ start →
      (∀ block ∈ taken, ¬ Within block other) → orders before other.code = other.height - 1)
    (sized : Sized maxOrder before)
    (settled : ∀ other, Within other (root maxOrder) → ¬ (Within start other ∧ other ≠ start) →
      Exact (orders before) taken other)
    (clean : CleanWalk (maxOrder - start.height) before (pointer start.code) start.height) :
    ∃ updated, updateBufOrder before (pointer start.code) start.height maxOrder = some updated ∧
      Sized maxOrder updated ∧
      (∀ code, (entry updated code).blkOffset = (entry before code).blkOffset) ∧
      ∀ node, Within node (root maxOrder) → Exact (orders updated) taken node := by
  obtain ⟨updated, walked, finished⟩ := updateLoop_rule
    (fun top node => Walking maxOrder before taken start top node)
    (fun _ _ walking => walking.sized)
    (fun _ _ inTree below walking => walking.climb absent freed inTree below)
    before start startIn
    ⟨sized, fun _ => rfl, settled, fun _ _ _ _ => rfl, within_refl start, clean⟩
  refine ⟨updated, walked, finished.sized, finished.offsets, fun node inTree => ?_⟩
  refine finished.settled node inTree ?_
  rintro ⟨above, different⟩
  exact different (within_antisymm inTree above)

/-- Marking an entry inside the tree and walking up from it, when the marked
node itself is exact for the remaining blocks and nothing else changes. -/
theorem marked_exact {maxOrder : Nat} {top : List EmiBuf} (taken remaining : List Node)
    (mark : Int) {start : Node} (startIn : Within start (root maxOrder))
    (sized : Sized maxOrder top)
    (exact : ∀ node, Within node (root maxOrder) → Exact (orders top) taken node)
    (own : Exact (fun code => if code = start.code then mark else orders top code) remaining start)
    (apart : ∀ block, block ≠ start → (block ∈ remaining ↔ block ∈ taken))
    (absent : ∀ other, Within start other → other ≠ start → other ∉ remaining)
    (freed : ∀ other, Within other (root maxOrder) → Within start other → other ≠ start →
      (∀ block ∈ remaining, ¬ Within block other) → orders top other.code = other.height - 1)
    (clean : CleanUpdate top (pointer start.code) mark start.height maxOrder) :
    ∃ updated, (setOrder top (pointer start.code) mark).bind
        (fun marked => updateBufOrder marked (pointer start.code) start.height maxOrder) =
        some updated ∧ Sized maxOrder updated ∧
      (∀ code, (entry updated code).blkOffset = (entry top code).blkOffset) ∧
      ∀ node, Within node (root maxOrder) → Exact (orders updated) remaining node := by
  obtain ⟨positive, inside⟩ := node_stored sized startIn
  have marked := setOrder_pointer mark positive inside
  have reading (code : Nat) (counted : 0 < code) : orders (assign top start.code mark) code =
      if code = start.code then mark else orders top code :=
    orders_assign mark positive inside counted
  have unread (other : Node) (otherIn : Within other (root maxOrder)) (different : other ≠ start) :
      orders (assign top start.code mark) other.code = orders top other.code := by
    rw [orders_assign_node mark sized startIn otherIn, if_neg different]
  obtain ⟨updated, walked, updatedSized, offsets, finished⟩ := updateBufOrder_exact
    (assign top start.code mark) remaining startIn absent
    (fun other otherIn above different none => by
      rw [unread other otherIn different]
      exact freed other otherIn above different none)
    (sized_assign _ _ sized) (fun other otherIn notAbove => by
      by_cases same : other = start
      · subst same
        exact own.transfer (reading _ positive)
          (fun inner => by
            obtain ⟨leftIn, rightIn⟩ := children_within_root otherIn inner
            exact ⟨reading _ (code_bounds leftIn).1, reading _ (code_bounds rightIn).1⟩)
          Iff.rfl (fun _ _ => Iff.rfl)
      · have outside (block : Node) (contained : Within block other) : block ≠ start := by
          intro equal
          subst equal
          exact notAbove ⟨contained, same⟩
        exact (exact other otherIn).transfer (unread other otherIn same)
          (fun inner => children_assign_node mark sized startIn otherIn inner notAbove)
          (apart other same) (fun block contained => apart block (outside block contained)))
    (clean _ marked)
  refine ⟨updated, by rw [marked]; exact walked, updatedSized, fun code => ?_, finished⟩
  rw [offsets, offset_assign]

/-- The invariant of clean allocator runs. -/
structure Faithful (maxOrder : Nat) (arena : Arena) : Prop where
  sized : Sized maxOrder arena.top
  offsets : ∀ node, Within node (root maxOrder) →
    (entry arena.top node.code).blkOffset = (initialEntry maxOrder node).blkOffset
  inTree : ∀ block ∈ arena.live, Within block.node (root maxOrder) ∧
    block.buf = pointer block.node.code
  apart : (arena.live.map Block.node).Pairwise Apart
  exact : ∀ node, Within node (root maxOrder) →
    Exact (orders arena.top) (arena.live.map Block.node) node

/-- What no order field enters: the array has the tree's size and offsets, and the
live blocks are nodes of the tree. -/
structure Placed (maxOrder : Nat) (arena : Arena) : Prop where
  sized : Sized maxOrder arena.top
  offsets : ∀ node, Within node (root maxOrder) →
    (entry arena.top node.code).blkOffset = (initialEntry maxOrder node).blkOffset
  inTree : ∀ block ∈ arena.live, Within block.node (root maxOrder) ∧
    block.buf = pointer block.node.code

theorem Faithful.placed {maxOrder : Nat} {arena : Arena} (faithful : Faithful maxOrder arena) :
    Placed maxOrder arena :=
  ⟨faithful.sized, faithful.offsets, faithful.inTree⟩

/-- After initialization nothing is held and every field is a node's height. -/
theorem initial_faithful {maxOrder : Nat} {arena : Arena}
    (starts : (allocator maxOrder).start arena) : Faithful maxOrder arena := by
  obtain ⟨empty, memory, sized, initialized⟩ := starts
  obtain ⟨top, completed, topSized, entries⟩ := initEmiBuf_exact maxOrder memory sized
  have same : top = arena.top := Option.some.inj (completed.symm.trans initialized)
  subst same
  refine ⟨topSized, fun node inTree => by rw [entries node inTree], ?_, ?_, ?_⟩
  · intro block member
    rw [empty] at member
    exact absurd member List.not_mem_nil
  · rw [empty]
    exact List.Pairwise.nil
  · intro node inTree
    rw [empty]
    have field : orders arena.top node.code = node.height := by
      rw [orders, entries node inTree]
      rfl
    exact ⟨fun _ => field, fun member => absurd member List.not_mem_nil,
      fun _ used => by
        obtain ⟨block, member, _⟩ := used
        exact absurd member List.not_mem_nil⟩

theorem node_of_pointer (node : Node) : Block.node ⟨pointer node.code, node.height⟩ = node := by
  simp only [Block.node, pointer]
  cases node
  simp

section Served

variable {maxOrder : Nat} {arena : Arena} {updated : List EmiBuf}

/-- A refused allocation changes nothing. -/
theorem serve_refused {order : Nat} (refused : getEmiBuf arena.top order maxOrder = some none) :
    serve maxOrder arena (.alloc order) = some arena := by
  simp [serve, allocEmiBuf, refused]

/-- An answered allocation marks the chosen entry and walks up from it. -/
theorem serve_alloc {order : Nat} {buf : Int}
    (chosen : getEmiBuf arena.top order maxOrder = some (some buf))
    (completed : (setOrder arena.top buf (flipOrder order)).bind
      (fun marked => updateBufOrder marked buf order maxOrder) = some updated) :
    serve maxOrder arena (.alloc order) = some ⟨updated, ⟨buf, order⟩ :: arena.live⟩ := by
  obtain ⟨marked, marking, walked⟩ := Option.bind_eq_some_iff.mp completed
  simp [serve, allocEmiBuf, chosen, marking, walked]

/-- The free of a live block gives its entry back its order and walks up from it. -/
theorem serve_free {block : Block} (live : block ∈ arena.live)
    (completed : (setOrder arena.top block.buf block.order).bind
      (fun marked => updateBufOrder marked block.buf block.order maxOrder) = some updated) :
    serve maxOrder arena (.free block) = some ⟨updated, arena.live.erase block⟩ := by
  have freed : freeEmiBuf arena.top block.buf block.order maxOrder = some updated := completed
  simp [serve, live, freed]

/-- An allocation adds one block of the requested order, or none. -/
theorem serve_alloc_cases {order : Nat} {after : Arena}
    (taken : serve maxOrder arena (.alloc order) = some after) :
    after.live = arena.live ∨ ∃ buf, after.live = ⟨buf, order⟩ :: arena.live := by
  obtain ⟨⟨answer, top⟩, _, answered⟩ := Option.bind_eq_some_iff.mp taken
  cases answer with
  | none =>
    obtain rfl := Option.some.inj answered
    exact .inl rfl
  | some buf =>
    obtain rfl := Option.some.inj answered
    exact .inr ⟨buf, rfl⟩

/-- A free takes away a live block. -/
theorem serve_free_cases {block : Block} {after : Arena}
    (taken : serve maxOrder arena (.free block) = some after) :
    block ∈ arena.live ∧ after.live = arena.live.erase block := by
  rw [serve] at taken
  by_cases live : block ∈ arena.live
  · rw [if_pos live] at taken
    obtain ⟨top, _, freed⟩ := Option.bind_eq_some_iff.mp taken
    obtain rfl := Option.some.inj freed
    exact ⟨live, rfl⟩
  · rw [if_neg live] at taken
    cases taken

/-- The nodes of the live blocks are that of a freed one and those of the others. -/
theorem live_nodes {live : List Block} {block : Block} (member : block ∈ live) :
    (live.map Block.node).Perm (block.node :: (live.erase block).map Block.node) := by
  rw [← List.map_cons]
  exact (List.perm_cons_erase member).map Block.node

end Served

/-- A clean allocation succeeds or answers NULL, and keeps the invariant. -/
theorem alloc_faithful {maxOrder order : Nat} {arena : Arena} (faithful : Faithful maxOrder arena)
    (clean : CleanRequest maxOrder arena (.alloc order)) :
    ∃ after, serve maxOrder arena (.alloc order) = some after ∧ Faithful maxOrder after := by
  have takenIn : ∀ block ∈ arena.live.map Block.node, Within block (root maxOrder) := by
    intro node member
    obtain ⟨block, present, rfl⟩ := List.mem_map.mp member
    exact (faithful.inTree block present).1
  rcases getEmiBuf_exact order faithful.sized faithful.exact takenIn with
    refused | ⟨found, chosen, foundIn, rfl, outside⟩
  · exact ⟨arena, serve_refused refused, faithful⟩
  · have fresh : found ∉ arena.live.map Block.node := fun member =>
      (outside found member).1 (within_refl found)
    obtain ⟨updated, completed, sized, offsets, exact⟩ := marked_exact
      (arena.live.map Block.node) (found :: arena.live.map Block.node)
      (flipOrder found.height) foundIn faithful.sized faithful.exact
      { whole := fun none => absurd (within_refl found) (none found List.mem_cons_self)
        held := fun _ => if_pos rfl
        split := fun absent _ => absurd List.mem_cons_self absent }
      (fun block different => by simp [different])
      (fun other above different member => by
        rcases List.mem_cons.mp member with same | present
        · exact different same
        · exact (outside other present).1 above)
      (fun other _ above _ none => absurd above (none found List.mem_cons_self))
      (clean _ chosen _ rfl)
    refine ⟨_, serve_alloc chosen completed, sized, fun node inTree => ?_, ?_, ?_, ?_⟩
    · rw [offsets]
      exact faithful.offsets node inTree
    · intro block member
      rcases List.mem_cons.mp member with rfl | present
      · rw [node_of_pointer]
        exact ⟨foundIn, rfl⟩
      · exact faithful.inTree block present
    · rw [List.map_cons, node_of_pointer]
      exact List.pairwise_cons.mpr ⟨fun node member => outside node member, faithful.apart⟩
    · rw [List.map_cons, node_of_pointer]
      exact exact

/-- A clean free of a live block succeeds and keeps the invariant. -/
theorem free_faithful {maxOrder : Nat} {arena : Arena} {block : Block}
    (faithful : Faithful maxOrder arena) (live : block ∈ arena.live)
    (clean : CleanRequest maxOrder arena (.free block)) :
    ∃ after, serve maxOrder arena (.free block) = some after ∧ Faithful maxOrder after := by
  obtain ⟨startIn, address⟩ := faithful.inTree block live
  have rearranged := live_nodes live
  have pairwise : (block.node :: (arena.live.erase block).map Block.node).Pairwise Apart :=
    rearranged.pairwise faithful.apart Apart.symm
  obtain ⟨outside, restApart⟩ := List.pairwise_cons.mp pairwise
  have heightOrder : block.node.height = block.order := rfl
  have startMember : block.node ∈ arena.live.map Block.node := List.mem_map.mpr ⟨block, live, rfl⟩
  have startAbsent : block.node ∉ (arena.live.erase block).map Block.node := fun member =>
    (outside block.node member).1 (within_refl block.node)
  rw [CleanRequest, address] at clean
  obtain ⟨updated, completed, sized, offsets, exact⟩ := marked_exact
    (arena.live.map Block.node) ((arena.live.erase block).map Block.node) block.order startIn
    faithful.sized faithful.exact
    { whole := fun _ => if_pos rfl
      held := fun member => absurd member startAbsent
      split := fun _ used => by
        obtain ⟨other, member, contained⟩ := used
        exact absurd contained (outside other member).2 }
    (fun other different => by
      rw [rearranged.mem_iff, List.mem_cons]
      exact ⟨Or.inr, fun member => member.resolve_left different⟩)
    (fun other above _ member => (outside other member).1 above)
    (fun other otherIn above different none => by
      apply exact_single (fun inner lower => faithful.exact inner (within_trans lower otherIn))
        startMember above
      · rw [rearranged.mem_iff, List.mem_cons]
        rintro (same | member)
        · exact different same
        · exact (outside other member).1 above
      · intro held member contained
        rw [rearranged.mem_iff, List.mem_cons] at member
        rcases member with same | remains
        · exact same
        · exact absurd contained (none held remains))
    clean
  have served : serve maxOrder arena (.free block) =
      some ⟨updated, arena.live.erase block⟩ := by
    rw [← address] at completed
    exact serve_free live completed
  refine ⟨_, served, sized, fun node inTree => ?_, ?_, restApart, exact⟩
  · rw [offsets]
    exact faithful.offsets node inTree
  · intro other member
    exact faithful.inTree other (List.mem_of_mem_erase member)

/-- The leaf range of a tree node, shifted to start at zero, is its offset range. -/
theorem offset_range {maxOrder : Nat} {node : Node} (inTree : Within node (root maxOrder)) :
    (initialEntry maxOrder node).blkOffset + 2 ^ maxOrder = (node.code * 2 ^ node.height : Nat) ∧
      (node.code + 1) * 2 ^ node.height ≤ 2 ^ (maxOrder + 1) := by
  obtain ⟨low, atLeast, below⟩ := (within_root_iff node maxOrder).mp inTree
  have whole : 2 ^ (maxOrder - node.height) * 2 ^ node.height = 2 ^ maxOrder := by
    rw [← Nat.pow_add]
    congr 1
    omega
  constructor
  · have shifted : (node.code - 2 ^ (maxOrder - node.height)) * 2 ^ node.height + 2 ^ maxOrder =
        node.code * 2 ^ node.height := by
      rw [← whole, ← Nat.add_mul]
      congr 1
      omega
    simp only [initialEntry]
    exact_mod_cast shifted
  · have bound : (node.code + 1) * 2 ^ node.height ≤
        2 * 2 ^ (maxOrder - node.height) * 2 ^ node.height :=
      Nat.mul_le_mul_right _ (by omega)
    rw [Nat.mul_assoc, whole] at bound
    rw [Nat.pow_succ, Nat.mul_comm (2 ^ maxOrder)]
    exact bound

/-- A live block has the offset of its node. -/
theorem Placed.blockOffset {maxOrder : Nat} {arena : Arena} (placed : Placed maxOrder arena)
    {block : Block} (member : block ∈ arena.live) :
    BuddyTree.blockOffset arena.top block = (initialEntry maxOrder block.node).blkOffset := by
  obtain ⟨inTree, address⟩ := placed.inTree block member
  obtain ⟨positive, inside⟩ := node_stored placed.sized inTree
  rw [BuddyTree.blockOffset, address, load_pointer positive inside]
  exact placed.offsets block.node inTree

theorem Faithful.blockOffset {maxOrder : Nat} {arena : Arena} (faithful : Faithful maxOrder arena)
    {block : Block} (member : block ∈ arena.live) :
    BuddyTree.blockOffset arena.top block = (initialEntry maxOrder block.node).blkOffset :=
  faithful.placed.blockOffset member

/-- In a faithful state the live blocks are disjoint ranges of the arena.

Two ranges that overlap share the leaf at the larger of their starts, so one of
the nodes contains the other, which the invariant excludes. -/
theorem Faithful.separated {maxOrder : Nat} {arena : Arena} (faithful : Faithful maxOrder arena) :
    Separated maxOrder arena := by
  constructor
  · refine (List.pairwise_map.mp faithful.apart).imp_of_mem ?_
    intro first second firstMember secondMember apart
    obtain ⟨firstIn, _⟩ := faithful.inTree first firstMember
    obtain ⟨secondIn, _⟩ := faithful.inTree second secondMember
    have firstStart := (offset_range firstIn).1
    have secondStart := (offset_range secondIn).1
    have firstHeight : first.node.height = first.order := rfl
    have secondHeight : second.node.height = second.order := rfl
    rw [firstHeight] at firstStart
    rw [secondHeight] at secondStart
    rw [Disjoint, faithful.blockOffset firstMember, faithful.blockOffset secondMember]
    rcases apart_ranges apart.1 apart.2 with before | after
    · left
      rw [firstHeight, secondHeight] at before
      have cast : ((first.node.code * 2 ^ first.order : Nat) : Int) + 2 ^ first.order ≤
          (second.node.code * 2 ^ second.order : Nat) := by exact_mod_cast before
      omega
    · right
      rw [firstHeight, secondHeight] at after
      have cast : ((second.node.code * 2 ^ second.order : Nat) : Int) + 2 ^ second.order ≤
          (first.node.code * 2 ^ first.order : Nat) := by exact_mod_cast after
      omega
  · intro block member
    obtain ⟨inTree, _⟩ := faithful.inTree block member
    obtain ⟨start, finish⟩ := offset_range inTree
    rw [faithful.blockOffset member]
    have height : block.node.height = block.order := rfl
    rw [height] at start finish
    rw [Nat.add_mul, Nat.one_mul, Nat.pow_succ] at finish
    have cast : ((block.node.code * 2 ^ block.order : Nat) : Int) + 2 ^ block.order ≤
        2 ^ maxOrder * 2 := by exact_mod_cast finish
    refine ⟨?_, by omega⟩
    exact Int.mul_nonneg (Int.natCast_nonneg _) (Int.le_of_lt (Int.pow_pos (by decide)))

/-- A clean request keeps the invariant. -/
theorem serve_faithful {maxOrder : Nat} {before after : Arena} {request : Request}
    (faithful : Faithful maxOrder before) (clean : CleanRequest maxOrder before request)
    (taken : serve maxOrder before request = some after) : Faithful maxOrder after := by
  have agrees (expected : Arena) (served : serve maxOrder before request = some expected) :
      expected = after := Option.some.inj (served.symm.trans taken)
  cases request with
  | alloc order =>
    obtain ⟨expected, served, kept⟩ := alloc_faithful faithful clean
    exact agrees expected served ▸ kept
  | free block =>
    obtain ⟨live, _⟩ := serve_free_cases taken
    obtain ⟨expected, served, kept⟩ := free_faithful faithful live clean
    exact agrees expected served ▸ kept

/-- Every state reached by clean requests is faithful. -/
theorem clean_reached_faithful {maxOrder : Nat} {arena : Arena}
    (reached : (allocator maxOrder).ReachedUnder (CleanRequest maxOrder) arena) :
    Faithful maxOrder arena :=
  reached.invariant (fun _ starts => initial_faithful starts)
    fun _ _ _ faithful clean taken => serve_faithful faithful clean taken

/-- Along every run whose requests are all clean, the live blocks are pairwise
disjoint ranges inside the arena. -/
theorem clean_runs_separated (maxOrder : Nat) (arena : Arena)
    (reached : (allocator maxOrder).ReachedUnder (CleanRequest maxOrder) arena) :
    Separated maxOrder arena :=
  (clean_reached_faithful reached).separated

/-- A clean run that splits, refuses, merges and splits again: in a tree of order two
the second free merges two wholly free leaves, one of which is then taken next to the
half in use. -/
theorem clean_run_separated :
    Separated 2 ⟨[⟨0, 0⟩, ⟨0, 0⟩, ⟨2, -2⟩, ⟨0, -1⟩, ⟨1, 0⟩, ⟨2, 0⟩, ⟨3, 0⟩], [⟨3, 0⟩, ⟨2, 1⟩]⟩ :=
  clean_runs_separated 2 _ (System.follow_reached
    [.alloc 0, .alloc 0, .alloc 1, .alloc 1, .alloc 3, .free ⟨3, 0⟩, .free ⟨4, 0⟩, .alloc 0]
    (.initial ⟨[⟨0, 2⟩, ⟨0, 1⟩, ⟨2, 1⟩, ⟨0, 0⟩, ⟨1, 0⟩, ⟨2, 0⟩, ⟨3, 0⟩], []⟩
      ⟨rfl, List.replicate 7 ⟨0, 0⟩, by decide, by decide⟩) (by decide))

/-- Not every run keeps its blocks apart. Three smallest blocks are taken in a
tree of order two and the first is freed, so each half has one free leaf; the
root is then incremented to one, and a request of order one is answered with
the half that holds the third block. -/
theorem unclean_run_overlaps : ¬ ∀ (maxOrder : Nat) (arena : Arena),
    (allocator maxOrder).Reached arena → Separated maxOrder arena := by
  intro always
  have reached : (allocator 2).Reached
      ⟨[⟨0, 0⟩, ⟨0, 0⟩, ⟨2, -2⟩, ⟨0, 0⟩, ⟨1, -1⟩, ⟨2, -1⟩, ⟨3, 0⟩], [⟨2, 1⟩, ⟨5, 0⟩, ⟨4, 0⟩]⟩ :=
    System.follow_reached [.alloc 0, .alloc 0, .alloc 0, .free ⟨3, 0⟩, .alloc 1]
      (.initial ⟨[⟨0, 2⟩, ⟨0, 1⟩, ⟨2, 1⟩, ⟨0, 0⟩, ⟨1, 0⟩, ⟨2, 0⟩, ⟨3, 0⟩], []⟩
        ⟨rfl, List.replicate 7 ⟨0, 0⟩, by decide, by decide⟩) (by decide)
  have overlap := always 2 _ reached
  revert overlap
  decide

end Emilib.BuddyTree
