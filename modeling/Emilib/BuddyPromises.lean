import Emilib.BuddyOwnership

/-!
# What the buddy tree's order fields never get wrong

The increment of `update_buf_order` may give a node an order field that promises
more than it has, and no clean-up follows. As long as the live blocks stay apart,
four things are true of a field nevertheless. It is exact where nothing below the
node is held, and where the node itself is held. It is one short of the height
where exactly one block is held strictly below. And outside of held blocks it is at
least the field of each child that is not full.

The third is what makes the increment right when the last block below a node is
freed: both halves are wholly free then, and the node's old field, which no earlier
error has reached, becomes its height. The fourth is kept by every branch, whatever
the old values were, and is why a free block is never hidden from an allocation.
-/

namespace Emilib.BuddyTree

open Node

/-- What the order field of a node never gets wrong. -/
structure Ample (ord : Nat → Int) (taken : List Node) (node : Node) : Prop where
  whole : (∀ block ∈ taken, ¬ Within block node) → ord node.code = node.height
  held : node ∈ taken → ord node.code = flipOrder node.height
  single : ∀ last ∈ taken, Within last node → last ≠ node →
    (∀ block ∈ taken, Within block node → block = last) → ord node.code = node.height - 1
  promised : (∀ block ∈ taken, ¬ Within node block) → 0 < node.height →
    ∀ child, child = node.left ∨ child = node.right → 0 ≤ ord child.code →
      ord child.code ≤ ord node.code

/-- What is known of a node depends on its own field and its children's, and on the
held blocks above and below it. -/
theorem Ample.transfer {ord updated : Nat → Int} {taken remaining : List Node} {node : Node}
    (ample : Ample ord taken node) (own : updated node.code = ord node.code)
    (children : 0 < node.height → updated node.left.code = ord node.left.code ∧
      updated node.right.code = ord node.right.code)
    (below : ∀ block, Within block node → (block ∈ remaining ↔ block ∈ taken))
    (above : (∀ block ∈ remaining, ¬ Within node block) → ∀ block ∈ taken, ¬ Within node block) :
    Ample updated remaining node where
  whole := by
    intro none
    rw [own]
    exact ample.whole fun block member contained =>
      none block ((below block contained).mpr member) contained
  held := by
    intro member
    rw [own]
    exact ample.held ((below node (within_refl node)).mp member)
  single := by
    intro last member contained different only
    rw [own]
    apply ample.single last ((below last contained).mp member) contained different
    intro block present lower
    exact only block ((below block lower).mpr present) lower
  promised := by
    intro outside inner child side full
    obtain ⟨left, right⟩ := children inner
    have field : updated child.code = ord child.code := by
      rcases side with rfl | rfl
      · exact left
      · exact right
    rw [field] at full ⊢
    rw [own]
    exact ample.promised (above outside) inner child side full

/-- Where every field below a node is its height and nothing is held, all is known. -/
theorem ample_of_heights {ord : Nat → Int} {taken : List Node} {node : Node}
    (heights : ∀ inner, Within inner node → ord inner.code = inner.height)
    (free : ∀ block ∈ taken, ¬ Within block node) : Ample ord taken node where
  whole := fun _ => heights node (within_refl node)
  held := fun member => absurd (within_refl node) (free node member)
  single := fun last member contained => absurd contained (free last member)
  promised := by
    rintro _ inner child (rfl | rfl) _
    · rw [heights node (within_refl node), heights node.left (left_within node inner)]
      simp only [left]
      omega
    · rw [heights node (within_refl node), heights node.right (right_within node inner)]
      simp only [right]
      omega

/-- The value an iteration gives the parent, by its cases: full, incremented, or the
larger of the two. -/
theorem mergedAt_cases (top : List EmiBuf) (node : Node) :
    (orders top node.sibling.code < 0 ∧ orders top node.code < 0) ∨
      (orders top node.sibling.code = orders top node.code ∧
        mergedAt top node = orders top node.parent.code + 1) ∨
      (orders top node.sibling.code ≠ orders top node.code ∧
        mergedAt top node = max (orders top node.sibling.code) (orders top node.code)) := by
  rw [mergedAt, mergedOrder]
  by_cases full : orders top node.sibling.code < 0 ∧ orders top node.code < 0
  · exact .inl full
  · right
    rw [if_neg full]
    by_cases equal : orders top node.sibling.code = orders top node.code
    · exact .inl ⟨equal, if_pos equal⟩
    · right
      refine ⟨equal, ?_⟩
      rw [if_neg equal]
      split <;> omega

/-- The field of a node below which one block is held, as seen from its parent: less
than its height. -/
theorem Ample.short {ord : Nat → Int} {taken : List Node} {node last : Node}
    (ample : Ample ord taken node) (member : last ∈ taken) (contained : Within last node)
    (only : ∀ block ∈ taken, Within block node → block = last) : ord node.code < node.height := by
  by_cases same : last = node
  · rw [ample.held (same ▸ member), flipOrder]
    omega
  · rw [ample.single last member contained same only]
    omega

/-- What a parent is given is ample when both children are. `empty` is the parent's
old field when the walk leaves nothing held below it, and `bound` what its old field
promised of the half the walk does not come from. -/
theorem merged_ample {top : List EmiBuf} {taken : List Node} {node : Node}
    (ample : Ample (orders top) taken node) (other : Ample (orders top) taken node.sibling)
    (outside : ∀ block ∈ taken, ¬ Within node.parent block)
    (empty : (∀ block ∈ taken, ¬ Within block node.parent) →
      orders top node.parent.code = node.height)
    (bound : 0 ≤ orders top node.sibling.code →
      orders top node.sibling.code ≤ orders top node.parent.code)
    {updated : Nat → Int} (own : updated node.parent.code = mergedAt top node)
    (left : updated node.parent.left.code = orders top node.parent.left.code)
    (right : updated node.parent.right.code = orders top node.parent.right.code) :
    Ample updated taken node.parent := by
  have parentHeight : node.parent.height = node.height + 1 := rfl
  have siblingHeight : node.sibling.height = node.height := rfl
  have ownBelow : Within node node.parent := within_parent node
  have siblingBelow : Within node.sibling node.parent := by
    rcases child_cases node with ⟨_, side⟩ | ⟨_, side⟩
    · exact side ▸ right_within node.parent (Nat.succ_pos _)
    · exact side ▸ left_within node.parent (Nat.succ_pos _)
  have halves {inner : Node} (first : Within inner node) (second : Within inner node.sibling) :
      False := by
    rcases child_cases node with ⟨own, side⟩ | ⟨own, side⟩
    · exact halves_apart (own ▸ first) (side ▸ second)
    · exact halves_apart (side ▸ second) (own ▸ first)
  have field (child : Node) (side : child = node.parent.left ∨ child = node.parent.right) :
      (child = node ∨ child = node.sibling) ∧ updated child.code = orders top child.code := by
    rcases child_cases node with ⟨ownSide, otherSide⟩ | ⟨ownSide, otherSide⟩ <;>
      rcases side with rfl | rfl
    · exact ⟨.inl ownSide.symm, left⟩
    · exact ⟨.inr otherSide.symm, right⟩
    · exact ⟨.inr otherSide.symm, left⟩
    · exact ⟨.inl ownSide.symm, right⟩
  have merged := mergedAt_cases top node
  constructor
  · intro none
    have free := ample.whole fun block member contained =>
      none block member (within_trans contained ownBelow)
    have otherFree := other.whole fun block member contained =>
      none block member (within_trans contained siblingBelow)
    have old := empty none
    rw [own]
    omega
  · intro member
    exact absurd (within_refl node.parent) (outside node.parent member)
  · intro last member contained different only
    have inHalf : Within last node ∨ Within last node.sibling := by
      rcases child_cases node with ⟨ownSide, otherSide⟩ | ⟨ownSide, otherSide⟩
      · rcases within_child contained different with lower | lower
        · exact .inl (ownSide ▸ lower)
        · exact .inr (otherSide ▸ lower)
      · rcases within_child contained different with lower | lower
        · exact .inr (otherSide ▸ lower)
        · exact .inl (ownSide ▸ lower)
    rw [own]
    rcases inHalf with lower | lower
    · have short := ample.short member lower fun block present inner =>
        only block present (within_trans inner ownBelow)
      have free := other.whole fun block present inner => halves
        (only block present (within_trans inner siblingBelow) ▸ lower) inner
      omega
    · have short := other.short member lower fun block present inner =>
        only block present (within_trans inner siblingBelow)
      have free := ample.whole fun block present inner => halves inner
        (only block present (within_trans inner ownBelow) ▸ lower)
      omega
  · intro _ _ child side full
    obtain ⟨which, same⟩ := field child side
    rw [same] at full ⊢
    rw [own]
    rcases which with rfl | rfl <;> omega

/-- The state of an upward walk: strictly above the current node nothing is known yet,
and off the path from the start fields are what they were before the walk. -/
structure Rising (maxOrder : Nat) (before : List EmiBuf) (taken : List Node) (start : Node)
    (top : List EmiBuf) (node : Node) : Prop where
  sized : Sized maxOrder top
  offsets : ∀ code, (entry top code).blkOffset = (entry before code).blkOffset
  settled : ∀ other, Within other (root maxOrder) → ¬ (Within node other ∧ other ≠ node) →
    Ample (orders top) taken other
  untouched : ∀ other, Within other (root maxOrder) →
    ¬ (Within start other ∧ other ≠ start ∧ Within other node) →
    orders top other.code = orders before other.code
  climbed : Within start node

/-- What a walk from a node needs to know of the fields above it. No held block is
around the start. An ancestor below which nothing is held any more had a field one
short of its height, and every ancestor promised what its other half has. -/
structure Poised (maxOrder : Nat) (before : List EmiBuf) (taken : List Node) (start : Node) :
    Prop where
  outside : ∀ other, Within start other → other ≠ start → ∀ block ∈ taken, ¬ Within other block
  emptied : ∀ other, Within other (root maxOrder) → Within start other → other ≠ start →
    (∀ block ∈ taken, ¬ Within block other) → orders before other.code = other.height - 1
  bounded : ∀ other, Within other (root maxOrder) → Within start other → other ≠ start →
    ∀ child, child = other.left ∨ child = other.right → ¬ Within start child →
      0 ≤ orders before child.code → orders before child.code ≤ orders before other.code

/-- Climbing one level keeps the walk's state. -/
theorem Rising.climb {maxOrder : Nat} {before : List EmiBuf} {taken : List Node} {start : Node}
    (poised : Poised maxOrder before taken start) {top : List EmiBuf} {node : Node}
    (inTree : Within node (root maxOrder)) (below : node.height < maxOrder)
    (rising : Rising maxOrder before taken start top node) :
    Rising maxOrder before taken start (assign top node.parent.code (mergedAt top node))
      node.parent := by
  have parentIn : Within node.parent (root maxOrder) := parent_in_tree inTree below
  have siblingIn : Within node.sibling (root maxOrder) := sibling_in_tree inTree below
  have positive := (code_bounds inTree).1
  have startHigher : node.parent ≠ start := fun same =>
    parent_not_within node (same ▸ rising.climbed)
  have startBelow : Within start node.parent := within_trans rising.climbed (within_parent node)
  have startAside : ¬ Within start node.sibling := by
    intro contained
    rcases child_cases node with ⟨own, side⟩ | ⟨own, side⟩
    · exact halves_apart (own ▸ rising.climbed) (side ▸ contained)
    · exact halves_apart (side ▸ contained) (own ▸ rising.climbed)
  have old : orders top node.parent.code = orders before node.parent.code :=
    rising.untouched node.parent parentIn fun path => parent_not_within node path.2.2
  have siblingOld : orders top node.sibling.code = orders before node.sibling.code :=
    rising.untouched node.sibling siblingIn fun path => startAside path.1
  have siblingSide : node.sibling = node.parent.left ∨ node.sibling = node.parent.right := by
    rcases child_cases node with ⟨_, side⟩ | ⟨_, side⟩
    · exact .inr side
    · exact .inl side
  have reading (other : Node) (otherIn : Within other (root maxOrder)) :=
    orders_assign_node (mergedAt top node) rising.sized parentIn otherIn
  have childrenRead (other : Node) (otherIn : Within other (root maxOrder)) :=
    children_assign_node (mergedAt top node) rising.sized parentIn otherIn
  refine ⟨sized_assign _ _ rising.sized, ?_, ?_, ?_, startBelow⟩
  · intro code
    rw [offset_assign]
    exact rising.offsets code
  · intro other otherIn notAbove
    by_cases same : other = node.parent
    · subst same
      have children := childrenRead node.parent otherIn (Nat.succ_pos _) notAbove
      apply merged_ample
      · exact rising.settled node inTree (half_not_above positive (.inl (within_refl node)))
      · exact rising.settled node.sibling siblingIn
          (half_not_above positive (.inr (within_refl node.sibling)))
      · exact poised.outside node.parent startBelow startHigher
      · intro none
        rw [old, poised.emptied node.parent parentIn startBelow startHigher none]
        simp only [Node.parent]
        omega
      · rw [old, siblingOld]
        exact poised.bounded node.parent parentIn startBelow startHigher node.sibling siblingSide
          startAside
      · rw [reading node.parent parentIn, if_pos rfl]
      · exact children.1
      · exact children.2
    · have earlier : ¬ (Within node other ∧ other ≠ node) := by
        rintro ⟨upper, different⟩
        exact notAbove ⟨parent_within upper (fun equal => different equal.symm), same⟩
      exact (rising.settled other otherIn earlier).transfer
        (by rw [reading other otherIn, if_neg same])
        (fun inner => childrenRead other otherIn inner notAbove) (fun _ _ => Iff.rfl) id
  · intro other otherIn offPath
    have different : other ≠ node.parent := by
      rintro rfl
      exact offPath ⟨startBelow, startHigher, within_refl node.parent⟩
    rw [reading other otherIn, if_neg different]
    apply rising.untouched other otherIn
    rintro ⟨upper, apart, lower⟩
    exact offPath ⟨upper, apart, within_trans lower (within_parent node)⟩

/-- Marking a node and walking up from it completes and leaves every field ample, when
the marked array is ample except strictly above the node. -/
theorem marked_ample {maxOrder : Nat} {top : List EmiBuf} {remaining : List Node} (mark : Int)
    {start : Node} (startIn : Within start (root maxOrder)) (sized : Sized maxOrder top)
    (settled : ∀ other, Within other (root maxOrder) → ¬ (Within start other ∧ other ≠ start) →
      Ample (orders (assign top start.code mark)) remaining other)
    (poised : Poised maxOrder (assign top start.code mark) remaining start) :
    ∃ updated, (setOrder top (pointer start.code) mark).bind
        (fun marked => updateBufOrder marked (pointer start.code) start.height maxOrder) =
        some updated ∧ Sized maxOrder updated ∧
      (∀ code, (entry updated code).blkOffset = (entry top code).blkOffset) ∧
      ∀ node, Within node (root maxOrder) → Ample (orders updated) remaining node := by
  obtain ⟨positive, inside⟩ := node_stored sized startIn
  obtain ⟨updated, walked, finished⟩ := updateLoop_rule
    (fun top' node => Rising maxOrder (assign top start.code mark) remaining start top' node)
    (fun _ _ rising => rising.sized)
    (fun _ _ inTree below rising => rising.climb poised inTree below)
    (assign top start.code mark) start startIn
    ⟨sized_assign _ _ sized, fun _ => rfl, settled, fun _ _ _ => rfl, within_refl start⟩
  refine ⟨updated, ?_, finished.sized, ?_, ?_⟩
  · rw [setOrder_pointer mark positive inside]
    exact walked
  · intro code
    rw [finished.offsets, offset_assign]
  · intro node inTree
    refine finished.settled node inTree ?_
    rintro ⟨above, different⟩
    exact different (within_antisymm inTree above)

end Emilib.BuddyTree
