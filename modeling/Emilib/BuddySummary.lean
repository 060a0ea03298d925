import Emilib.BuddyNodes

/-!
# When the buddy tree's order fields summarize the live blocks

A node's order field should be the order of the largest free block below it: its
own height when nothing below it is held, the flipped height when it is held as
a whole or its halves are both full, and otherwise the larger of its halves. An
allocation descends by these fields, so it returns a node that meets no live
block as long as they are exact.

The upward walk of an update keeps them exact except in one branch. When both
children have equal nonnegative fields it increments the parent. That is right
when both children are wholly free; when they are equally and only partly free
the parent then promises a block that does not exist. `CleanMerge` excludes
just that case, and every run whose updates are clean keeps its live blocks
disjoint. A run of five requests in a tree of order two shows the overlap.
-/

namespace Emilib.BuddyTree

open Node

/-- The summary of a node whose halves are summarized by the two arguments. -/
def combined (height : Nat) (leftOrder rightOrder : Int) : Int :=
  if leftOrder < 0 ∧ rightOrder < 0 then flipOrder height else max leftOrder rightOrder

theorem combined_comm (height : Nat) (leftOrder rightOrder : Int) :
    combined height leftOrder rightOrder = combined height rightOrder leftOrder := by
  simp only [combined]
  split <;> split <;> omega

/-- The order field of a node is exact for the held blocks. Below a held block
nothing is held, so its descendants count as wholly free. -/
structure Exact (ord : Nat → Int) (taken : List Node) (node : Node) : Prop where
  whole : (∀ block ∈ taken, ¬ Within block node) → ord node.code = node.height
  held : node ∈ taken → ord node.code = flipOrder node.height
  split : node ∉ taken → (∃ block ∈ taken, Within block node) →
    ord node.code = combined node.height (ord node.left.code) (ord node.right.code)

/-- Exactness of a node depends on its own field and its children's. -/
theorem Exact.transfer {ord updated : Nat → Int} {taken remaining : List Node} {node : Node}
    (exact : Exact ord taken node) (own : updated node.code = ord node.code)
    (children : 0 < node.height → updated node.left.code = ord node.left.code ∧
      updated node.right.code = ord node.right.code)
    (membership : node ∈ remaining ↔ node ∈ taken)
    (below : ∀ block, Within block node → (block ∈ remaining ↔ block ∈ taken)) :
    Exact updated remaining node where
  whole := by
    intro none
    rw [own]
    exact exact.whole (fun block member contained =>
      none block ((below block contained).mpr member) contained)
  held := by
    intro member
    rw [own]
    exact exact.held (membership.mp member)
  split := by
    rintro absent ⟨block, member, contained⟩
    have different : block ≠ node := fun same => absent (same ▸ member)
    have inner : 0 < node.height := by
      rcases Nat.eq_zero_or_pos node.height with leaf | inner
      · exact absurd (within_same_height contained (by have low := contained.1; omega)) different
      · exact inner
    obtain ⟨left, right⟩ := children inner
    rw [own, left, right]
    exact exact.split (fun present => absent (membership.mpr present))
      ⟨block, (below block contained).mp member, contained⟩

/-- Exact fields never promise more than a node's height, and promise less than
it as soon as something below the node is held.

The induction is on the height: a split node's field is a flipped order or the
larger of its halves, which are one lower. -/
theorem exact_bound {ord : Nat → Int} {taken : List Node} (node : Node)
    (exact : ∀ inner, Within inner node → Exact ord taken inner) :
    ord node.code ≤ node.height ∧
      ((∃ block ∈ taken, Within block node) → ord node.code < node.height) := by
  generalize level : node.height = height
  induction height generalizing node with
  | zero =>
    have own := exact node (within_refl node)
    by_cases used : ∃ block ∈ taken, Within block node
    · obtain ⟨block, member, contained⟩ := used
      have same : block = node := within_same_height contained (by have low := contained.1; omega)
      have flipped := own.held (same ▸ member)
      simp only [flipOrder, level] at flipped
      exact ⟨by omega, fun _ => by omega⟩
    · have free := own.whole (fun block member contained => used ⟨block, member, contained⟩)
      rw [level] at free
      exact ⟨Int.le_of_eq free, fun held => absurd held used⟩
  | succ height inductionHypothesis =>
    have own := exact node (within_refl node)
    by_cases used : ∃ block ∈ taken, Within block node
    · have strict : ord node.code < (height + 1 : Nat) := by
        by_cases member : node ∈ taken
        · have flipped := own.held member
          simp only [flipOrder, level] at flipped
          omega
        · have inner : 0 < node.height := by omega
          have leftBound := (inductionHypothesis node.left
            (fun below contained => exact below (within_trans contained (left_within node inner)))
            (by simp [left, level])).1
          have rightBound := (inductionHypothesis node.right
            (fun below contained => exact below (within_trans contained (right_within node inner)))
            (by simp [right, level])).1
          rw [own.split member used, combined, flipOrder, level]
          split <;> omega
      exact ⟨Int.le_of_lt strict, fun _ => strict⟩
    · have free := own.whole (fun block member contained => used ⟨block, member, contained⟩)
      rw [level] at free
      exact ⟨Int.le_of_eq free, fun held => absurd held used⟩

/-- Above a single held block the field of a node is one short of its height: the half
with the block is not wholly free, and the other half is. -/
theorem exact_single {ord : Nat → Int} {taken : List Node} {node block : Node}
    (exact : ∀ inner, Within inner node → Exact ord taken inner) (member : block ∈ taken)
    (contained : Within block node) (absent : node ∉ taken)
    (only : ∀ other ∈ taken, Within other node → other = block) :
    ord node.code = node.height - 1 := by
  have different : block ≠ node := fun same => absent (same ▸ member)
  have inner : 0 < node.height := by
    rcases Nat.eq_zero_or_pos node.height with leaf | inner
    · exact absurd (within_same_height contained (by have low := contained.1; omega)) different
    · exact inner
  have leftBelow := left_within node inner
  have rightBelow := right_within node inner
  have leftHeight : (node.left.height : Int) = node.height - 1 := by
    simp only [left]
    omega
  have rightHeight : (node.right.height : Int) = node.height - 1 := by
    simp only [right]
    omega
  have used (half : Node) (below : Within half node) (holds : Within block half) :
      ord half.code < half.height :=
    (exact_bound half (fun lower deeper => exact lower (within_trans deeper below))).2
      ⟨block, member, holds⟩
  have free (half : Node) (below : Within half node) (without : ¬ Within block half) :
      ord half.code = half.height := by
    apply (exact half below).whole
    intro other held deeper
    exact without (only other held (within_trans deeper below) ▸ deeper)
  rw [(exact node (within_refl node)).split absent ⟨block, member, contained⟩, combined]
  rcases within_child contained different with inLeft | inRight
  · have short := used node.left leftBelow inLeft
    have whole := free node.right rightBelow fun inRight => halves_apart inLeft inRight
    rw [if_neg (by omega)]
    omega
  · have short := used node.right rightBelow inRight
    have whole := free node.left leftBelow fun inLeft => halves_apart inLeft inRight
    rw [if_neg (by omega)]
    omega

/-- Above a requested order, a node outside all held blocks with a large enough
exact field has a child with both properties: the one `get_emi_buf` takes. -/
theorem exact_descends {maxOrder order : Nat} {top : List EmiBuf} {taken : List Node} {node : Node}
    (sized : Sized maxOrder top)
    (exact : ∀ inner, Within inner (root maxOrder) → Exact (orders top) taken inner)
    (inTree : Within node (root maxOrder)) (above : order < node.height)
    (promised : order ≤ orders top node.code) (outside : ∀ block ∈ taken, ¬ Within node block) :
    ∃ child, (child = node.left ∨ child = node.right) ∧
      (order ≤ orders top child.code ∧ ∀ block ∈ taken, ¬ Within child block) ∧
      nextChild top order (pointer node.code) = some (pointer child.code) := by
  have inner : 0 < node.height := by omega
  have own := exact node inTree
  have absent : node ∉ taken := fun member => outside node member (within_refl node)
  obtain ⟨leftIn, rightIn⟩ := children_within_root inTree inner
  have enough : ¬ (orders top node.left.code < order ∧ orders top node.right.code < order) := by
    rintro ⟨leftSmall, rightSmall⟩
    by_cases used : ∃ block ∈ taken, Within block node
    · rw [own.split absent used, combined, flipOrder] at promised
      split at promised <;> omega
    · have free := (exact node.left leftIn).whole (fun block member contained =>
        used ⟨block, member, within_trans contained (left_within node inner)⟩)
      simp only [left] at free leftSmall
      omega
  have childOutside (child : Node) (side : child = node.left ∨ child = node.right)
      (large : order ≤ orders top child.code) : ∀ block ∈ taken, ¬ Within child block := by
    intro block member contained
    have childBelow : Within child node := by
      rcases side with rfl | rfl
      · exact left_within node inner
      · exact right_within node inner
    have childHeight : child.height + 1 = node.height := by
      rcases side with rfl | rfl <;> simp only [left, right] <;> omega
    rcases above_comparable childBelow contained with upward | downward
    · exact outside block member upward
    · have blockBelow : block.height < node.height := by
        rcases Nat.lt_or_eq_of_le downward.1 with lower | level
        · exact lower
        · exact absurd (within_same_height downward level ▸ member) absent
      have same : child = block := within_same_height contained (by
        have low := contained.1
        omega)
      have childIn : Within child (root maxOrder) := within_trans childBelow inTree
      have flipped := (exact child childIn).held (same ▸ member)
      simp only [flipOrder] at flipped
      omega
  have chosen := nextChild_pointer (order : Int) sized inTree inner
  by_cases leftSmall : orders top node.left.code < order
  · rw [if_pos leftSmall] at chosen
    have large : order ≤ orders top node.right.code := by omega
    exact ⟨node.right, Or.inr rfl, ⟨large, childOutside _ (Or.inr rfl) large⟩, chosen⟩
  · rw [if_neg leftSmall] at chosen
    have leftLarge : order ≤ orders top node.left.code := by omega
    by_cases rightSmall : orders top node.right.code < order
    · rw [if_pos rightSmall] at chosen
      exact ⟨node.left, Or.inl rfl, ⟨leftLarge, childOutside _ (Or.inl rfl) leftLarge⟩, chosen⟩
    · rw [if_neg rightSmall] at chosen
      have rightLarge : order ≤ orders top node.right.code := by omega
      by_cases ordered : orders top node.left.code ≤ orders top node.right.code
      · rw [if_pos ordered] at chosen
        exact ⟨node.left, Or.inl rfl, ⟨leftLarge, childOutside _ (Or.inl rfl) leftLarge⟩, chosen⟩
      · rw [if_neg ordered] at chosen
        exact ⟨node.right, Or.inr rfl, ⟨rightLarge, childOutside _ (Or.inr rfl) rightLarge⟩, chosen⟩

/-- With exact fields `get_emi_buf` answers NULL or a node of the requested
height that no held block meets. -/
theorem getEmiBuf_exact {maxOrder : Nat} {top : List EmiBuf} {taken : List Node} (order : Nat)
    (sized : Sized maxOrder top)
    (exact : ∀ inner, Within inner (root maxOrder) → Exact (orders top) taken inner)
    (inTree : ∀ block ∈ taken, Within block (root maxOrder)) :
    getEmiBuf top order maxOrder = some none ∨
      ∃ found, getEmiBuf top order maxOrder = some (some (pointer found.code)) ∧
        Within found (root maxOrder) ∧ found.height = order ∧
        ∀ block ∈ taken, ¬ Within found block ∧ ¬ Within block found := by
  have limit := (exact_bound (root maxOrder) exact).1
  by_cases small : orders top 1 < order
  · exact Or.inl (getEmiBuf_refused sized small)
  · right
    have promised : (order : Int) ≤ orders top 1 := by omega
    have high : order ≤ maxOrder := by
      simp only [root] at limit
      omega
    have rootOutside : ∀ block ∈ taken, ¬ Within (root maxOrder) block := by
      intro block member contained
      have same : root maxOrder = block := within_antisymm contained (inTree block member)
      have flipped := (exact (root maxOrder) (within_refl _)).held (same ▸ member)
      simp only [flipOrder, root] at flipped
      omega
    obtain ⟨found, chosen, foundIn, foundHeight, _, outside⟩ := getEmiBuf_found
      (fun node => order ≤ orders top node.code ∧ ∀ block ∈ taken, ¬ Within node block)
      sized high promised
      (fun node nodeIn above held => exact_descends sized exact nodeIn above held.1 held.2)
      ⟨promised, rootOutside⟩
    refine ⟨found, chosen, foundIn, foundHeight, fun block member => ⟨outside block member, ?_⟩⟩
    intro contained
    have below := (exact_bound found
      (fun inner lower => exact inner (within_trans lower foundIn))).2 ⟨block, member, contained⟩
    omega

end Emilib.BuddyTree
