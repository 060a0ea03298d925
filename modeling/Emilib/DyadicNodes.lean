import Mathlib.Algebra.Order.Ring.Int

/-!
# Heap-numbered nodes of a complete binary tree

The nodes of a complete binary tree are numbered from one: node `c` has the
children `2c` and `2c + 1`, and the parent `c / 2`. With its height above the
leaves, a number identifies the set of leaves below it, since dividing a leaf's
number by two once for each level climbs to its ancestor.

Containment of nodes is therefore a division. It is a partial order, it is
laminar (two nodes share a leaf only when one contains the other), and a node
strictly below another lies in exactly one of the two halves.
-/

namespace Emilib

/-- A node by its height above the leaves and its heap number. -/
structure Node where
  height : Nat
  code : Nat
deriving DecidableEq, Repr

namespace Node

/-- The root of the tree of the given height. -/
def root (height : Nat) : Node := ⟨height, 1⟩

def parent (node : Node) : Node := ⟨node.height + 1, node.code / 2⟩

def left (node : Node) : Node := ⟨node.height - 1, 2 * node.code⟩

def right (node : Node) : Node := ⟨node.height - 1, 2 * node.code + 1⟩

/-- The other child of a node's parent. -/
def sibling (node : Node) : Node :=
  ⟨node.height, if node.code % 2 = 0 then node.code + 1 else node.code - 1⟩

/-- Containment: climbing from the inner node to the outer node's height arrives
at the outer node. -/
def Within (inner outer : Node) : Prop :=
  inner.height ≤ outer.height ∧ inner.code / 2 ^ (outer.height - inner.height) = outer.code

instance (inner outer : Node) : Decidable (Within inner outer) :=
  inferInstanceAs (Decidable (_ ∧ _))

/-- A leaf number lies below a node. -/
def Holds (node : Node) (leaf : Nat) : Prop := leaf / 2 ^ node.height = node.code

theorem within_refl (node : Node) : Within node node := by
  simp [Within]

theorem within_trans {inner middle outer : Node} (lower : Within inner middle)
    (upper : Within middle outer) : Within inner outer := by
  refine ⟨Nat.le_trans lower.1 upper.1, ?_⟩
  have split : outer.height - inner.height =
      (middle.height - inner.height) + (outer.height - middle.height) := by
    have first := lower.1
    have second := upper.1
    omega
  rw [split, Nat.pow_add, ← Nat.div_div_eq_div_mul, lower.2, upper.2]

theorem within_antisymm {left right : Node} (forward : Within left right)
    (backward : Within right left) : left = right := by
  have heights : left.height = right.height := Nat.le_antisymm forward.1 backward.1
  have codes : left.code = right.code := by
    have climbed := forward.2
    rwa [heights, Nat.sub_self, Nat.pow_zero, Nat.div_one] at climbed
  cases left
  cases right
  simp_all

/-- Nodes of one height contain one another only when they are equal. -/
theorem within_same_height {left right : Node} (contained : Within left right)
    (heights : left.height = right.height) : left = right := by
  refine within_antisymm contained ⟨Nat.le_of_eq heights.symm, ?_⟩
  have climbed := contained.2
  rw [heights, Nat.sub_self, Nat.pow_zero, Nat.div_one] at climbed
  rw [heights, Nat.sub_self, Nat.pow_zero, Nat.div_one, climbed]

theorem within_parent (node : Node) : Within node node.parent := by
  simp [Within, parent]

/-- Above a node other than itself lies its parent. -/
theorem parent_within {inner outer : Node} (contained : Within inner outer)
    (different : inner ≠ outer) : Within inner.parent outer := by
  have strict : inner.height < outer.height := by
    rcases Nat.lt_or_eq_of_le contained.1 with below | same
    · exact below
    · exact absurd (within_same_height contained same) different
  refine ⟨strict, ?_⟩
  have split : outer.height - inner.height = 1 + (outer.height - (inner.height + 1)) := by omega
  have climbed := contained.2
  rw [split, Nat.pow_add, ← Nat.div_div_eq_div_mul, Nat.pow_one] at climbed
  exact climbed

theorem left_parent (node : Node) (inner : 0 < node.height) : node.left.parent = node := by
  cases node
  simp only [left, parent, mk.injEq] at *
  omega

theorem right_parent (node : Node) (inner : 0 < node.height) : node.right.parent = node := by
  cases node
  simp only [right, parent, mk.injEq] at *
  omega

/-- A node is one of the two children of its parent, and its sibling the other. -/
theorem child_cases (node : Node) :
    (node = node.parent.left ∧ node.sibling = node.parent.right) ∨
      (node = node.parent.right ∧ node.sibling = node.parent.left) := by
  cases node with
  | mk height code =>
    simp only [parent, left, right, sibling, mk.injEq]
    by_cases even : code % 2 = 0
    · simp only [even, if_true]
      omega
    · simp only [even, if_false]
      omega

/-- Strictly below an inner node lies one of its children. -/
theorem within_child {inner outer : Node} (contained : Within inner outer)
    (different : inner ≠ outer) : Within inner outer.left ∨ Within inner outer.right := by
  have strict : inner.height < outer.height := by
    rcases Nat.lt_or_eq_of_le contained.1 with below | same
    · exact below
    · exact absurd (within_same_height contained same) different
  have climbed := contained.2
  have split : outer.height - inner.height = (outer.height - 1 - inner.height) + 1 := by omega
  rw [split, Nat.pow_succ, ← Nat.div_div_eq_div_mul] at climbed
  have low : inner.height ≤ outer.height - 1 := by omega
  rcases Nat.mod_two_eq_zero_or_one
      (inner.code / 2 ^ (outer.height - 1 - inner.height)) with even | odd
  · exact Or.inl ⟨low, by simp only [left]; omega⟩
  · exact Or.inr ⟨low, by simp only [right]; omega⟩

theorem left_within (node : Node) (inner : 0 < node.height) : Within node.left node := by
  have climbed : Within node.left node.left.parent := within_parent node.left
  rwa [left_parent node inner] at climbed

theorem right_within (node : Node) (inner : 0 < node.height) : Within node.right node := by
  have climbed : Within node.right node.right.parent := within_parent node.right
  rwa [right_parent node inner] at climbed

/-- Nothing lies in both halves of a node. -/
theorem halves_apart {node inner : Node} (leftward : Within inner node.left)
    (rightward : Within inner node.right) : False := by
  have first := leftward.2
  have second := rightward.2
  simp only [left, right] at first second
  omega

/-- Two nodes above one node are comparable. -/
theorem above_comparable {inner left right : Node} (first : Within inner left)
    (second : Within inner right) : Within left right ∨ Within right left := by
  have climb (low high : Node) (lower : Within inner low) (upper : Within inner high)
      (ordered : low.height ≤ high.height) : Within low high := by
    refine ⟨ordered, ?_⟩
    have split : high.height - inner.height =
        (low.height - inner.height) + (high.height - low.height) := by
      have bound := lower.1
      omega
    have climbed := upper.2
    rwa [split, Nat.pow_add, ← Nat.div_div_eq_div_mul, lower.2] at climbed
  rcases Nat.le_total left.height right.height with ordered | ordered
  · exact Or.inl (climb left right first second ordered)
  · exact Or.inr (climb right left second first ordered)

/-- Laminarity: nodes that share a leaf are comparable. -/
theorem shared_leaf_comparable {left right : Node} {leaf : Nat} (first : left.Holds leaf)
    (second : right.Holds leaf) : Within left right ∨ Within right left := by
  have firstAbove : Within ⟨0, leaf⟩ left := ⟨Nat.zero_le _, by simpa [Holds] using first⟩
  have secondAbove : Within ⟨0, leaf⟩ right := ⟨Nat.zero_le _, by simpa [Holds] using second⟩
  exact above_comparable firstAbove secondAbove

/-- The leaves of a node are a range of leaf numbers. -/
theorem holds_iff (node : Node) (leaf : Nat) :
    node.Holds leaf ↔ node.code * 2 ^ node.height ≤ leaf ∧
      leaf < node.code * 2 ^ node.height + 2 ^ node.height := by
  have positive : 0 < 2 ^ node.height := Nat.pow_pos (by decide)
  rw [Holds, Nat.div_eq_iff positive]
  omega

/-- The leaves of an inner node are those of its two children. -/
theorem holds_children (node : Node) (inner : 0 < node.height) (leaf : Nat) :
    node.Holds leaf ↔ node.left.Holds leaf ∨ node.right.Holds leaf := by
  have split : leaf / 2 ^ node.height = leaf / 2 ^ (node.height - 1) / 2 := by
    rw [Nat.div_div_eq_div_mul, ← Nat.pow_succ, Nat.succ_eq_add_one, Nat.sub_add_cancel inner]
  simp only [Holds, left, right]
  omega

/-- No leaf is below both children. -/
theorem children_apart (node : Node) (leaf : Nat) :
    ¬ (node.left.Holds leaf ∧ node.right.Holds leaf) := by
  simp only [Holds, left, right]
  omega

/-- A node inside another starts in the other's leaf range. -/
theorem within_start {inner outer : Node} (contained : Within inner outer) :
    outer.Holds (inner.code * 2 ^ inner.height) := by
  have positive : 0 < 2 ^ inner.height := Nat.pow_pos (by decide)
  have split : outer.height = inner.height + (outer.height - inner.height) := by
    have low := contained.1
    omega
  rw [Holds, split, Nat.pow_add, ← Nat.div_div_eq_div_mul, Nat.mul_div_cancel _ positive]
  exact contained.2

/-- Nodes of which neither contains the other have disjoint leaf ranges. A leaf
at the larger of their starts would otherwise be shared. -/
theorem apart_ranges {left right : Node} (forward : ¬ Within left right)
    (backward : ¬ Within right left) :
    left.code * 2 ^ left.height + 2 ^ left.height ≤ right.code * 2 ^ right.height ∨
      right.code * 2 ^ right.height + 2 ^ right.height ≤ left.code * 2 ^ left.height := by
  have leftPositive : 0 < 2 ^ left.height := Nat.pow_pos (by decide)
  have rightPositive : 0 < 2 ^ right.height := Nat.pow_pos (by decide)
  have unshared (leaf : Nat) (first : left.Holds leaf) (second : right.Holds leaf) : False := by
    rcases shared_leaf_comparable first second with upward | downward
    · exact forward upward
    · exact backward downward
  by_cases before :
      left.code * 2 ^ left.height + 2 ^ left.height ≤ right.code * 2 ^ right.height
  · exact Or.inl before
  · by_cases after :
        right.code * 2 ^ right.height + 2 ^ right.height ≤ left.code * 2 ^ left.height
    · exact Or.inr after
    · exfalso
      rcases Nat.le_total (left.code * 2 ^ left.height) (right.code * 2 ^ right.height) with
        ordered | ordered
      · exact unshared (right.code * 2 ^ right.height)
          ((holds_iff left _).mpr (by omega)) ((holds_iff right _).mpr (by omega))
      · exact unshared (left.code * 2 ^ left.height)
          ((holds_iff left _).mpr (by omega)) ((holds_iff right _).mpr (by omega))

/-- Nodes with disjoint leaf ranges do not contain one another. -/
theorem ranges_apart {left right : Node}
    (ranges : left.code * 2 ^ left.height + 2 ^ left.height ≤ right.code * 2 ^ right.height ∨
      right.code * 2 ^ right.height + 2 ^ right.height ≤ left.code * 2 ^ left.height) :
    ¬ Within left right ∧ ¬ Within right left := by
  have leftPositive : 0 < 2 ^ left.height := Nat.pow_pos (by decide)
  have rightPositive : 0 < 2 ^ right.height := Nat.pow_pos (by decide)
  constructor
  · intro contained
    obtain ⟨low, high⟩ := (holds_iff _ _).mp (within_start contained)
    omega
  · intro contained
    obtain ⟨low, high⟩ := (holds_iff _ _).mp (within_start contained)
    omega

/-- The numbers of the nodes of one height inside a tree. -/
theorem within_root_iff (node : Node) (height : Nat) :
    Within node (root height) ↔
      node.height ≤ height ∧ 2 ^ (height - node.height) ≤ node.code ∧
        node.code < 2 * 2 ^ (height - node.height) := by
  simp only [Within, root]
  constructor
  · rintro ⟨low, climbed⟩
    have positive : 0 < 2 ^ (height - node.height) := Nat.pow_pos (by decide)
    rw [Nat.div_eq_iff positive] at climbed
    omega
  · rintro ⟨low, atLeast, below⟩
    have positive : 0 < 2 ^ (height - node.height) := Nat.pow_pos (by decide)
    refine ⟨low, ?_⟩
    rw [Nat.div_eq_iff positive]
    omega

/-- The children of an inner node of a tree are in the tree. -/
theorem children_within_root {node : Node} {height : Nat} (inTree : Within node (root height))
    (inner : 0 < node.height) :
    Within node.left (root height) ∧ Within node.right (root height) :=
  ⟨within_trans (left_within node inner) inTree, within_trans (right_within node inner) inTree⟩

/-- Heap numbers of a tree start at one and stay below the leaves' upper end. -/
theorem code_bounds {node : Node} {height : Nat} (inTree : Within node (root height)) :
    0 < node.code ∧ node.code < 2 ^ (height + 1) := by
  obtain ⟨low, atLeast, below⟩ := (within_root_iff node height).mp inTree
  have positive : 0 < 2 ^ (height - node.height) := Nat.pow_pos (by decide)
  have grows : 2 ^ (height - node.height) ≤ 2 ^ height :=
    Nat.pow_le_pow_right (by decide) (Nat.sub_le _ _)
  rw [Nat.pow_succ]
  omega

/-- Every heap number of a tree is a node's, of the height its logarithm leaves. -/
theorem code_in_tree {code height : Nat} (positive : 0 < code) (below : code < 2 ^ (height + 1)) :
    Within ⟨height - code.log2, code⟩ (root height) := by
  have counted : code ≠ 0 := by omega
  have depth : code.log2 < height + 1 := (Nat.log2_lt counted).mpr below
  have atLeast : 2 ^ code.log2 ≤ code := Nat.log2_self_le counted
  have under : code < 2 ^ (code.log2 + 1) := Nat.lt_log2_self
  rw [Nat.pow_succ, Nat.mul_comm] at under
  have exponent : height - (height - code.log2) = code.log2 := by omega
  rw [within_root_iff]
  refine ⟨Nat.sub_le _ _, ?_, ?_⟩
  · rw [exponent]
    exact atLeast
  · rw [exponent]
    exact under

/-- Distinct nodes of one tree have distinct heap numbers. -/
theorem code_injective {left right : Node} {height : Nat} (first : Within left (root height))
    (second : Within right (root height)) (same : left.code = right.code) : left = right := by
  obtain ⟨lowLeft, atLeastLeft, belowLeft⟩ := (within_root_iff left height).mp first
  obtain ⟨lowRight, atLeastRight, belowRight⟩ := (within_root_iff right height).mp second
  have separate (a b : Nat) (ordered : a < b) : 2 * 2 ^ a ≤ 2 ^ b := by
    rw [Nat.mul_comm, ← Nat.pow_succ]
    exact Nat.pow_le_pow_right (by decide) ordered
  have depths : height - left.height = height - right.height := by
    rcases Nat.lt_trichotomy (height - left.height) (height - right.height) with less | equal | more
    · have apart := separate _ _ less
      omega
    · exact equal
    · have apart := separate _ _ more
      omega
  have heights : left.height = right.height := by omega
  cases left
  cases right
  simp_all

end Node

end Emilib
