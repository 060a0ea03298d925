import Emilib.BuddyTree
import Emilib.DyadicNodes
import Emilib.Loops

/-!
# The buddy array by heap numbers

The array's index macros are the navigation of a heap-numbered tree shifted by
one: the entry of heap number `c` has index `c - 1`. Under that reading `SON`,
`DAUGHTER`, `PARENT` and `SIBLING` are the children, parent and sibling of a
node, and every access the walks make inside a complete tree is in bounds.

The two loops get one rule each. A descent that keeps a predicate of nodes ends
at a node of the requested height with that predicate; an upward walk that keeps
a predicate of the array and the current node ends with it at the root.
-/

namespace Emilib.BuddyTree

open Node

attribute [ext] EmiBuf

/-- The index of the entry with a heap number. -/
def pointer (code : Nat) : Int := code - 1

/-- The entry with a heap number. -/
def entry (top : List EmiBuf) (code : Nat) : EmiBuf := (top[code - 1]?).getD ⟨0, 0⟩

/-- The array after assigning the order field of one heap number. -/
def assign (top : List EmiBuf) (code : Nat) (order : Int) : List EmiBuf :=
  top.set (code - 1) { entry top code with order := order }

/-- The order fields by heap number. -/
def orders (top : List EmiBuf) (code : Nat) : Int := (entry top code).order

/-- The array of a tree with the given maximum order. -/
def Sized (maxOrder : Nat) (top : List EmiBuf) : Prop := top.length = 2 ^ (maxOrder + 1) - 1

theorem son_pointer (node : Node) : son (pointer node.code) = pointer node.left.code := by
  simp only [son, pointer, left]
  omega

theorem daughter_pointer (node : Node) :
    daughter (pointer node.code) = pointer node.right.code := by
  simp only [daughter, pointer, right]
  omega

theorem parent_pointer (node : Node) :
    parent (pointer node.code) = pointer node.parent.code := by
  simp only [parent, pointer, Node.parent]
  omega

theorem sibling_pointer (node : Node) (positive : 0 < node.code) :
    sibling (pointer node.code) = pointer node.sibling.code := by
  by_cases even : node.code % 2 = 0
  · have same : parent (pointer node.code) = parent (pointer node.code + 1) := by
      simp only [parent, pointer]
      omega
    rw [sibling, if_pos same, Node.sibling, if_pos even]
    simp only [pointer]
    omega
  · have different : ¬ parent (pointer node.code) = parent (pointer node.code + 1) := by
      simp only [parent, pointer]
      omega
    rw [sibling, if_neg different, Node.sibling, if_neg even]
    simp only [pointer]
    omega

/-- The index of a heap number names its place in the array. -/
theorem pointer_toNat (code : Nat) : (pointer code).toNat = code - 1 := by
  simp only [pointer]
  omega

theorem pointer_nonneg {code : Nat} (positive : 0 < code) : 0 ≤ pointer code := by
  simp only [pointer]
  omega

/-- An entry inside the array is loaded. -/
theorem load_pointer {top : List EmiBuf} {code : Nat} (positive : 0 < code)
    (inside : code ≤ top.length) : load top (pointer code) = some (entry top code) := by
  have stored : code - 1 < top.length := by omega
  simp [load, entry, pointer_toNat, pointer_nonneg positive, List.getElem?_eq_getElem stored]

/-- Storing through a heap number's index sets that entry. -/
theorem store_pointer {top : List EmiBuf} {code : Nat} (value : EmiBuf) (positive : 0 < code)
    (inside : code ≤ top.length) :
    store top (pointer code) value = some (top.set (code - 1) value) := by
  have stored : code - 1 < top.length := by omega
  simp [store, pointer_toNat, pointer_nonneg positive, stored]

/-- An entry inside the array is assigned. -/
theorem setOrder_pointer {top : List EmiBuf} {code : Nat} (order : Int) (positive : 0 < code)
    (inside : code ≤ top.length) :
    setOrder top (pointer code) order = some (assign top code order) := by
  simp [setOrder, load_pointer positive inside, store_pointer _ positive inside, assign]

@[simp] theorem length_assign (top : List EmiBuf) (code : Nat) (order : Int) :
    (assign top code order).length = top.length := by
  simp [assign]

/-- Reading back a set entry. -/
theorem entry_set {top : List EmiBuf} {code other : Nat} (value : EmiBuf) (positive : 0 < code)
    (inside : code ≤ top.length) (counted : 0 < other) :
    entry (top.set (code - 1) value) other = if other = code then value else entry top other := by
  have stored : code - 1 < top.length := by omega
  by_cases same : other = code
  · subst same
    simp [entry, stored]
  · have apart : code - 1 ≠ other - 1 := by omega
    simp [entry, List.getElem?_set_ne apart, same]

/-- An assignment changes the order field of its own heap number only. -/
theorem orders_assign {top : List EmiBuf} {code other : Nat} (order : Int) (positive : 0 < code)
    (inside : code ≤ top.length) (counted : 0 < other) :
    orders (assign top code order) other = if other = code then order else orders top other := by
  rw [orders, assign, entry_set _ positive inside counted]
  by_cases same : other = code
  · rw [if_pos same, if_pos same]
  · rw [if_neg same, if_neg same, orders]

/-- Assignments leave every block offset. -/
theorem offset_assign (top : List EmiBuf) (code other : Nat) (order : Int) :
    (entry (assign top code order) other).blkOffset = (entry top other).blkOffset := by
  by_cases same : code - 1 = other - 1
  · by_cases stored : other - 1 < top.length
    · simp [entry, assign, same, stored]
    · simp [entry, assign, same, stored]
  · simp [entry, assign, List.getElem?_set_ne same]

/-- The heap number of a node of the tree is inside the array. -/
theorem node_stored {maxOrder : Nat} {top : List EmiBuf} {node : Node} (sized : Sized maxOrder top)
    (inTree : Within node (root maxOrder)) : 0 < node.code ∧ node.code ≤ top.length := by
  obtain ⟨positive, below⟩ := code_bounds inTree
  rw [sized]
  omega

theorem sized_assign {maxOrder : Nat} {top : List EmiBuf} (code : Nat) (order : Int)
    (sized : Sized maxOrder top) : Sized maxOrder (assign top code order) := by
  rw [Sized, length_assign]
  exact sized

/-- Below an inner node `get_emi_buf` continues with one of its children. -/
theorem nextChild_pointer {maxOrder : Nat} {top : List EmiBuf} {node : Node} (order : Int)
    (sized : Sized maxOrder top) (inTree : Within node (root maxOrder)) (inner : 0 < node.height) :
    nextChild top order (pointer node.code) = some (pointer
      (if orders top node.left.code < order then node.right
        else if orders top node.right.code < order then node.left
        else if orders top node.left.code ≤ orders top node.right.code then node.left
        else node.right).code) := by
  obtain ⟨leftIn, rightIn⟩ := children_within_root inTree inner
  obtain ⟨leftPositive, leftInside⟩ := node_stored sized leftIn
  obtain ⟨rightPositive, rightInside⟩ := node_stored sized rightIn
  simp only [nextChild, son_pointer, daughter_pointer, load_pointer leftPositive leftInside,
    load_pointer rightPositive rightInside, Option.bind_eq_bind, Option.bind_some, Option.pure_def]
  by_cases leftSmall : (entry top node.left.code).order < order
  · simp [orders, leftSmall]
  · by_cases rightSmall : (entry top node.right.code).order < order
    · simp [orders, leftSmall, rightSmall]
    · by_cases ordered : (entry top node.left.code).order ≤ (entry top node.right.code).order
      · simp [orders, leftSmall, rightSmall, ordered]
      · simp [orders, leftSmall, rightSmall, ordered]

/-- The descent rule. The predicate is handed from a node above the requested
height to the child the source continues with, so it holds of the node found;
the descent makes no access outside the array.

The induction is on the loop's level, which is the current node's height. -/
theorem descend_rule {maxOrder order : Nat} {top : List EmiBuf} (holds : Node → Prop)
    (handed : ∀ node, Within node (root maxOrder) → order < node.height → holds node →
      ∃ child, (child = node.left ∨ child = node.right) ∧ holds child ∧
        nextChild top order (pointer node.code) = some (pointer child.code))
    (node : Node) (inTree : Within node (root maxOrder)) (high : order ≤ node.height)
    (held : holds node) :
    ∃ found, Within found (root maxOrder) ∧ found.height = order ∧ holds found ∧
      descend top order (node.height + 1) (pointer node.code) = some (pointer found.code) := by
  generalize level : node.height = height at high
  induction height generalizing node with
  | zero =>
    have reached : order = 0 := by omega
    subst reached
    exact ⟨node, inTree, level, held, by simp [descend]⟩
  | succ height inductionHypothesis =>
    by_cases above : order < height + 1
    · obtain ⟨child, side, childHeld, continued⟩ := handed node inTree (by omega) held
      obtain ⟨leftIn, rightIn⟩ := children_within_root inTree (by omega)
      have childIn : Within child (root maxOrder) := by
        rcases side with rfl | rfl
        · exact leftIn
        · exact rightIn
      have childLevel : child.height = height := by
        rcases side with rfl | rfl <;> simp [left, right, level]
      obtain ⟨found, foundIn, foundHeight, foundHeld, descended⟩ :=
        inductionHypothesis child childIn childHeld childLevel (by omega)
      refine ⟨found, foundIn, foundHeight, foundHeld, ?_⟩
      rw [descend, if_pos (by omega), continued]
      exact descended
    · have reached : order = height + 1 := by omega
      subst reached
      exact ⟨node, inTree, level, held, by simp [descend]⟩

/-- `get_emi_buf` answers NULL when the root promises too little. -/
theorem getEmiBuf_refused {maxOrder order : Nat} {top : List EmiBuf} (sized : Sized maxOrder top)
    (small : orders top 1 < order) : getEmiBuf top order maxOrder = some none := by
  obtain ⟨positive, inside⟩ := node_stored sized (within_refl (root maxOrder))
  have loaded : load top 0 = some (entry top 1) := load_pointer positive inside
  have test : (entry top 1).order < order := small
  simp [getEmiBuf, loaded, test]

/-- When the root promises enough, `get_emi_buf` answers with the end of its descent. -/
theorem getEmiBuf_found {maxOrder order : Nat} {top : List EmiBuf} (holds : Node → Prop)
    (sized : Sized maxOrder top) (low : order ≤ maxOrder) (enough : order ≤ orders top 1)
    (handed : ∀ node, Within node (root maxOrder) → order < node.height → holds node →
      ∃ child, (child = node.left ∨ child = node.right) ∧ holds child ∧
        nextChild top order (pointer node.code) = some (pointer child.code))
    (held : holds (root maxOrder)) :
    ∃ found, getEmiBuf top order maxOrder = some (some (pointer found.code)) ∧
      Within found (root maxOrder) ∧ found.height = order ∧ holds found := by
  obtain ⟨positive, inside⟩ := node_stored sized (within_refl (root maxOrder))
  have loaded : load top 0 = some (entry top 1) := load_pointer positive inside
  have test : ¬ (entry top 1).order < order := by
    rw [Int.not_lt]
    exact enough
  obtain ⟨found, foundIn, foundHeight, foundHeld, descended⟩ :=
    descend_rule holds handed (root maxOrder) (within_refl _) low held
  have walked : descend top order (maxOrder + 1) 0 = some (pointer found.code) := descended
  exact ⟨found, by simp [getEmiBuf, loaded, test, walked], foundIn, foundHeight, foundHeld⟩

/-- Whatever the fields below the root are, `get_emi_buf` then answers with a node of
the requested height. -/
theorem getEmiBuf_node {maxOrder order : Nat} {top : List EmiBuf} (sized : Sized maxOrder top)
    (low : order ≤ maxOrder) (enough : order ≤ orders top 1) :
    ∃ found, getEmiBuf top order maxOrder = some (some (pointer found.code)) ∧
      Within found (root maxOrder) ∧ found.height = order := by
  obtain ⟨found, chosen, foundIn, foundHeight, _⟩ := getEmiBuf_found (fun _ => True) sized low
    enough (fun node inTree above _ => by
      have continued := nextChild_pointer (order : Int) sized inTree (by omega)
      refine ⟨_, ?_, True.intro, continued⟩
      split
      · exact .inr rfl
      · split
        · exact .inl rfl
        · split
          · exact .inl rfl
          · exact .inr rfl) True.intro
  exact ⟨found, chosen, foundIn, foundHeight⟩

/-- The value an iteration of the upward walk gives the parent of a node. -/
def mergedAt (top : List EmiBuf) (node : Node) : Int :=
  mergedOrder (node.height + 1) (orders top node.sibling.code) (orders top node.code)
    (orders top node.parent.code)

theorem parent_in_tree {maxOrder : Nat} {node : Node} (inTree : Within node (root maxOrder))
    (below : node.height < maxOrder) : Within node.parent (root maxOrder) := by
  refine parent_within inTree ?_
  intro same
  rw [same] at below
  exact Nat.lt_irrefl _ below

/-- A node below the root has its sibling in the tree. -/
theorem sibling_in_tree {maxOrder : Nat} {node : Node} (inTree : Within node (root maxOrder))
    (below : node.height < maxOrder) : Within node.sibling (root maxOrder) := by
  have parentIn : Within node.parent (root maxOrder) := parent_in_tree inTree below
  obtain ⟨leftIn, rightIn⟩ := children_within_root parentIn (Nat.succ_pos _)
  rcases child_cases node with ⟨_, other⟩ | ⟨_, other⟩
  · rw [other]
    exact rightIn
  · rw [other]
    exact leftIn

/-- An assignment to a node of the tree changes the field of that node only. -/
theorem orders_assign_node {maxOrder : Nat} {top : List EmiBuf} {node other : Node} (order : Int)
    (sized : Sized maxOrder top) (nodeIn : Within node (root maxOrder))
    (otherIn : Within other (root maxOrder)) :
    orders (assign top node.code order) other.code =
      if other = node then order else orders top other.code := by
  obtain ⟨positive, inside⟩ := node_stored sized nodeIn
  rw [orders_assign order positive inside (code_bounds otherIn).1]
  by_cases same : other = node
  · rw [if_pos (congrArg Node.code same), if_pos same]
  · rw [if_neg (fun codes => same (code_injective otherIn nodeIn codes)), if_neg same]

/-- An assignment to a node changes no field of the children of a node that is not
strictly above it. -/
theorem children_assign_node {maxOrder : Nat} {top : List EmiBuf} {node other : Node} (order : Int)
    (sized : Sized maxOrder top) (nodeIn : Within node (root maxOrder))
    (otherIn : Within other (root maxOrder)) (inner : 0 < other.height)
    (notAbove : ¬ (Within node other ∧ other ≠ node)) :
    orders (assign top node.code order) other.left.code = orders top other.left.code ∧
      orders (assign top node.code order) other.right.code = orders top other.right.code := by
  obtain ⟨leftIn, rightIn⟩ := children_within_root otherIn inner
  have lower (child : Node) (contained : Within child other) (short : child.height < other.height) :
      child ≠ node := by
    rintro rfl
    refine notAbove ⟨contained, ?_⟩
    rintro rfl
    exact Nat.lt_irrefl _ short
  rw [orders_assign_node order sized nodeIn leftIn, orders_assign_node order sized nodeIn rightIn,
    if_neg (lower _ (left_within other inner) (by simp only [left]; omega)),
    if_neg (lower _ (right_within other inner) (by simp only [right]; omega))]
  exact ⟨rfl, rfl⟩

/-- No node inside a node or its sibling is strictly above the node. -/
theorem half_not_above {node other : Node} (positive : 0 < node.code)
    (inHalf : Within other node ∨ Within other node.sibling) :
    ¬ (Within node other ∧ other ≠ node) := by
  rintro ⟨upper, different⟩
  rcases inHalf with lower | lower
  · exact different (within_antisymm lower upper)
  · have merged : node = node.sibling := within_same_height (within_trans upper lower) rfl
    have codes := congrArg Node.code merged
    simp only [Node.sibling] at codes
    split at codes <;> omega

/-- A parent is not inside its child. -/
theorem parent_not_within (node : Node) : ¬ Within node.parent node := by
  intro contained
  have low := contained.1
  simp only [Node.parent] at low
  omega

/-- One iteration at a node below the root assigns its parent and moves there. -/
theorem updateParent_pointer {maxOrder : Nat} {top : List EmiBuf} {node : Node}
    (sized : Sized maxOrder top) (inTree : Within node (root maxOrder))
    (below : node.height < maxOrder) :
    updateParent top (pointer node.code) (node.height + 1) =
      some (assign top node.parent.code (mergedAt top node), pointer node.parent.code) := by
  obtain ⟨positive, inside⟩ := node_stored sized inTree
  obtain ⟨siblingPositive, siblingInside⟩ := node_stored sized (sibling_in_tree inTree below)
  obtain ⟨parentPositive, parentInside⟩ := node_stored sized (parent_in_tree inTree below)
  simp only [updateParent, sibling_pointer node positive, parent_pointer,
    load_pointer positive inside, load_pointer siblingPositive siblingInside,
    load_pointer parentPositive parentInside, setOrder_pointer _ parentPositive parentInside,
    Option.bind_eq_bind, Option.bind_some, Option.pure_def]
  rfl

/-- The upward rule. A predicate of the array and the current node that each
iteration hands to the parent holds at the root when `update_buf_order` ends. -/
theorem updateLoop_rule {maxOrder : Nat} (holds : List EmiBuf → Node → Prop)
    (sizes : ∀ top node, holds top node → Sized maxOrder top)
    (handed : ∀ top node, Within node (root maxOrder) → node.height < maxOrder → holds top node →
      holds (assign top node.parent.code (mergedAt top node)) node.parent)
    (top : List EmiBuf) (node : Node) (inTree : Within node (root maxOrder))
    (held : holds top node) :
    ∃ updated, updateLoop (maxOrder - node.height) top (pointer node.code) node.height =
      some updated ∧ holds updated (root maxOrder) := by
  generalize distance : maxOrder - node.height = remaining
  induction remaining generalizing top node with
  | zero =>
    have low : node.height ≤ maxOrder := inTree.1
    have atRoot : node = root maxOrder :=
      within_same_height inTree (by simp only [root]; omega)
    exact ⟨top, rfl, atRoot ▸ held⟩
  | succ remaining inductionHypothesis =>
    have below : node.height < maxOrder := by omega
    have parentHeld := handed top node inTree below held
    have closer : maxOrder - node.parent.height = remaining := by simp only [Node.parent]; omega
    obtain ⟨updated, walked, finished⟩ :=
      inductionHypothesis _ _ (parent_in_tree inTree below) parentHeld closer
    refine ⟨updated, ?_, finished⟩
    rw [updateLoop, updateParent_pointer (sizes top node held) inTree below]
    exact walked

/-- The entry `__init_emi_buf` writes for a node: the offset of its first leaf
and its height. -/
def initialEntry (maxOrder : Nat) (node : Node) : EmiBuf :=
  ⟨(node.code - 2 ^ (maxOrder - node.height) : Nat) * 2 ^ node.height, node.height⟩

/-- The inner loop writes the entries of one level and no other. -/
theorem initLevel_exact {maxOrder level : Nat} (top : List EmiBuf) (sized : Sized maxOrder top)
    (low : level ≤ maxOrder) :
    ∃ updated, initLevel top level maxOrder = some updated ∧ Sized maxOrder updated ∧
      ∀ code, 0 < code → entry updated code =
        if 2 ^ level ≤ code ∧ code < 2 ^ level + 2 ^ level then
          initialEntry maxOrder ⟨maxOrder - level, code⟩
        else entry top code := by
  have positive : 0 < 2 ^ level := Nat.pow_pos (by decide)
  have room : 2 ^ level + 2 ^ level ≤ 2 ^ (maxOrder + 1) := by
    rw [Nat.pow_succ, ← Nat.two_mul, Nat.mul_comm]
    exact Nat.mul_le_mul_right 2 (Nat.pow_le_pow_right (by decide) low)
  have depth : maxOrder - (maxOrder - level) = level := by omega
  apply foldlM_range_rule _ (fun j updated => Sized maxOrder updated ∧
    ∀ code, 0 < code → entry updated code =
      if 2 ^ level ≤ code ∧ code < 2 ^ level + j then
        initialEntry maxOrder ⟨maxOrder - level, code⟩
      else entry top code)
  · refine ⟨sized, fun code _ => ?_⟩
    rw [if_neg (by omega)]
  · rintro j before bound ⟨beforeSized, written⟩
    have index : leftMostOffspring (2 ^ level) + j = pointer (2 ^ level + j) := by
      simp only [leftMostOffspring, pointer]
      push_cast
      omega
    have inside : 2 ^ level + j ≤ before.length := by
      rw [beforeSized]
      omega
    have value : (⟨j * 2 ^ (maxOrder - level), (maxOrder - level : Nat)⟩ : EmiBuf) =
        initialEntry maxOrder ⟨maxOrder - level, 2 ^ level + j⟩ := by
      simp only [initialEntry, depth, EmiBuf.mk.injEq, and_true]
      congr 1
      omega
    refine ⟨_, by rw [index, store_pointer _ (by omega) inside, value], ?_, ?_⟩
    · rw [Sized, List.length_set]
      exact beforeSized
    · intro code counted
      rw [entry_set _ (by omega) inside counted, written code counted]
      by_cases same : code = 2 ^ level + j
      · rw [if_pos same, if_pos (by omega), same]
      · rw [if_neg same]
        by_cases earlier : 2 ^ level ≤ code ∧ code < 2 ^ level + j
        · rw [if_pos earlier, if_pos (by omega)]
        · rw [if_neg earlier, if_neg (by omega)]

/-- `__init_emi_buf` completes on an array of the tree's size, whatever it held,
and every node then has its initial entry.

The levels are written from the root down. A node of a later level is untouched
so far, one of this level was just written, and an earlier one keeps its entry
because the levels' heap numbers do not overlap. -/
theorem initEmiBuf_exact (maxOrder : Nat) (memory : List EmiBuf) (sized : Sized maxOrder memory) :
    ∃ top, initEmiBuf memory maxOrder = some top ∧ Sized maxOrder top ∧
      ∀ node, Within node (root maxOrder) → entry top node.code = initialEntry maxOrder node := by
  obtain ⟨top, completed, topSized, written⟩ := foldlM_range_rule
    (fun top level => initLevel top level maxOrder)
    (fun levels top => Sized maxOrder top ∧ ∀ node, Within node (root maxOrder) →
      maxOrder - node.height < levels → entry top node.code = initialEntry maxOrder node)
    (maxOrder + 1) memory ⟨sized, fun node _ none => absurd none (Nat.not_lt_zero _)⟩ (by
      rintro level before bound ⟨beforeSized, written⟩
      obtain ⟨updated, initialized, updatedSized, entries⟩ :=
        initLevel_exact before beforeSized (by omega : level ≤ maxOrder)
      refine ⟨updated, initialized, updatedSized, fun node inTree shallow => ?_⟩
      obtain ⟨low, atLeast, below⟩ := (within_root_iff node maxOrder).mp inTree
      rw [entries node.code (code_bounds inTree).1]
      by_cases atLevel : maxOrder - node.height = level
      · have height : maxOrder - level = node.height := by omega
        rw [atLevel] at atLeast below
        rw [if_pos (by omega), height]
      · have grows : 2 * 2 ^ (maxOrder - node.height) ≤ 2 ^ level := by
          rw [Nat.mul_comm, ← Nat.pow_succ]
          exact Nat.pow_le_pow_right (by decide) (by omega)
        rw [if_neg (by omega)]
        exact written node inTree (by omega))
  exact ⟨top, completed, topSized, fun node inTree => written node inTree (by omega)⟩

end Emilib.BuddyTree
