import Mathlib.Logic.Function.Iterate
import Emilib.BuddyNodes
import Emilib.Footprints

/-!
# What the walks in the buddy tree touch

`get_emi_buf` and `update_buf_order` as programs over the fields of the entries, at any
index and with any content. Every field that the source reads or writes is an event, once
for each time it does, and so is every use of `PARENT` and `SIBLING` and every iteration
of the walk upwards.

The order fields may hold anything, so what the walks touch is found for all replies
of the reads. On an array of the tree's size they do what the checked definitions do.
-/

namespace Emilib.BuddyWalks

open Prog
open Node (Within root)
open BuddyTree (EmiBuf parent son daughter sibling flipOrder mergedOrder pointer Sized)

/-- The two fields of `struct emi_buf`. -/
inductive Field where
  | blkOffset
  | order
deriving DecidableEq, Repr

/-- A field of the entry at an index, inside the array or not. -/
structure Cell where
  buf : Int
  field : Field
deriving DecidableEq, Repr

/-- Uses of the navigation macros, and iterations of `update_buf_order`. -/
inductive Mark where
  | iteration
  | parentOf (buf : Int)
  | siblingOf (buf : Int)
deriving DecidableEq, Repr

/-- What a walk does. -/
abbrev Touch := Event Cell Int Mark

/-- A piece of `emi_shbuf.c`. -/
abbrev Walk := Prog Cell Int Mark

/-- `buf->order`. -/
def orderOf (buf : Int) : Walk Int := load ⟨buf, .order⟩

/-- An assignment to `buf->order`. -/
def assignOrder (buf order : Int) : Walk Unit := store ⟨buf, .order⟩ order

/-- `PARENT`. -/
def parentOf (buf : Int) : Walk Int := do
  note (.parentOf buf)
  return parent buf

/-- `SIBLING`. -/
def siblingOf (buf : Int) : Walk Int := do
  note (.siblingOf buf)
  if (← parentOf buf) = (← parentOf (buf + 1)) then return buf + 1 else return buf - 1

/-- The body of the loop of `get_emi_buf`: the next `tmp`. -/
def nextChild (order : Nat) (tmp : Int) : Walk Int := do
  if (← orderOf (son tmp)) < order then return daughter tmp
  else if (← orderOf (daughter tmp)) < order then return son tmp
  else if (← orderOf (son tmp)) ≤ (← orderOf (daughter tmp)) then return son tmp
  else return daughter tmp

/-- The loop `while (--level > order)` of `get_emi_buf`. -/
def descend (order : Nat) : Nat → Int → Walk Int
  | 0, tmp => return tmp
  | level + 1, tmp =>
      if level > order then do
        let next ← nextChild order tmp
        descend order level next
      else return tmp

/-- `get_emi_buf`; `none` is NULL. -/
def getEmiBuf (order maxOrder : Nat) : Walk (Option Int) := do
  if (← orderOf 0) < order then return none
  else
    let tmp ← descend order (maxOrder + 1) 0
    return some tmp

/-- `sibling->order < 0 && buf->order < 0`. -/
def bothTaken (siblingBuf buf : Int) : Walk Bool := do
  if (← orderOf siblingBuf) < 0 then return decide ((← orderOf buf) < 0) else return false

/-- The assignment to `parent->order`. -/
def mergeOrders (siblingBuf buf parentBuf : Int) (order : Nat) : Walk Unit := do
  if ← bothTaken siblingBuf buf then assignOrder parentBuf (flipOrder order)
  else if (← orderOf siblingBuf) = (← orderOf buf) then
    assignOrder parentBuf ((← orderOf parentBuf) + 1)
  else if (← orderOf siblingBuf) > (← orderOf buf) then
    assignOrder parentBuf (← orderOf siblingBuf)
  else assignOrder parentBuf (← orderOf buf)

/-- The body of the loop of `update_buf_order`: the next `buf`. -/
def updateParent (buf : Int) (order : Nat) : Walk Int := do
  note .iteration
  let siblingBuf ← siblingOf buf
  let parentBuf ← parentOf buf
  mergeOrders siblingBuf buf parentBuf order
  return parentBuf

/-- `update_buf_order`, with the loop `while (++order < max_order + 1)`. -/
def updateBufOrder (buf : Int) (order maxOrder : Nat) : Walk Unit :=
  if order + 1 < maxOrder + 1 then do
    let parentBuf ← updateParent buf (order + 1)
    updateBufOrder parentBuf (order + 1) maxOrder
  else return
termination_by maxOrder - order

/-- The indices of a tree. -/
def InTree (maxOrder : Nat) (buf : Int) : Prop := 0 ≤ buf ∧ buf ≤ 2 ^ (maxOrder + 1) - 2

instance (maxOrder : Nat) (buf : Int) : Decidable (InTree maxOrder buf) :=
  inferInstanceAs (Decidable (_ ∧ _))

/-- The height of the node at an index: the root is highest, and the leaves have zero. -/
def height (maxOrder : Nat) (buf : Int) : Nat := maxOrder - (buf + 1).toNat.log2

/-- A node above another one, by way of `PARENT`. -/
def ProperAncestor (ancestor buf : Int) : Prop :=
  0 ≤ ancestor ∧ ∃ steps, 0 < steps ∧ parent^[steps] buf = ancestor

/-- The field that is read or written, if one is. -/
def cell : Touch → Option Cell
  | .read cell => some cell
  | .write cell _ => some cell
  | .mark _ => none

/-- `get_emi_buf` only reads, and inside the tree, and returns NULL or a node of the
requested height. -/
structure Descends (maxOrder order : Nat) (memory : Cell → Int) : Prop where
  reads : ∀ touch ∈ ((getEmiBuf order maxOrder).run memory).log,
    ∃ cell, touch = .read cell ∧ InTree maxOrder cell.buf
  returns : ∀ buf, ((getEmiBuf order maxOrder).run memory).result = some buf →
    InTree maxOrder buf ∧ height maxOrder buf = order

/-- `update_buf_order` from a node: its iterations, its uses of the macros, the fields it
touches, and those it may change. -/
structure Climbs (maxOrder order : Nat) (buf : Int) (memory : Cell → Int) : Prop where
  iterations : ((updateBufOrder buf order maxOrder).run memory).log.count (.mark .iteration) =
    maxOrder - order
  below : .mark (.parentOf 0) ∉ ((updateBufOrder buf order maxOrder).run memory).log ∧
    .mark (.siblingOf 0) ∉ ((updateBufOrder buf order maxOrder).run memory).log
  inside : ∀ touch ∈ ((updateBufOrder buf order maxOrder).run memory).log,
    ∀ touched ∈ cell touch, InTree maxOrder touched.buf
  frame : ∀ changed, ((updateBufOrder buf order maxOrder).run memory).memory changed ≠
    memory changed → changed.field = .order ∧ ProperAncestor changed.buf buf

/-- A read of a field inside the tree. -/
def ReadsInside (maxOrder : Nat) (touch : Touch) : Prop :=
  ∃ cell, touch = .read cell ∧ InTree maxOrder cell.buf

section Nodes

variable {maxOrder order : Nat} {node : Node} {buf : Int} {label : Mark}

/-- A node of the tree has an index of the tree. -/
theorem inTree_of_node (inTree : Within node (root maxOrder)) :
    InTree maxOrder (pointer node.code) := by
  obtain ⟨positive, below⟩ := Node.code_bounds inTree
  have bound : (node.code : Int) < 2 ^ (maxOrder + 1) := by exact_mod_cast below
  simp only [InTree, pointer]
  omega

/-- The height of an index is that of its node. -/
theorem height_of_node (inTree : Within node (root maxOrder)) :
    height maxOrder (pointer node.code) = node.height := by
  obtain ⟨positive, below⟩ := Node.code_bounds inTree
  have code : (pointer node.code + 1).toNat = node.code := by
    simp only [pointer]
    omega
  have same := Node.code_injective (Node.code_in_tree positive below) inTree rfl
  rw [height, code]
  exact congrArg Node.height same

/-- An index of the tree is that of a node. -/
theorem node_of_inTree (inTree : InTree maxOrder buf) :
    ∃ node, Within node (root maxOrder) ∧ pointer node.code = buf ∧
      node.height = height maxOrder buf := by
  obtain ⟨low, high⟩ := inTree
  have positive : 0 < (buf + 1).toNat := by omega
  have below : (buf + 1).toNat < 2 ^ (maxOrder + 1) := by
    have counted : ((buf + 1).toNat : Int) < 2 ^ (maxOrder + 1) := by omega
    exact_mod_cast counted
  refine ⟨_, Node.code_in_tree positive below, ?_, rfl⟩
  simp only [pointer]
  omega

/-- The reads of an iteration of `get_emi_buf` are those of the children, and it goes on
with one of them. -/
theorem nextChild_always (inTree : Within node (root maxOrder)) (inner : 0 < node.height) :
    (nextChild order (pointer node.code)).Always fun next log =>
      (next = pointer node.left.code ∨ next = pointer node.right.code) ∧
        ∀ touch ∈ log, ReadsInside maxOrder touch := by
  obtain ⟨leftIn, rightIn⟩ := Node.children_within_root inTree inner
  have left : ReadsInside maxOrder (.read ⟨pointer node.left.code, .order⟩) :=
    ⟨_, rfl, inTree_of_node leftIn⟩
  have right : ReadsInside maxOrder (.read ⟨pointer node.right.code, .order⟩) :=
    ⟨_, rfl, inTree_of_node rightIn⟩
  simp [nextChild, orderOf, BuddyTree.son_pointer, BuddyTree.daughter_pointer, left, right]

/-- The loop of `get_emi_buf` ends at a node of the requested height, and reads inside the
tree.

Proof: by induction on the level, which is the height of the current node. -/
theorem descend_always (node : Node) (inTree : Within node (root maxOrder))
    (high : order ≤ node.height) :
    (descend order (node.height + 1) (pointer node.code)).Always fun found log =>
      (∃ last, Within last (root maxOrder) ∧ last.height = order ∧ found = pointer last.code) ∧
        ∀ touch ∈ log, ReadsInside maxOrder touch := by
  generalize level : node.height = current at high
  induction current generalizing node with
  | zero =>
    have reached : ¬ 0 > order := Nat.not_lt_zero order
    rw [descend, if_neg reached]
    refine ⟨⟨node, inTree, ?_, rfl⟩, ?_⟩
    · omega
    · exact fun touch member => absurd member List.not_mem_nil
  | succ current inductionHypothesis =>
    by_cases above : current + 1 > order
    · rw [descend, if_pos above]
      apply (nextChild_always inTree (by omega)).bind
      rintro next log ⟨child, inside⟩
      obtain ⟨leftIn, rightIn⟩ := Node.children_within_root inTree (by omega)
      have continued : (descend order (current + 1) next).Always fun found more =>
          (∃ last, Within last (root maxOrder) ∧ last.height = order ∧
            found = pointer last.code) ∧ ∀ touch ∈ more, ReadsInside maxOrder touch := by
        rcases child with rfl | rfl
        · exact inductionHypothesis node.left leftIn (by simp [Node.left, level]) (by omega)
        · exact inductionHypothesis node.right rightIn (by simp [Node.right, level]) (by omega)
      apply continued.weaken
      rintro found more ⟨ends, furtherInside⟩
      refine ⟨ends, fun touch member => ?_⟩
      rcases List.mem_append.mp member with first | later
      · exact inside touch first
      · exact furtherInside touch later
    · rw [descend, if_neg above]
      refine ⟨⟨node, inTree, ?_, rfl⟩, ?_⟩
      · omega
      · exact fun touch member => absurd member List.not_mem_nil

/-- `get_emi_buf` reads inside the tree and answers with a node of the requested height. -/
theorem getEmiBuf_always (low : order ≤ maxOrder) :
    (getEmiBuf order maxOrder).Always fun found log =>
      (∀ touch ∈ log, ReadsInside maxOrder touch) ∧
        ∀ buf, found = some buf → InTree maxOrder buf ∧ height maxOrder buf = order := by
  have top : ReadsInside maxOrder (.read ⟨0, .order⟩) :=
    ⟨_, rfl, inTree_of_node (Node.within_refl (root maxOrder))⟩
  rw [getEmiBuf, orderOf, always_bind, always_load]
  intro value
  rw [always_ite]
  split
  · simp [top]
  · apply (descend_always (root maxOrder) (Node.within_refl _) low).bind
    rintro tmp log ⟨⟨last, lastIn, lastHeight, rfl⟩, inside⟩
    refine ⟨?_, ?_⟩
    · simpa [top] using inside
    · rintro buf found
      obtain rfl := Option.some.inj found
      exact ⟨inTree_of_node lastIn, (height_of_node lastIn).trans lastHeight⟩

/-- What an iteration of `update_buf_order` at a node may do. -/
def Climbing (maxOrder : Nat) (node : Node) : Touch → Prop
  | .read cell => InTree maxOrder cell.buf
  | .write cell _ => cell = ⟨pointer node.parent.code, .order⟩
  | .mark label => label = .iteration ∨ label = .siblingOf (pointer node.code) ∨
      label = .parentOf (pointer node.code) ∨ label = .parentOf (pointer node.code + 1)

/-- The uses of `PARENT` in `SIBLING`. -/
theorem siblingOf_always (buf : Int) :
    (siblingOf buf).Always fun found log => found = sibling buf ∧
      log = [.mark (.siblingOf buf), .mark (.parentOf buf), .mark (.parentOf (buf + 1))] := by
  simp only [siblingOf, parentOf, always_bind, always_note, always_pure, always_ite, sibling]
  split <;> simp

/-- The assignment reads the three order fields and writes that of the parent. -/
theorem mergeOrders_always {allowed : Touch → Prop} {siblingBuf parentBuf : Int}
    (siblingRead : allowed (.read ⟨siblingBuf, .order⟩)) (ownRead : allowed (.read ⟨buf, .order⟩))
    (parentRead : allowed (.read ⟨parentBuf, .order⟩))
    (parentWritten : ∀ value, allowed (.write ⟨parentBuf, .order⟩ value)) :
    (mergeOrders siblingBuf buf parentBuf order).Always fun _ log =>
      log.count (.mark .iteration) = 0 ∧ ∀ touch ∈ log, allowed touch := by
  simp [mergeOrders, bothTaken, orderOf, assignOrder, siblingRead, ownRead, parentRead,
    parentWritten, or_imp, forall_and]

/-- An iteration goes on with the parent. -/
theorem updateParent_always (inTree : Within node (root maxOrder))
    (below : node.height < maxOrder) :
    (updateParent (pointer node.code) order).Always fun next log =>
      next = pointer node.parent.code ∧ log.count (.mark .iteration) = 1 ∧
        ∀ touch ∈ log, Climbing maxOrder node touch := by
  have positive := (Node.code_bounds inTree).1
  have own := inTree_of_node inTree
  have parentIn := inTree_of_node (BuddyTree.parent_in_tree inTree below)
  have siblingIn := inTree_of_node (BuddyTree.sibling_in_tree inTree below)
  have merged := @mergeOrders_always order (pointer node.code) (Climbing maxOrder node)
    (pointer node.sibling.code) (pointer node.parent.code) siblingIn own parentIn fun _ => rfl
  have marks (label : Mark) (named : label = .iteration ∨ label = .siblingOf (pointer node.code) ∨
      label = .parentOf (pointer node.code) ∨ label = .parentOf (pointer node.code + 1)) :
      Climbing maxOrder node (.mark label) := named
  rw [updateParent, always_bind, always_note]
  apply (siblingOf_always (pointer node.code)).bind
  rintro siblingBuf siblingLog ⟨rfl, rfl⟩
  rw [BuddyTree.sibling_pointer node positive, parentOf, always_bind, always_bind, always_note,
    always_pure, BuddyTree.parent_pointer]
  apply merged.bind
  rintro _ log ⟨counted, inside⟩
  rw [always_pure]
  refine ⟨rfl, ?_, ?_⟩
  · simp [counted]
  · simpa [marks] using inside

/-- What the walk upwards from a node may do: an iteration at one of the nodes from there
to the root, without the root. -/
def Climbed (maxOrder : Nat) (start : Node) (touch : Touch) : Prop :=
  ∃ current, Within start current ∧ Within current (root maxOrder) ∧
    current.height < maxOrder ∧ Climbing maxOrder current touch

/-- `update_buf_order` has one iteration for each level above its node.

Proof: by induction on the levels above the node. The root has none, and an iteration
leaves one less. -/
theorem updateBufOrder_always (node : Node) (inTree : Within node (root maxOrder)) :
    (updateBufOrder (pointer node.code) node.height maxOrder).Always fun _ log =>
      log.count (.mark .iteration) = maxOrder - node.height ∧
        ∀ touch ∈ log, Climbed maxOrder node touch := by
  generalize distance : maxOrder - node.height = remaining
  induction remaining generalizing node with
  | zero =>
    have top : ¬ node.height + 1 < maxOrder + 1 := by omega
    rw [updateBufOrder, if_neg top]
    exact ⟨rfl, fun touch member => absurd member List.not_mem_nil⟩
  | succ remaining inductionHypothesis =>
    have below : node.height < maxOrder := by omega
    rw [updateBufOrder, if_pos (Nat.succ_lt_succ below)]
    apply (updateParent_always inTree below).bind
    rintro next log ⟨rfl, counted, inside⟩
    have rest := inductionHypothesis node.parent (BuddyTree.parent_in_tree inTree below)
      (by simp only [Node.parent]; omega)
    apply rest.weaken
    rintro _ more ⟨furtherCounted, furtherInside⟩
    constructor
    · rw [List.count_append, counted, furtherCounted, Nat.add_comm]
    · intro touch member
      rcases List.mem_append.mp member with first | later
      · exact ⟨node, Node.within_refl node, inTree, below, inside touch first⟩
      · obtain ⟨current, above, climbed⟩ := furtherInside touch later
        exact ⟨current, Node.within_trans (Node.within_parent node) above, climbed⟩

/-- So many uses of `PARENT` divide the heap number as often. -/
theorem parent_iterate (code steps : Nat) :
    parent^[steps] (pointer code) = pointer (code / 2 ^ steps) := by
  induction steps with
  | zero => simp
  | succ steps inductionHypothesis =>
    rw [Function.iterate_succ_apply', inductionHypothesis, Nat.pow_succ, ← Nat.div_div_eq_div_mul]
    exact BuddyTree.parent_pointer ⟨0, code / 2 ^ steps⟩

/-- The parent of a node from here to the root is a proper ancestor. -/
theorem properAncestor_of_within {start current : Node} (above : Within start current)
    (inTree : Within current.parent (root maxOrder)) :
    ProperAncestor (pointer current.parent.code) (pointer start.code) := by
  refine ⟨(inTree_of_node inTree).1, current.height - start.height + 1, Nat.succ_pos _, ?_⟩
  rw [parent_iterate, Nat.pow_succ, ← Nat.div_div_eq_div_mul, above.2]
  rfl

/-- Above a node below the root `PARENT` and `SIBLING` are not used at the root. -/
theorem Climbed.below (climbed : Climbed maxOrder node (.mark label)) :
    label ≠ .parentOf 0 ∧ label ≠ .siblingOf 0 := by
  obtain ⟨current, _, inTree, below, named⟩ := climbed
  have apart : 2 ≤ current.code := by
    have atLeast := ((Node.within_root_iff current maxOrder).mp inTree).2.1
    have positive : 0 < maxOrder - current.height := by omega
    calc 2 = 2 ^ 1 := rfl
      _ ≤ 2 ^ (maxOrder - current.height) := Nat.pow_le_pow_right (by decide) positive
      _ ≤ current.code := atLeast
  have own : pointer current.code ≠ 0 := by simp only [pointer]; omega
  have next : pointer current.code + 1 ≠ 0 := by simp only [pointer]; omega
  rcases named with rfl | rfl | rfl | rfl <;> simp [own, next]

end Nodes

/-- The walks stay in the tree and touch only what they should, for every content of
the fields and every order up to the maximum. -/
theorem walks_stay_in_tree (maxOrder order : Nat) (low : order ≤ maxOrder) (memory : Cell → Int) :
    Descends maxOrder order memory ∧
      ∀ buf, InTree maxOrder buf → height maxOrder buf = order →
        Climbs maxOrder order buf memory := by
  constructor
  · obtain ⟨reads, returns⟩ := (getEmiBuf_always low).run memory
    exact ⟨reads, returns⟩
  · rintro buf inside level
    obtain ⟨node, inTree, rfl, same⟩ := node_of_inTree inside
    obtain rfl : node.height = order := same.trans level
    obtain ⟨counted, climbed⟩ := (updateBufOrder_always node inTree).run memory
    refine ⟨counted, ⟨?_, ?_⟩, ?_, ?_⟩
    · exact fun member => (climbed _ member).below.1 rfl
    · exact fun member => (climbed _ member).below.2 rfl
    · intro touch member touched here
      obtain ⟨current, _, currentIn, below, allowed⟩ := climbed touch member
      cases touch with
      | read place =>
        obtain rfl := Option.some.inj here
        exact allowed
      | write place value =>
        obtain rfl := Option.some.inj here
        obtain rfl := allowed
        exact inTree_of_node (BuddyTree.parent_in_tree currentIn below)
      | mark label => cases here
    · intro place changed
      obtain ⟨value, written⟩ := written_of_changed changed
      obtain ⟨current, above, currentIn, below, rfl⟩ := climbed _ written
      exact ⟨rfl, properAncestor_of_within above (BuddyTree.parent_in_tree currentIn below)⟩

/-- A tree of four leaves with arbitrary fields. -/
theorem four_leaves_walks : Descends 2 1 (fun _ => -7) ∧
    ∀ buf, InTree 2 buf → height 2 buf = 1 → Climbs 2 1 buf (fun _ => -7) :=
  walks_stay_in_tree 2 1 (by decide) (fun _ => -7)

section Arrays

open BuddyTree (entry orders assign mergedAt)

variable {maxOrder order : Nat} {top : List EmiBuf} {node : Node} {memory : Cell → Int}

/-- The fields of the entries of an array. -/
def cells (top : List EmiBuf) (cell : Cell) : Int :=
  match cell.field with
  | .blkOffset => (entry top (cell.buf + 1).toNat).blkOffset
  | .order => (entry top (cell.buf + 1).toNat).order

theorem index_pointer (code : Nat) : (pointer code + 1).toNat = code := by
  simp only [pointer]
  omega

@[simp] theorem cells_order (top : List EmiBuf) (code : Nat) :
    cells top ⟨pointer code, .order⟩ = orders top code := by
  simp only [cells, index_pointer, orders]

@[simp] theorem cells_blkOffset (top : List EmiBuf) (code : Nat) :
    cells top ⟨pointer code, .blkOffset⟩ = (entry top code).blkOffset := by
  simp only [cells, index_pointer]

/-- The child that an iteration of `get_emi_buf` goes on with, from the fields there. -/
theorem nextChild_run (tmp : Int) (memory : Cell → Int) :
    ((nextChild order tmp).run memory).memory = memory ∧
      ((nextChild order tmp).run memory).result =
        if memory ⟨son tmp, .order⟩ < order then daughter tmp
        else if memory ⟨daughter tmp, .order⟩ < order then son tmp
        else if memory ⟨son tmp, .order⟩ ≤ memory ⟨daughter tmp, .order⟩ then son tmp
        else daughter tmp := by
  simp only [nextChild, orderOf, run_bind, run_load, run_ite, run_pure]
  split
  · exact ⟨rfl, rfl⟩
  · split
    · exact ⟨rfl, rfl⟩
    · split
      · exact ⟨rfl, rfl⟩
      · exact ⟨rfl, rfl⟩

/-- The loop of `get_emi_buf` on the fields of an array finds what the checked loop finds. -/
theorem descend_run (sized : Sized maxOrder top) (node : Node)
    (inTree : Within node (root maxOrder)) (high : order ≤ node.height) :
    BuddyTree.descend top order (node.height + 1) (pointer node.code) =
      some ((descend order (node.height + 1) (pointer node.code)).run (cells top)).result := by
  generalize level : node.height = current at high
  induction current generalizing node with
  | zero =>
    have reached : ¬ 0 > order := Nat.not_lt_zero order
    rw [BuddyTree.descend, if_neg reached, descend, if_neg reached, run_pure]
  | succ current inductionHypothesis =>
    by_cases above : current + 1 > order
    · have inner : 0 < node.height := by omega
      have checked := BuddyTree.nextChild_pointer (order : Int) sized inTree inner
      obtain ⟨unchanged, chosen⟩ := @nextChild_run order (pointer node.code) (cells top)
      rw [BuddyTree.son_pointer, BuddyTree.daughter_pointer, cells_order, cells_order] at chosen
      obtain ⟨leftIn, rightIn⟩ := Node.children_within_root inTree inner
      have onLeft := inductionHypothesis node.left leftIn (by simp [Node.left, level]) (by omega)
      have onRight :=
        inductionHypothesis node.right rightIn (by simp [Node.right, level]) (by omega)
      rw [BuddyTree.descend, if_pos above, checked, descend, if_pos above, run_bind, unchanged,
        chosen]
      simp only [Option.bind_eq_bind, Option.bind_some]
      split
      · exact onRight
      · split
        · exact onLeft
        · split
          · exact onLeft
          · exact onRight
    · rw [BuddyTree.descend, if_neg above, descend, if_neg above, run_pure]

/-- `get_emi_buf` on the fields of an array answers what the checked one answers. -/
theorem getEmiBuf_run (sized : Sized maxOrder top) (low : order ≤ maxOrder) :
    BuddyTree.getEmiBuf top order maxOrder =
      some ((getEmiBuf order maxOrder).run (cells top)).result := by
  have first : cells top ⟨0, .order⟩ = orders top 1 := cells_order top 1
  rw [getEmiBuf, orderOf, run_bind, run_load, run_ite, first]
  by_cases small : orders top 1 < order
  · rw [BuddyTree.getEmiBuf_refused sized small, if_pos small, run_pure, after_result]
  · obtain ⟨positive, inside⟩ := BuddyTree.node_stored sized (Node.within_refl (root maxOrder))
    have loaded : BuddyTree.load top 0 = some (entry top 1) :=
      BuddyTree.load_pointer positive inside
    have enough : ¬ (entry top 1).order < order := small
    have walked : BuddyTree.descend top order (maxOrder + 1) 0 =
        some ((descend order (maxOrder + 1) 0).run (cells top)).result :=
      descend_run sized (root maxOrder) (Node.within_refl _) low
    rw [BuddyTree.getEmiBuf, loaded, Option.bind_eq_bind, Option.bind_some, if_neg enough, walked,
      if_neg small, run_bind]
    simp only [Option.bind_eq_bind, Option.bind_some, Option.pure_def, run_pure, after_result]

/-- What is assigned to the parent, from the fields there. -/
theorem mergeOrders_run (siblingBuf buf parentBuf : Int) (memory : Cell → Int) :
    ((mergeOrders siblingBuf buf parentBuf order).run memory).memory =
      Function.update memory ⟨parentBuf, .order⟩ (mergedOrder order
        (memory ⟨siblingBuf, .order⟩) (memory ⟨buf, .order⟩) (memory ⟨parentBuf, .order⟩)) := by
  have taken : ((bothTaken siblingBuf buf).run memory).memory = memory ∧
      ((bothTaken siblingBuf buf).run memory).result =
        decide (memory ⟨siblingBuf, .order⟩ < 0 ∧ memory ⟨buf, .order⟩ < 0) := by
    simp only [bothTaken, orderOf, run_bind, run_load, run_ite, run_pure, after_result,
      after_memory]
    split <;> simp [*]
  rw [mergeOrders, run_bind, taken.1, taken.2]
  simp only [orderOf, assignOrder, run_bind, run_load, run_ite, run_store, after_memory,
    decide_eq_true_eq, mergedOrder]
  split
  · rfl
  · split
    · rfl
    · split
      · rfl
      · rfl

/-- What an iteration of `update_buf_order` stores in the parent, from the fields there. -/
theorem updateParent_run (buf : Int) (memory : Cell → Int) :
    ((updateParent buf order).run memory).result = parent buf ∧
      ((updateParent buf order).run memory).memory =
        Function.update memory ⟨parent buf, .order⟩ (mergedOrder order
          (memory ⟨sibling buf, .order⟩) (memory ⟨buf, .order⟩) (memory ⟨parent buf, .order⟩)) := by
  have paired : ((siblingOf buf).run memory).result = sibling buf ∧
      ((siblingOf buf).run memory).memory = memory := by
    simp only [siblingOf, parentOf, run_bind, run_note, run_pure, run_ite, after_result,
      after_memory, sibling]
    split
    · exact ⟨rfl, rfl⟩
    · exact ⟨rfl, rfl⟩
  have merged := @mergeOrders_run order (sibling buf) buf (parent buf) memory
  simp only [updateParent, parentOf, run_bind, run_note, run_pure, after_result, after_memory,
    paired, merged]
  trivial

/-- A memory has the fields of the array at every index of the tree. -/
def Agrees (maxOrder : Nat) (top : List EmiBuf) (memory : Cell → Int) : Prop :=
  ∀ node, Within node (root maxOrder) → ∀ field,
    memory ⟨pointer node.code, field⟩ = cells top ⟨pointer node.code, field⟩

/-- An order field assigned on both sides leaves them in agreement. -/
theorem Agrees.assign (agrees : Agrees maxOrder top memory) (sized : Sized maxOrder top)
    (inTree : Within node (root maxOrder)) (value : Int) :
    Agrees maxOrder (assign top node.code value)
      (Function.update memory ⟨pointer node.code, .order⟩ value) := by
  intro other otherIn field
  cases field with
  | blkOffset =>
    have apart : (⟨pointer other.code, .blkOffset⟩ : Cell) ≠ ⟨pointer node.code, .order⟩ := by
      simp
    rw [Function.update_of_ne apart, agrees other otherIn, cells_blkOffset, cells_blkOffset,
      BuddyTree.offset_assign]
  | order =>
    rw [cells_order, BuddyTree.orders_assign_node value sized inTree otherIn]
    by_cases same : other = node
    · rw [if_pos same, same, Function.update_self]
    · have apart : (⟨pointer other.code, .order⟩ : Cell) ≠ ⟨pointer node.code, .order⟩ := by
        intro cells
        have codes : pointer other.code = pointer node.code := congrArg Cell.buf cells
        simp only [pointer] at codes
        exact same (Node.code_injective otherIn inTree (by omega))
      rw [if_neg same, Function.update_of_ne apart, agrees other otherIn, cells_order]

/-- `update_buf_order` on the fields of an array leaves them as the checked one does.

Proof: the upward rule carries a memory along that agrees with the array so far, and from
which the rest of the walk leaves what the whole walk leaves. -/
theorem updateBufOrder_run (sized : Sized maxOrder top) (agrees : Agrees maxOrder top memory)
    (inTree : Within node (root maxOrder)) :
    ∃ updated, BuddyTree.updateBufOrder top (pointer node.code) node.height maxOrder =
        some updated ∧
      Agrees maxOrder updated
        ((updateBufOrder (pointer node.code) node.height maxOrder).run memory).memory := by
  obtain ⟨updated, walked, _, middle, atEnd, finished⟩ := BuddyTree.updateLoop_rule
    (fun before current => Sized maxOrder before ∧ ∃ middle, Agrees maxOrder before middle ∧
      ((updateBufOrder (pointer current.code) current.height maxOrder).run middle).memory =
        ((updateBufOrder (pointer node.code) node.height maxOrder).run memory).memory)
    (fun _ _ held => held.1) (by
      rintro before current currentIn below ⟨beforeSized, middle, together, onward⟩
      have parentIn := BuddyTree.parent_in_tree currentIn below
      have siblingIn := BuddyTree.sibling_in_tree currentIn below
      have positive := (Node.code_bounds currentIn).1
      obtain ⟨moved, merged⟩ := @updateParent_run (current.height + 1) (pointer current.code) middle
      rw [BuddyTree.parent_pointer, BuddyTree.sibling_pointer current positive,
        together _ siblingIn, together _ currentIn, together _ parentIn, cells_order, cells_order,
        cells_order] at merged
      rw [BuddyTree.parent_pointer] at moved
      rw [updateBufOrder, if_pos (Nat.succ_lt_succ below), run_bind, moved, merged,
        after_memory] at onward
      exact ⟨BuddyTree.sized_assign _ _ beforeSized, _,
        together.assign beforeSized parentIn (mergedAt before current), onward⟩)
    top node inTree ⟨sized, memory, agrees, rfl⟩
  have top : ¬ (root maxOrder).height + 1 < maxOrder + 1 := Nat.lt_irrefl _
  rw [updateBufOrder, if_neg top, run_pure] at finished
  exact ⟨updated, walked, finished ▸ atEnd⟩

end Arrays

end Emilib.BuddyWalks
