import Mathlib.Data.Set.Basic
import Emilib.BuddyWalks

/-!
# The initial buddy tree

`__init_emi_buf` as a program over the fields of the entries. It writes level by level,
and the levels lie in the array one behind the other, so its writes are those of the
entries in the order of their indices.

The offsets of a level come from its loop index, and the navigation macros only know the
index in the array. In heap numbers both say the same: an entry starts where the
leaves of its node do, less the number of the first leaf. What the ranges of two entries
have in common is then what two nodes have in common.
-/

namespace Emilib.BuddyTiling

open Prog
open Node (Within root)
open BuddyTree (EmiBuf parent son daughter sibling leftMostOffspring pointer Sized initialEntry)
open BuddyWalks

/-- The inner loop of `__init_emi_buf`: the entries of one level. -/
def initLevel (level maximumOrder : Nat) : Walk Unit :=
  forRange (2 ^ level) fun j => do
    store ⟨leftMostOffspring (2 ^ level) + j, .blkOffset⟩ (j * 2 ^ (maximumOrder - level))
    store ⟨leftMostOffspring (2 ^ level) + j, .order⟩ (maximumOrder - level : Nat)

/-- `__init_emi_buf`. -/
def initEmiBuf (maximumOrder : Nat) : Walk Unit :=
  forRange (maximumOrder + 1) fun level => initLevel level maximumOrder

/-- A write of a field. -/
def Writes (target : Cell) : Touch → Prop
  | .write cell _ => cell = target
  | .read _ | .mark _ => False

instance (target : Cell) (touch : Touch) : Decidable (Writes target touch) :=
  match touch with
  | .write cell _ => inferInstanceAs (Decidable (cell = target))
  | .read _ | .mark _ => inferInstanceAs (Decidable False)

@[simp] theorem writes_write (target cell : Cell) (value : Int) :
    Writes target (.write cell value) ↔ cell = target := Iff.rfl

/-- Both fields of every node are written once, no other field is, and nothing else
happens. -/
structure WritesOnce (maxOrder : Nat) (log : List Touch) : Prop where
  only : ∀ touch ∈ log, ∃ target value, touch = .write target value
  once : ∀ target, log.countP (Writes target) = if InTree maxOrder target.buf then 1 else 0

/-- The range of a node of height `h`: `[blk_offset, blk_offset + 2 ^ h)`. -/
def covered (maxOrder : Nat) (memory : Cell → Int) (buf : Int) : Set Int :=
  {leaf | memory ⟨buf, .blkOffset⟩ ≤ leaf ∧
    leaf < memory ⟨buf, .blkOffset⟩ + 2 ^ height maxOrder buf}

/-- A node or one above it, by way of `PARENT`. -/
def AncestorOrSelf (ancestor buf : Int) : Prop := ∃ steps, parent^[steps] buf = ancestor

/-- The entries tile the arena, and the navigation macros agree with their ranges. -/
structure Tiles (maxOrder : Nat) (memory : Cell → Int) : Prop where
  orders : ∀ buf, InTree maxOrder buf → memory ⟨buf, .order⟩ = height maxOrder buf
  arena : height maxOrder 0 = maxOrder ∧
    covered maxOrder memory 0 = {leaf | 0 ≤ leaf ∧ leaf < 2 ^ maxOrder}
  children : ∀ buf, InTree maxOrder buf → 0 < height maxOrder buf →
    ∀ child, child = son buf ∨ child = daughter buf →
      InTree maxOrder child ∧ height maxOrder child + 1 = height maxOrder buf ∧
        parent child = buf
  siblings : ∀ buf, InTree maxOrder buf → 0 < height maxOrder buf →
    sibling (son buf) = daughter buf ∧ sibling (daughter buf) = son buf
  halves : ∀ buf, InTree maxOrder buf → 0 < height maxOrder buf →
    covered maxOrder memory (son buf) ∩ covered maxOrder memory (daughter buf) = ∅ ∧
      covered maxOrder memory (son buf) ∪ covered maxOrder memory (daughter buf) =
        covered maxOrder memory buf
  laminar : ∀ left right, InTree maxOrder left → InTree maxOrder right →
    ((covered maxOrder memory left ∩ covered maxOrder memory right).Nonempty ↔
      AncestorOrSelf left right ∨ AncestorOrSelf right left)

/-- The writes of the entry at an index. -/
def entryWrites (maxOrder index : Nat) : List Touch :=
  [.write ⟨index, .blkOffset⟩ (initialEntry maxOrder ⟨height maxOrder index, index + 1⟩).blkOffset,
    .write ⟨index, .order⟩ (initialEntry maxOrder ⟨height maxOrder index, index + 1⟩).order]

section Writing

variable {maxOrder level : Nat}

/-- The entries of a level have its height. -/
theorem height_of_level {j : Nat} (bound : j < 2 ^ level) :
    height maxOrder (2 ^ level - 1 + j : Nat) = maxOrder - level := by
  have positive : 0 < 2 ^ level := Nat.pow_pos (by decide)
  have code : ((2 ^ level - 1 + j : Nat) + 1 : Int).toNat = 2 ^ level + j := by omega
  rw [height, code]
  congr 1
  rw [Nat.log2_eq_iff (by omega), Nat.pow_succ]
  omega

/-- What the inner loop stores in an entry is the initial entry of its node. -/
theorem entryWrites_of_level {j : Nat} (low : level ≤ maxOrder) (bound : j < 2 ^ level) :
    entryWrites maxOrder (2 ^ level - 1 + j) =
      [.write ⟨leftMostOffspring (2 ^ level) + j, .blkOffset⟩ (j * 2 ^ (maxOrder - level)),
        .write ⟨leftMostOffspring (2 ^ level) + j, .order⟩ (maxOrder - level : Nat)] := by
  have positive : 0 < 2 ^ level := Nat.pow_pos (by decide)
  have place : leftMostOffspring (2 ^ level) + j = (2 ^ level - 1 + j : Nat) := by
    rw [Int.natCast_add, Int.natCast_sub positive]
    rfl
  have first : 2 ^ level - 1 + j + 1 - 2 ^ level = j := by omega
  have depth : maxOrder - (maxOrder - level) = level := by omega
  rw [entryWrites, height_of_level bound, place]
  simp only [initialEntry, depth, first]

/-- The inner loop writes the entries of its level, in the order of their indices. -/
theorem initLevel_always (low : level ≤ maxOrder) :
    (initLevel level maxOrder).Always fun _ log =>
      log = (List.range (2 ^ level)).flatMap fun j => entryWrites maxOrder (2 ^ level - 1 + j) := by
  apply always_forRange fun count log =>
    log = (List.range count).flatMap fun j => entryWrites maxOrder (2 ^ level - 1 + j)
  · rfl
  · rintro j log bound rfl
    rw [always_bind, always_store, always_store, List.range_succ, List.flatMap_append,
      List.flatMap_singleton, entryWrites_of_level low bound]
    rfl

/-- `__init_emi_buf` writes the entries in the order of their indices. -/
theorem initEmiBuf_always (maxOrder : Nat) :
    (initEmiBuf maxOrder).Always fun _ log =>
      log = (List.range (2 ^ (maxOrder + 1) - 1)).flatMap (entryWrites maxOrder) := by
  apply always_forRange fun levels log =>
    log = (List.range (2 ^ levels - 1)).flatMap (entryWrites maxOrder)
  · rfl
  · rintro level log bound rfl
    apply (initLevel_always (Nat.le_of_lt_succ bound)).weaken
    rintro _ more rfl
    have positive : 0 < 2 ^ level := Nat.pow_pos (by decide)
    have joined : 2 ^ (level + 1) - 1 = (2 ^ level - 1) + 2 ^ level := by
      rw [Nat.pow_succ]
      omega
    rw [joined, List.range_add, List.flatMap_append, List.flatMap_map]

/-- A field of an entry is among the first so many entries, or is not written there. -/
theorem countP_entryWrites (target : Cell) (count : Nat) :
    ((List.range count).flatMap (entryWrites maxOrder)).countP (Writes target) =
      if 0 ≤ target.buf ∧ target.buf < count then 1 else 0 := by
  induction count with
  | zero =>
    rw [if_neg (by omega)]
    rfl
  | succ count inductionHypothesis =>
    have own : (entryWrites maxOrder count).countP (Writes target) =
        if target.buf = count then 1 else 0 := by
      obtain ⟨buf, field⟩ := target
      cases field <;> simp [entryWrites, List.countP_cons, @eq_comm _ buf]
    rw [List.range_succ, List.flatMap_append, List.flatMap_singleton, List.countP_append,
      inductionHypothesis, own]
    split <;> split <;> split <;> omega

/-- Every node's fields are written once. -/
theorem initEmiBuf_writesOnce (maxOrder : Nat) (memory : Cell → Int) :
    WritesOnce maxOrder ((initEmiBuf maxOrder).run memory).log := by
  rw [(initEmiBuf_always maxOrder).run memory]
  constructor
  · intro touch member
    obtain ⟨index, _, written⟩ := List.mem_flatMap.mp member
    rcases List.mem_cons.mp written with rfl | last
    · exact ⟨_, _, rfl⟩
    · exact ⟨_, _, List.mem_singleton.mp last⟩
  · intro target
    have positive : 0 < 2 ^ (maxOrder + 1) := Nat.pow_pos (by decide)
    have size : ((2 ^ (maxOrder + 1) - 1 : Nat) : Int) = 2 ^ (maxOrder + 1) - 1 := by
      rw [Int.natCast_sub positive]
      push_cast
      rfl
    have same : 0 ≤ target.buf ∧ target.buf < (2 ^ (maxOrder + 1) - 1 : Nat) ↔
        InTree maxOrder target.buf := by
      rw [InTree, size]
      omega
    rw [countP_entryWrites]
    simp only [same]

end Writing

section Ranges

variable {maxOrder : Nat} {node : Node} {memory : Cell → Int}

/-- A memory that has the initial entry of every node. -/
def Initial (maxOrder : Nat) (memory : Cell → Int) : Prop :=
  ∀ node, Within node (root maxOrder) →
    memory ⟨pointer node.code, .blkOffset⟩ = (initialEntry maxOrder node).blkOffset ∧
      memory ⟨pointer node.code, .order⟩ = (initialEntry maxOrder node).order

/-- `__init_emi_buf` leaves the initial entry of every node.

Proof: the fields of a node are written, and nowhere else with another value. -/
theorem initEmiBuf_initial (maxOrder : Nat) (memory : Cell → Int) :
    Initial maxOrder ((initEmiBuf maxOrder).run memory).memory := by
  intro node inTree
  obtain ⟨positive, below⟩ := Node.code_bounds inTree
  have index : pointer node.code = (node.code - 1 : Nat) := by
    simp only [pointer]
    omega
  have entry : (⟨height maxOrder (node.code - 1 : Nat), node.code - 1 + 1⟩ : Node) = node := by
    rw [← index, height_of_node inTree, Nat.sub_add_cancel positive]
  have listed : node.code - 1 ∈ List.range (2 ^ (maxOrder + 1) - 1) := by
    rw [List.mem_range]
    omega
  have alone (target : Cell) (value : Int) (here : target.buf = (node.code - 1 : Nat))
      (member : Event.write target value ∈
        (List.range (2 ^ (maxOrder + 1) - 1)).flatMap (entryWrites maxOrder)) :
      Event.write target value ∈ entryWrites maxOrder (node.code - 1) := by
    obtain ⟨other, _, written⟩ := List.mem_flatMap.mp member
    have same : other = node.code - 1 := by
      simp only [entryWrites, List.mem_cons, List.not_mem_nil, or_false,
        Event.write.injEq] at written
      rcases written with ⟨rfl, _⟩ | ⟨rfl, _⟩
      · exact Int.ofNat.inj here
      · exact Int.ofNat.inj here
    exact same ▸ written
  have log := (initEmiBuf_always maxOrder).run memory
  rw [run_memory, log, index]
  constructor
  · apply replay_written
    · rw [← entry]
      exact List.mem_flatMap.mpr ⟨_, listed, List.mem_cons_self⟩
    · intro value member
      have written := alone _ value rfl member
      simpa [entryWrites, entry] using written
  · apply replay_written
    · rw [← entry]
      exact List.mem_flatMap.mpr ⟨_, listed, List.mem_cons_of_mem _ List.mem_cons_self⟩
    · intro value member
      have written := alone _ value rfl member
      simpa [entryWrites, entry] using written

/-- The offset of a node is its first leaf, less the number of the first leaf. -/
theorem Initial.offset (initial : Initial maxOrder memory)
    (inTree : Within node (root maxOrder)) :
    memory ⟨pointer node.code, .blkOffset⟩ =
      (node.code * 2 ^ node.height : Nat) - (2 ^ maxOrder : Nat) := by
  obtain ⟨low, atLeast, _⟩ := (Node.within_root_iff node maxOrder).mp inTree
  have whole : 2 ^ (maxOrder - node.height) * 2 ^ node.height = 2 ^ maxOrder := by
    rw [← Nat.pow_add, Nat.sub_add_cancel low]
  rw [(initial node inTree).1, initialEntry, ← whole, Int.natCast_sub atLeast, Int.sub_mul]
  push_cast
  rfl

/-- The range of a node is that of its leaves, less the number of the first leaf. -/
theorem mem_covered (initial : Initial maxOrder memory) (inTree : Within node (root maxOrder))
    (leaf : Int) : leaf ∈ covered maxOrder memory (pointer node.code) ↔
      0 ≤ leaf + 2 ^ maxOrder ∧ node.Holds (leaf + 2 ^ maxOrder).toNat := by
  have width : (2 : Int) ^ node.height = (2 ^ node.height : Nat) := by push_cast; rfl
  have first : (2 : Int) ^ maxOrder = (2 ^ maxOrder : Nat) := by push_cast; rfl
  rw [covered, Set.mem_ofPred_eq, height_of_node inTree, initial.offset inTree, Node.holds_iff,
    width, first]
  omega

/-- Two ranges meet when one node contains the other. -/
theorem covered_meet_iff (initial : Initial maxOrder memory) {left right : Node}
    (leftIn : Within left (root maxOrder)) (rightIn : Within right (root maxOrder)) :
    (covered maxOrder memory (pointer left.code) ∩
        covered maxOrder memory (pointer right.code)).Nonempty ↔
      Within left right ∨ Within right left := by
  have shared (inner outer : Node) (innerIn : Within inner (root maxOrder))
      (contained : Within inner outer) :
      ∃ leaf : Int, 0 ≤ leaf + 2 ^ maxOrder ∧ inner.Holds (leaf + 2 ^ maxOrder).toNat ∧
        outer.Holds (leaf + 2 ^ maxOrder).toNat := by
    refine ⟨(inner.code * 2 ^ inner.height : Nat) - 2 ^ maxOrder, ?_⟩
    rw [Int.sub_add_cancel, Int.toNat_natCast]
    exact ⟨Int.natCast_nonneg _, Node.within_start (Node.within_refl inner),
      Node.within_start contained⟩
  constructor
  · rintro ⟨leaf, inLeft, inRight⟩
    exact Node.shared_leaf_comparable ((mem_covered initial leftIn leaf).mp inLeft).2
      ((mem_covered initial rightIn leaf).mp inRight).2
  · rintro (contained | contained)
    · obtain ⟨leaf, nonnegative, inner, outer⟩ := shared left right leftIn contained
      exact ⟨leaf, (mem_covered initial leftIn leaf).mpr ⟨nonnegative, inner⟩,
        (mem_covered initial rightIn leaf).mpr ⟨nonnegative, outer⟩⟩
    · obtain ⟨leaf, nonnegative, inner, outer⟩ := shared right left rightIn contained
      exact ⟨leaf, (mem_covered initial leftIn leaf).mpr ⟨nonnegative, outer⟩,
        (mem_covered initial rightIn leaf).mpr ⟨nonnegative, inner⟩⟩

/-- An index above another one by way of `PARENT` is that of a node above.

Proof: by induction on the uses of `PARENT`. Above the root there is no index of the tree. -/
theorem ancestorOrSelf_iff {inner outer : Node} (innerIn : Within inner (root maxOrder))
    (outerIn : Within outer (root maxOrder)) :
    AncestorOrSelf (pointer outer.code) (pointer inner.code) ↔ Within inner outer := by
  constructor
  · rintro ⟨steps, climbed⟩
    induction steps generalizing inner with
    | zero =>
      have codes : inner.code = outer.code := by
        rw [Function.iterate_zero_apply] at climbed
        simp only [pointer] at climbed
        omega
      rw [Node.code_injective innerIn outerIn codes]
      exact Node.within_refl outer
    | succ steps inductionHypothesis =>
      rw [Function.iterate_succ_apply, BuddyTree.parent_pointer] at climbed
      by_cases below : inner.height < maxOrder
      · exact Node.within_trans (Node.within_parent inner)
          (inductionHypothesis (BuddyTree.parent_in_tree innerIn below) climbed)
      · have bound := innerIn.1
        have atRoot : inner = root maxOrder :=
          Node.within_same_height innerIn (by simp only [root] at bound ⊢; omega)
        have positive := (Node.code_bounds outerIn).1
        rw [atRoot, parent_iterate] at climbed
        simp only [root, Node.parent, pointer] at climbed
        simp only [Nat.reduceDiv, Nat.zero_div] at climbed
        omega
  · intro contained
    refine ⟨outer.height - inner.height, ?_⟩
    rw [parent_iterate, contained.2]

/-- The ranges of the children are the two halves of the range of their parent. -/
theorem covered_halves (initial : Initial maxOrder memory) (inTree : Within node (root maxOrder))
    (inner : 0 < node.height) :
    covered maxOrder memory (pointer node.left.code) ∩
          covered maxOrder memory (pointer node.right.code) = ∅ ∧
      covered maxOrder memory (pointer node.left.code) ∪
          covered maxOrder memory (pointer node.right.code) =
        covered maxOrder memory (pointer node.code) := by
  obtain ⟨leftIn, rightIn⟩ := Node.children_within_root inTree inner
  constructor
  · rw [Set.eq_empty_iff_forall_notMem]
    rintro leaf ⟨inLeft, inRight⟩
    exact Node.children_apart node _ ⟨((mem_covered initial leftIn leaf).mp inLeft).2,
      ((mem_covered initial rightIn leaf).mp inRight).2⟩
  · ext leaf
    rw [Set.mem_union, mem_covered initial leftIn, mem_covered initial rightIn,
      mem_covered initial inTree, Node.holds_children node inner, and_or_left]

/-- A memory with the initial entries is tiled by them. -/
theorem Initial.tiles (initial : Initial maxOrder memory) : Tiles maxOrder memory where
  orders := by
    rintro buf inside
    obtain ⟨node, inTree, rfl, level⟩ := node_of_inTree inside
    rw [(initial node inTree).2, ← level]
    rfl
  arena := by
    have inTree := Node.within_refl (root maxOrder)
    have level : height maxOrder 0 = maxOrder := height_of_node inTree
    have offset : memory ⟨0, .blkOffset⟩ = 0 := by
      have start := initial.offset inTree
      rw [root, Nat.one_mul, Int.sub_self] at start
      exact start
    refine ⟨level, ?_⟩
    rw [covered, level, offset, Int.zero_add]
  children := by
    rintro buf inside inner child side
    obtain ⟨node, inTree, rfl, level⟩ := node_of_inTree inside
    rw [← level] at inner ⊢
    obtain ⟨leftIn, rightIn⟩ := Node.children_within_root inTree inner
    rw [BuddyTree.son_pointer, BuddyTree.daughter_pointer] at side
    rcases side with rfl | rfl
    · refine ⟨inTree_of_node leftIn, ?_, ?_⟩
      · rw [height_of_node leftIn]
        exact Nat.sub_add_cancel inner
      · rw [BuddyTree.parent_pointer, Node.left_parent node inner]
    · refine ⟨inTree_of_node rightIn, ?_, ?_⟩
      · rw [height_of_node rightIn]
        exact Nat.sub_add_cancel inner
      · rw [BuddyTree.parent_pointer, Node.right_parent node inner]
  siblings := by
    rintro buf inside inner
    simp only [sibling, parent, son, daughter]
    omega
  halves := by
    rintro buf inside inner
    obtain ⟨node, inTree, rfl, level⟩ := node_of_inTree inside
    rw [← level] at inner
    rw [BuddyTree.son_pointer, BuddyTree.daughter_pointer]
    exact covered_halves initial inTree inner
  laminar := by
    rintro left right leftInside rightInside
    obtain ⟨leftNode, leftIn, rfl, _⟩ := node_of_inTree leftInside
    obtain ⟨rightNode, rightIn, rfl, _⟩ := node_of_inTree rightInside
    rw [covered_meet_iff initial leftIn rightIn, ancestorOrSelf_iff rightIn leftIn,
      ancestorOrSelf_iff leftIn rightIn, or_comm]

end Ranges

/-- The initialization writes every node once, and the entries it leaves tile the arena,
for every maximum order and whatever the memory held. -/
theorem initial_tree_tiles (maxOrder : Nat) (memory : Cell → Int) :
    WritesOnce maxOrder ((initEmiBuf maxOrder).run memory).log ∧
      Tiles maxOrder ((initEmiBuf maxOrder).run memory).memory :=
  ⟨initEmiBuf_writesOnce maxOrder memory, (initEmiBuf_initial maxOrder memory).tiles⟩

/-- The checked definition leaves the same entries in an array of the tree's size. -/
theorem initEmiBuf_run {maxOrder : Nat} {array : List EmiBuf} (sized : Sized maxOrder array)
    (memory : Cell → Int) :
    ∃ top, BuddyTree.initEmiBuf array maxOrder = some top ∧
      Agrees maxOrder top ((initEmiBuf maxOrder).run memory).memory := by
  obtain ⟨top, completed, _, entries⟩ := BuddyTree.initEmiBuf_exact maxOrder array sized
  refine ⟨top, completed, fun node inTree field => ?_⟩
  obtain ⟨offset, order⟩ := initEmiBuf_initial maxOrder memory node inTree
  cases field with
  | blkOffset => rw [offset, cells_blkOffset, entries node inTree]
  | order => rw [order, cells_order, BuddyTree.orders, entries node inTree]

/-- `1 << count` in C's `int`. -/
def shiftedOne (count : Nat) : BitVec 32 := 1#32 <<< count

/-- `__init_emi_buf` with the products and shifts of C's `int`. -/
def initEmiBufInt (maximumOrder : Nat) : Walk Unit :=
  forRange (maximumOrder + 1) fun i =>
    forRange (shiftedOne i).toInt.toNat fun j => do
      store ⟨leftMostOffspring (shiftedOne i).toInt + j, .blkOffset⟩
        (BitVec.ofNat 32 j * shiftedOne (maximumOrder - i)).toInt
      store ⟨leftMostOffspring (shiftedOne i).toInt + j, .order⟩ (maximumOrder - i : Nat)

/-- A number that keeps the sign bit clear is itself in an `int`. -/
theorem toInt_of_small {word : BitVec 32} {value : Nat} (same : word.toNat = value)
    (small : value < 2 ^ 31) : word.toInt = value := by
  rw [BitVec.toInt_eq_toNat_of_lt (by omega), same]

/-- Such a shift is a power of two. -/
theorem shiftedOne_toNat {count : Nat} (short : count ≤ 30) :
    (shiftedOne count).toNat = 2 ^ count := by
  have small : 2 ^ count < 2 ^ 32 := Nat.pow_lt_pow_right (by decide) (by omega)
  rw [shiftedOne, BitVec.toNat_shiftLeft, BitVec.toNat_ofNat, Nat.shiftLeft_eq, Nat.one_mod,
    Nat.one_mul, Nat.mod_eq_of_lt small]

/-- Up to the maximum order 30 an `int` is wide enough for the initialization. -/
theorem initEmiBufInt_exact {maximumOrder : Nat} (short : maximumOrder ≤ 30) :
    initEmiBufInt maximumOrder = initEmiBuf maximumOrder := by
  apply forRange_congr
  intro level bound
  have entries : (shiftedOne level).toInt = (2 ^ level : Nat) :=
    toInt_of_small (shiftedOne_toNat (by omega)) (Nat.pow_lt_pow_right (by decide) (by omega))
  rw [initLevel, entries, Int.toNat_natCast]
  apply forRange_congr
  intro j inside
  have product : (BitVec.ofNat 32 j * shiftedOne (maximumOrder - level)).toInt =
      (j * 2 ^ (maximumOrder - level) : Nat) := by
    have step : 0 < 2 ^ (maximumOrder - level) := Nat.pow_pos (by decide)
    have small : j * 2 ^ (maximumOrder - level) < 2 ^ 31 := by
      calc j * 2 ^ (maximumOrder - level)
          < 2 ^ level * 2 ^ (maximumOrder - level) := Nat.mul_lt_mul_of_pos_right inside step
        _ = 2 ^ maximumOrder := by
            rw [← Nat.pow_add, Nat.add_sub_cancel' (Nat.le_of_lt_succ bound)]
        _ < 2 ^ 31 := Nat.pow_lt_pow_right (by decide) (by omega)
    have wide : j < 2 ^ 32 := by
      have least := Nat.le_mul_of_pos_right j step
      omega
    apply toInt_of_small _ small
    rw [BitVec.toNat_mul, shiftedOne_toNat (by omega), BitVec.toNat_ofNat, Nat.mod_eq_of_lt wide,
      Nat.mod_eq_of_lt (by omega)]
  rw [product]
  push_cast
  rfl

end Emilib.BuddyTiling
