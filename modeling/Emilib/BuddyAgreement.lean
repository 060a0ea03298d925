import Mathlib.Data.List.Pairwise
import Emilib.BuddyRecovery

/-!
# The tree is a summary of the live blocks

Along clean runs every order field is exact for the live blocks. An exact field is
determined from the leaves up, so the array holds nothing else: two runs of any
length that leave the same blocks live leave the same array, entry for entry, and
serve whatever comes next alike.

The fields also miss nothing. A request is answered exactly when the arena has an
aligned range of its order that meets no live block, so the only thing that keeps a
free piece of the arena from being used is its alignment.
-/

namespace Emilib.BuddyTree

open Node

variable {maxOrder : Nat} {arena left right : Arena}

/-- Exact fields are determined by which nodes are held.

The induction is on the height: below a held node and away from all held nodes the
field is given, and anywhere else it is combined from the halves. -/
theorem exact_unique {ord other : Nat → Int} {taken held : List Node}
    (same : ∀ block, block ∈ taken ↔ block ∈ held) (node : Node)
    (exact : ∀ inner, Within inner node → Exact ord taken inner)
    (exactToo : ∀ inner, Within inner node → Exact other held inner) :
    ord node.code = other node.code := by
  generalize level : node.height = height
  induction height generalizing node with
  | zero =>
    have own := exact node (within_refl node)
    have ownToo := exactToo node (within_refl node)
    by_cases used : ∃ block ∈ taken, Within block node
    · obtain ⟨block, member, contained⟩ := used
      have here : block = node := within_same_height contained (by have low := contained.1; omega)
      subst here
      rw [own.held member, ownToo.held ((same block).mp member)]
    · have free (block : Node) (member : block ∈ taken) : ¬ Within block node :=
        fun contained => used ⟨block, member, contained⟩
      rw [own.whole free, ownToo.whole fun block member => free block ((same block).mpr member)]
  | succ height inductionHypothesis =>
    have own := exact node (within_refl node)
    have ownToo := exactToo node (within_refl node)
    have inner : 0 < node.height := by omega
    have halves (half : Node) (below : Within half node) (lower : half.height = height) :
        ord half.code = other half.code :=
      inductionHypothesis half (fun deeper contained => exact deeper (within_trans contained below))
        (fun deeper contained => exactToo deeper (within_trans contained below)) lower
    by_cases member : node ∈ taken
    · rw [own.held member, ownToo.held ((same node).mp member)]
    · by_cases used : ∃ block ∈ taken, Within block node
      · obtain ⟨block, present, contained⟩ := used
        rw [own.split member ⟨block, present, contained⟩,
          ownToo.split (fun also => member ((same node).mpr also))
            ⟨block, (same block).mp present, contained⟩,
          halves node.left (left_within node inner) (by simp [Node.left, level]),
          halves node.right (right_within node inner) (by simp [Node.right, level])]
      · have free (block : Node) (present : block ∈ taken) : ¬ Within block node :=
          fun contained => used ⟨block, present, contained⟩
        rw [own.whole free, ownToo.whole fun block present => free block ((same block).mpr present)]

/-- Arrays of the same size that agree on the entries of all nodes are equal. -/
theorem top_ext {first second : List EmiBuf} (sized : Sized maxOrder first)
    (sizedToo : Sized maxOrder second)
    (same : ∀ node, Within node (root maxOrder) → entry first node.code = entry second node.code) :
    first = second := by
  apply List.ext_getElem (sized.trans sizedToo.symm)
  intro index stored storedToo
  have bound : index + 1 < 2 ^ (maxOrder + 1) := by
    rw [sized] at stored
    omega
  have entry_eq := same _ (code_in_tree (Nat.succ_pos index) bound)
  simpa [entry, stored, storedToo] using entry_eq

/-- The allocator remembers nothing but its live blocks: two clean runs, of whatever
requests in whatever order, that leave the same blocks live leave the same array.

Proof: both arrays are faithful. The offsets are those of the tree, and the order
fields are exact for the same nodes, so they agree from the leaves up. -/
theorem clean_runs_agree (maxOrder : Nat) (left right : Arena)
    (leftReached : (allocator maxOrder).ReachedUnder (CleanRequest maxOrder) left)
    (rightReached : (allocator maxOrder).ReachedUnder (CleanRequest maxOrder) right)
    (same : ∀ block, block ∈ left.live ↔ block ∈ right.live) : left.top = right.top := by
  have first := clean_reached_faithful leftReached
  have second := clean_reached_faithful rightReached
  have nodes (node : Node) :
      node ∈ left.live.map Block.node ↔ node ∈ right.live.map Block.node := by
    simp only [List.mem_map, same]
  apply top_ext first.sized second.sized
  intro node inTree
  apply EmiBuf.ext
  · rw [first.offsets node inTree, second.offsets node inTree]
  · exact exact_unique nodes node
      (fun inner contained => first.exact inner (within_trans contained inTree))
      (fun inner contained => second.exact inner (within_trans contained inTree))

/-- A tree of order two, as it is initialized. -/
def twoLevels : Arena := ⟨[⟨0, 2⟩, ⟨0, 1⟩, ⟨2, 1⟩, ⟨0, 0⟩, ⟨1, 0⟩, ⟨2, 0⟩, ⟨3, 0⟩], []⟩

theorem twoLevels_starts : (allocator 2).start twoLevels :=
  ⟨rfl, List.replicate 7 ⟨0, 0⟩, by decide, by decide⟩

/-- Its left half is taken in two pieces, and its right half as a whole; the pieces are
given back. -/
def freedInPieces : Arena :=
  (System.follow (serve 2) (CleanRequest 2) twoLevels
    [.alloc 0, .alloc 0, .alloc 1, .free ⟨3, 0⟩, .free ⟨4, 0⟩]).get (by decide)

/-- The same with both halves taken as wholes. -/
def freedAsWhole : Arena :=
  (System.follow (serve 2) (CleanRequest 2) twoLevels
    [.alloc 1, .alloc 1, .free ⟨1, 1⟩]).get (by decide)

/-- Both leave the same array. -/
theorem halves_agree : freedInPieces.top = freedAsWhole.top :=
  clean_runs_agree 2 freedInPieces freedAsWhole
    (System.followed_reached _ (.initial twoLevels twoLevels_starts) (by decide))
    (System.followed_reached _ (.initial twoLevels twoLevels_starts) (by decide))
    (fun block => by rw [show freedInPieces.live = freedAsWhole.live by decide])

/-- Exact fields are ample: a node above a single block is one short of its height,
and a node inside no block promises what its halves do. -/
theorem exact_ample {ord : Nat → Int} {taken : List Node} {node : Node}
    (apart : taken.Pairwise Apart)
    (exact : ∀ inner, Within inner node → Exact ord taken inner) : Ample ord taken node := by
  have own := exact node (within_refl node)
  constructor
  · exact own.whole
  · exact own.held
  · intro last member contained different only
    have absent : node ∉ taken := by
      intro present
      have symmetric : Std.Symm Apart := ⟨fun _ _ apart => apart.symm⟩
      exact (apart.forall member present different).1 contained
    exact exact_single exact member contained absent only
  · intro outside inner child side full
    have below : Within child node := by
      rcases side with rfl | rfl
      · exact left_within node inner
      · exact right_within node inner
    by_cases used : ∃ block ∈ taken, Within block node
    · rw [own.split (fun member => outside node member (within_refl node)) used, combined]
      rcases side with rfl | rfl
      · rw [if_neg (fun both => Int.not_lt.mpr full both.1)]
        exact Int.le_max_left _ _
      · rw [if_neg (fun both => Int.not_lt.mpr full both.2)]
        exact Int.le_max_right _ _
    · have free := own.whole fun block member contained => used ⟨block, member, contained⟩
      have bound := (exact_bound child fun deeper contained =>
        exact deeper (within_trans contained below)).1
      have lower : (child.height : Int) ≤ node.height := by exact_mod_cast below.1
      rw [free]
      exact Int.le_trans bound lower

/-- Every state of a clean run is one whose live blocks stay disjoint. -/
theorem Faithful.restorable (faithful : Faithful maxOrder arena) : Restorable maxOrder arena where
  toPlaced := faithful.placed
  apart := faithful.apart
  ample _ inTree := exact_ample faithful.apart fun inner contained =>
    faithful.exact inner (within_trans contained inTree)

/-- A node that no held block meets has a range that no live block meets. -/
theorem Faithful.unused (faithful : Faithful maxOrder arena) {node : Node}
    (inTree : Within node (root maxOrder))
    (apart : ∀ block ∈ arena.live.map Block.node, ¬ Within node block ∧ ¬ Within block node) :
    ∃ index, index * 2 ^ node.height + 2 ^ node.height ≤ 2 ^ maxOrder ∧
      Unused arena node.height index := by
  obtain ⟨low, atLeast, below⟩ := (within_root_iff node maxOrder).mp inTree
  have whole : 2 ^ (maxOrder - node.height) * 2 ^ node.height = 2 ^ maxOrder := by
    rw [← Nat.pow_add]
    congr 1
    omega
  obtain ⟨index, code⟩ := Nat.exists_eq_add_of_le atLeast
  have shifted : node.code * 2 ^ node.height = index * 2 ^ node.height + 2 ^ maxOrder := by
    rw [code, Nat.add_mul, whole, Nat.add_comm]
  refine ⟨index, ?_, ?_⟩
  · have bounded : index + 1 ≤ 2 ^ (maxOrder - node.height) := by omega
    calc index * 2 ^ node.height + 2 ^ node.height
      _ = (index + 1) * 2 ^ node.height := by rw [Nat.add_mul, Nat.one_mul]
      _ ≤ 2 ^ (maxOrder - node.height) * 2 ^ node.height := Nat.mul_le_mul_right _ bounded
      _ = 2 ^ maxOrder := whole
  · intro block member
    have address := faithful.placed.leafStart member
    obtain ⟨outside, inside⟩ := apart block.node (List.mem_map_of_mem member)
    have height : block.node.height = block.order := rfl
    rw [height] at address
    rcases apart_ranges outside inside with before | behind
    · right
      rw [shifted, height] at before
      have cast : (index * 2 ^ node.height + 2 ^ maxOrder + 2 ^ node.height : Int) ≤
          (block.node.code * 2 ^ block.order : Nat) := by exact_mod_cast before
      omega
    · left
      rw [shifted, height] at behind
      have cast : ((block.node.code * 2 ^ block.order : Nat) : Int) + 2 ^ block.order ≤
          index * 2 ^ node.height + 2 ^ maxOrder := by exact_mod_cast behind
      omega

/-- In every state of a clean run, a request is answered exactly when the arena has an
aligned range of its order that meets no live block.

Proof: what is answered is a node apart from the live blocks, and its range is such a
range. The other way round, the node of a free range has its height in its field, and
the root promises as much. -/
theorem answered_iff_range_free (maxOrder : Nat) (arena : Arena)
    (reached : (allocator maxOrder).ReachedUnder (CleanRequest maxOrder) arena)
    (order : Nat) (low : order ≤ maxOrder) :
    (∃ buf top, allocEmiBuf arena.top order maxOrder = some (some buf, top)) ↔
      ∃ index, index * 2 ^ order + 2 ^ order ≤ 2 ^ maxOrder ∧ Unused arena order index := by
  have faithful := clean_reached_faithful reached
  constructor
  · rintro ⟨buf, top, answered⟩
    have inTree (block : Node) (member : block ∈ arena.live.map Block.node) :
        Within block (root maxOrder) := by
      obtain ⟨live, present, rfl⟩ := List.mem_map.mp member
      exact (faithful.inTree live present).1
    rcases getEmiBuf_exact order faithful.sized faithful.exact inTree with
      refused | ⟨found, chosen, foundIn, rfl, outside⟩
    · simp [allocEmiBuf, refused] at answered
    · exact faithful.unused foundIn outside
  · rintro ⟨index, inside, unused⟩
    have restorable := faithful.restorable
    obtain ⟨node, inTree, height, apart⟩ := restorable.unused_node low inside unused
    have field := (restorable.ample node inTree).whole fun block member => (apart block member).2
    have promised := promised_upward restorable.ample node inTree
      (fun block member => (apart block member).1) (by omega)
    obtain ⟨found, chosen, foundIn, rfl⟩ := getEmiBuf_node restorable.sized low (by omega)
    obtain ⟨updated, completed, _, _⟩ :=
      marked_kept (flipOrder found.height) restorable.sized foundIn
    obtain ⟨marked, marking, walked⟩ := Option.bind_eq_some_iff.mp completed
    exact ⟨pointer found.code, updated, by simp [allocEmiBuf, chosen, marking, walked]⟩

/-- The half that was given back in pieces is used as a whole. -/
theorem half_answered :
    (∃ buf top, allocEmiBuf freedInPieces.top 1 2 = some (some buf, top)) ↔
      ∃ index, index * 2 ^ 1 + 2 ^ 1 ≤ 2 ^ 2 ∧ Unused freedInPieces 1 index :=
  answered_iff_range_free 2 freedInPieces
    (System.followed_reached _ (.initial twoLevels twoLevels_starts) (by decide)) 1 (by decide)

end Emilib.BuddyTree
