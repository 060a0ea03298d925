import Mathlib.Algebra.Order.Ring.Int
import Emilib.Runs

/-!
# The buddy tree of `emi_shbuf.c`

The shared arena is cut into `2 ^ max_order` smallest blocks, tracked by an array
of `struct emi_buf` laid out as an implicit binary heap. Each entry keeps the
offset of its block and an order field that summarizes the largest free block
below it; a negative field is the flipped order of a block taken as a whole.

The definitions follow the source: the index macros use pointer differences, so
an index is an integer, and every load and store is checked against the array,
so an access outside it has no result. C's `int` fields are integers here. What a
run stores stays inside 32 bits as long as its requests are clean; otherwise the
`parent->order++` of `update_buf_order` may exceed them, which `BuddyOverflow` is
about. The locking around these functions is not part of them.
-/

namespace Emilib.BuddyTree

/-- `struct emi_buf`. -/
structure EmiBuf where
  blkOffset : Int
  order : Int
deriving DecidableEq, Repr

/-- `BUDDY_IDX(buf, top) + 1 >> 1`, back as an index: `PARENT`. -/
def parent (buf : Int) : Int := (buf + 1) / 2 - 1

/-- `SON`. -/
def son (buf : Int) : Int := 2 * buf + 1

/-- `DAUGHTER`. -/
def daughter (buf : Int) : Int := 2 * buf + 2

/-- `SIBLING`: the next entry when it has the same parent, else the previous one. -/
def sibling (buf : Int) : Int := if parent buf = parent (buf + 1) then buf + 1 else buf - 1

/-- `LEFT_MOST_OFFSPRING`. -/
def leftMostOffspring (order : Int) : Int := order - 1

/-- `FLIP_ORDER`. -/
def flipOrder (order : Int) : Int := -order - 1

/-- Read an entry of the array; outside it there is none. -/
def load (top : List EmiBuf) (buf : Int) : Option EmiBuf :=
  if 0 ≤ buf then top[buf.toNat]? else none

/-- Write an entry of the array; outside it there is none. -/
def store (top : List EmiBuf) (buf : Int) (value : EmiBuf) : Option (List EmiBuf) :=
  if 0 ≤ buf ∧ buf.toNat < top.length then some (top.set buf.toNat value) else none

/-- Assign the order field of an entry. -/
def setOrder (top : List EmiBuf) (buf order : Int) : Option (List EmiBuf) := do
  let entry ← load top buf
  store top buf { entry with order := order }

/-- The child `get_emi_buf` continues with: the daughter when the son is too
small, the son when the daughter is, and otherwise the smaller of the two. -/
def nextChild (top : List EmiBuf) (order : Int) (tmp : Int) : Option Int := do
  let sonBuf ← load top (son tmp)
  let daughterBuf ← load top (daughter tmp)
  if sonBuf.order < order then return daughter tmp
  else if daughterBuf.order < order then return son tmp
  else return if sonBuf.order ≤ daughterBuf.order then son tmp else daughter tmp

/-- The loop `while (--level > order)` of `get_emi_buf`. -/
def descend (top : List EmiBuf) (order : Nat) : Nat → Int → Option Int
  | 0, tmp => some tmp
  | level + 1, tmp =>
      if level > order then do
        let next ← nextChild top order tmp
        descend top order level next
      else some tmp

/-- `get_emi_buf`. The outer option is an access outside the array, the inner
one is the returned pointer. -/
def getEmiBuf (top : List EmiBuf) (order maxOrder : Nat) : Option (Option Int) := do
  let root ← load top 0
  if root.order < order then return none
  else
    let found ← descend top order (maxOrder + 1) 0
    return some found

/-- The value one iteration of `update_buf_order` gives the parent. -/
def mergedOrder (order : Nat) (siblingOrder bufOrder parentOrder : Int) : Int :=
  if siblingOrder < 0 ∧ bufOrder < 0 then flipOrder order
  else if siblingOrder = bufOrder then parentOrder + 1
  else if siblingOrder > bufOrder then siblingOrder else bufOrder

/-- One iteration of the loop of `update_buf_order`, for the value `order` has
in its body. It returns the array and the parent, the next `buf`. -/
def updateParent (top : List EmiBuf) (buf : Int) (order : Nat) : Option (List EmiBuf × Int) := do
  let siblingBuf ← load top (sibling buf)
  let current ← load top buf
  let parentBuf ← load top (parent buf)
  let updated ← setOrder top (parent buf)
    (mergedOrder order siblingBuf.order current.order parentBuf.order)
  return (updated, parent buf)

/-- The loop of `update_buf_order`: `remaining` is the number of values the
guard `++order < max_order + 1` still admits. -/
def updateLoop : Nat → List EmiBuf → Int → Nat → Option (List EmiBuf)
  | 0, top, _, _ => some top
  | remaining + 1, top, buf, order => do
      let (updated, next) ← updateParent top buf (order + 1)
      updateLoop remaining updated next (order + 1)

/-- `update_buf_order`. -/
def updateBufOrder (top : List EmiBuf) (buf : Int) (order maxOrder : Nat) : Option (List EmiBuf) :=
  updateLoop (maxOrder - order) top buf order

/-- The inner loop of `__init_emi_buf`: the entries of one level. -/
def initLevel (top : List EmiBuf) (level maximumOrder : Nat) : Option (List EmiBuf) :=
  (List.range (2 ^ level)).foldlM (fun top (j : Nat) =>
    store top (leftMostOffspring (2 ^ level) + j)
      ⟨j * 2 ^ (maximumOrder - level), (maximumOrder - level : Nat)⟩) top

/-- `__init_emi_buf`. -/
def initEmiBuf (top : List EmiBuf) (maximumOrder : Nat) : Option (List EmiBuf) :=
  (List.range (maximumOrder + 1)).foldlM (fun top level => initLevel top level maximumOrder) top

/-- `__alloc_emi_buf`: the chosen entry, or NULL, and the array. -/
def allocEmiBuf (top : List EmiBuf) (order maxOrder : Nat) :
    Option (Option Int × List EmiBuf) := do
  match ← getEmiBuf top order maxOrder with
  | none => return (none, top)
  | some tmp =>
      let marked ← setOrder top tmp (flipOrder order)
      let updated ← updateBufOrder marked tmp order maxOrder
      return (some tmp, updated)

/-- `__free_emi_buf`. -/
def freeEmiBuf (top : List EmiBuf) (buf : Int) (order maxOrder : Nat) : Option (List EmiBuf) := do
  let marked ← setOrder top buf order
  updateBufOrder marked buf order maxOrder

/-- A block handed out and not yet freed, with the order it was allocated with. -/
structure Block where
  buf : Int
  order : Nat
deriving DecidableEq, Repr

/-- The array and the blocks its users hold. -/
structure Arena where
  top : List EmiBuf
  live : List Block
deriving DecidableEq, Repr

/-- A use of the allocator. -/
inductive Request where
  | alloc (order : Nat)
  | free (block : Block)
deriving DecidableEq, Repr

/-- Serve one request. Only a live block may be freed, with its own order; an
access outside the array leaves no next state. -/
def serve (maxOrder : Nat) (arena : Arena) : Request → Option Arena
  | .alloc order => do
      match ← allocEmiBuf arena.top order maxOrder with
      | (none, top) => return { arena with top := top }
      | (some buf, top) => return { top := top, live := ⟨buf, order⟩ :: arena.live }
  | .free block =>
      if block ∈ arena.live then do
        let top ← freeEmiBuf arena.top block.buf block.order maxOrder
        return { top := top, live := arena.live.erase block }
      else none

/-- Allocator runs: initialize an array of `2 ^ (max_order + 1) - 1` entries with
any contents, then serve requests. -/
def allocator (maxOrder : Nat) : System Arena Request :=
  System.performing (fun arena => arena.live = [] ∧ ∃ memory : List EmiBuf,
    memory.length = 2 ^ (maxOrder + 1) - 1 ∧ initEmiBuf memory maxOrder = some arena.top)
    (serve maxOrder)

/-- The offset of a live block, as its entry records it. -/
def blockOffset (top : List EmiBuf) (block : Block) : Int :=
  ((load top block.buf).map EmiBuf.blkOffset).getD 0

/-- The ranges of two blocks have no smallest block in common. -/
def Disjoint (top : List EmiBuf) (left right : Block) : Prop :=
  blockOffset top left + 2 ^ left.order ≤ blockOffset top right ∨
    blockOffset top right + 2 ^ right.order ≤ blockOffset top left

instance (top : List EmiBuf) (left right : Block) : Decidable (Disjoint top left right) :=
  inferInstanceAs (Decidable (_ ∨ _))

/-- The live blocks are pairwise disjoint ranges of the arena. -/
def Separated (maxOrder : Nat) (arena : Arena) : Prop :=
  arena.live.Pairwise (Disjoint arena.top) ∧
    ∀ block ∈ arena.live, 0 ≤ blockOffset arena.top block ∧
      blockOffset arena.top block + 2 ^ block.order ≤ 2 ^ maxOrder

instance (maxOrder : Nat) (arena : Arena) : Decidable (Separated maxOrder arena) :=
  inferInstanceAs (Decidable (_ ∧ _))

end Emilib.BuddyTree
