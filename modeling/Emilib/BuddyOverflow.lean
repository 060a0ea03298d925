import Emilib.BuddyRecovery

/-!
# The order fields as an `int`

In the buddy tree so far an order field is an integer of any size. In `struct emi_buf` it
is an `int`. Clean runs store nothing there beyond the orders of the tree, but a run may
take the increment of `update_buf_order` wrongly again and again while its live blocks stay
apart, and then the field of a node grows by one each time. Behind the largest `int` it
becomes negative, and a negative root turns every request down.

Here the functions that increment a field do so as a machine does. As long as no increment
wraps around they are the functions on integers, so what holds of the runs of those holds
of these.
-/

namespace Emilib.BuddyOverflow

open BuddyTree hiding mergedOrder updateParent updateLoop updateBufOrder allocEmiBuf freeEmiBuf
  serve allocator Parting

/-- `parent->order++`, as an addition of the machine. The language leaves undefined what
it gives for the largest `int`. -/
def increment (order : Int) : Int := (order + 1).bmod (2 ^ 32)

/-- The value one iteration of `update_buf_order` gives the parent. -/
def mergedOrder (order : Nat) (siblingOrder bufOrder parentOrder : Int) : Int :=
  if siblingOrder < 0 ∧ bufOrder < 0 then flipOrder order
  else if siblingOrder = bufOrder then increment parentOrder
  else if siblingOrder > bufOrder then siblingOrder else bufOrder

/-- One iteration of the loop of `update_buf_order`: the array and the next `buf`. -/
def updateParent (top : List EmiBuf) (buf : Int) (order : Nat) : Option (List EmiBuf × Int) := do
  let siblingBuf ← load top (sibling buf)
  let current ← load top buf
  let parentBuf ← load top (parent buf)
  let updated ← setOrder top (parent buf)
    (mergedOrder order siblingBuf.order current.order parentBuf.order)
  return (updated, parent buf)

/-- The loop of `update_buf_order`. -/
def updateLoop : Nat → List EmiBuf → Int → Nat → Option (List EmiBuf)
  | 0, top, _, _ => some top
  | remaining + 1, top, buf, order => do
      let (updated, next) ← updateParent top buf (order + 1)
      updateLoop remaining updated next (order + 1)

/-- `update_buf_order`. -/
def updateBufOrder (top : List EmiBuf) (buf : Int) (order maxOrder : Nat) : Option (List EmiBuf) :=
  updateLoop (maxOrder - order) top buf order

/-- `__alloc_emi_buf`: the chosen entry, or NULL, and the array. -/
def allocEmiBuf (top : List EmiBuf) (order maxOrder : Nat) :
    Option (Option Int × List EmiBuf) := do
  match ← getEmiBuf top order maxOrder with
  | none => return (none, top)
  | some tmp =>
      let marked ← setOrder top tmp (flipOrder order)
      let updated ← updateBufOrder marked tmp order maxOrder
      return (some tmp, updated)

/-- `__free_emi_buf`. -/
def freeEmiBuf (top : List EmiBuf) (buf : Int) (order maxOrder : Nat) : Option (List EmiBuf) := do
  let marked ← setOrder top buf order
  updateBufOrder marked buf order maxOrder

/-- Serve one request. -/
def serve (maxOrder : Nat) (arena : Arena) : Request → Option Arena
  | .alloc order => do
      match ← allocEmiBuf arena.top order maxOrder with
      | (none, top) => return { arena with top := top }
      | (some buf, top) => return { top := top, live := ⟨buf, order⟩ :: arena.live }
  | .free block =>
      if block ∈ arena.live then do
        let top ← freeEmiBuf arena.top block.buf block.order maxOrder
        return { top := top, live := arena.live.erase block }
      else none

/-- Allocator runs: initialize an array, then serve requests. -/
def allocator (maxOrder : Nat) : System Arena Request :=
  System.performing (BuddyTree.allocator maxOrder).start (serve maxOrder)

/-- A request of a fitting order that leaves the live blocks pairwise disjoint. -/
def Parting (maxOrder : Nat) (arena : Arena) (request : Request) : Prop :=
  Fitting maxOrder request ∧
    ∀ after ∈ serve maxOrder arena request, after.live.Pairwise (Disjoint after.top)

instance (maxOrder : Nat) (arena : Arena) (request : Request) :
    Decidable (Parting maxOrder arena request) :=
  inferInstanceAs (Decidable (_ ∧ _))

/-- Every iteration of the loop of `update_buf_order` from here that increments a field
stays inside an `int`. -/
def ExactWalk : Nat → List EmiBuf → Int → Nat → Prop
  | 0, _, _, _ => True
  | remaining + 1, top, buf, order =>
      (∀ siblingBuf ∈ load top (sibling buf), ∀ current ∈ load top buf,
        ∀ parentBuf ∈ load top (parent buf), siblingBuf.order = current.order →
          0 ≤ current.order → increment parentBuf.order = parentBuf.order + 1) ∧
      ∀ next ∈ updateParent top buf (order + 1), ExactWalk remaining next.1 next.2 (order + 1)

/-- The update a request starts is exact: the walk from the entry it marks. -/
def ExactUpdate (top : List EmiBuf) (buf mark : Int) (order maxOrder : Nat) : Prop :=
  ∀ marked ∈ setOrder top buf mark, ExactWalk (maxOrder - order) marked buf order

/-- A request whose update, if it makes one, wraps no increment around. -/
def ExactRequest (maxOrder : Nat) (arena : Arena) : Request → Prop
  | .alloc order => ∀ answer ∈ getEmiBuf arena.top order maxOrder, ∀ buf ∈ answer,
      ExactUpdate arena.top buf (flipOrder order) order maxOrder
  | .free block => ExactUpdate arena.top block.buf block.order block.order maxOrder

instance decidableExactWalk : (remaining : Nat) → (top : List EmiBuf) → (buf : Int) →
    (order : Nat) → Decidable (ExactWalk remaining top buf order)
  | 0, _, _, _ => inferInstanceAs (Decidable True)
  | remaining + 1, _, _, order =>
      have := fun next : List EmiBuf × Int => decidableExactWalk remaining next.1 next.2 (order + 1)
      inferInstanceAs (Decidable (_ ∧ _))

instance (top : List EmiBuf) (buf mark : Int) (order maxOrder : Nat) :
    Decidable (ExactUpdate top buf mark order maxOrder) :=
  inferInstanceAs (Decidable (∀ _ ∈ _, _))

instance (maxOrder : Nat) (arena : Arena) (request : Request) :
    Decidable (ExactRequest maxOrder arena request) :=
  match request with
  | .alloc _ => inferInstanceAs (Decidable (∀ _ ∈ _, ∀ _ ∈ _, _))
  | .free _ => inferInstanceAs (Decidable (ExactUpdate _ _ _ _ _))

/-- Requests that leave the live blocks disjoint and wrap no increment around. -/
def PartingExactly (maxOrder : Nat) (arena : Arena) (request : Request) : Prop :=
  Parting maxOrder arena request ∧ ExactRequest maxOrder arena request

instance (maxOrder : Nat) (arena : Arena) (request : Request) :
    Decidable (PartingExactly maxOrder arena request) :=
  inferInstanceAs (Decidable (_ ∧ _))

/-- An increment that stays inside an `int` is an addition. -/
theorem increment_exact {order : Int} (low : -2 ^ 31 ≤ order) (high : order < 2 ^ 31 - 1) :
    increment order = order + 1 :=
  Int.bmod_eq_of_le (by omega) (by omega)

section Same

variable {top : List EmiBuf} {buf : Int}

/-- An iteration that wraps no increment around is one over the integers. -/
theorem updateParent_same (order : Nat)
    (exact : ∀ siblingBuf ∈ load top (sibling buf), ∀ current ∈ load top buf,
      ∀ parentBuf ∈ load top (parent buf), siblingBuf.order = current.order →
        0 ≤ current.order → increment parentBuf.order = parentBuf.order + 1) :
    updateParent top buf order = BuddyTree.updateParent top buf order := by
  rw [updateParent, BuddyTree.updateParent]
  cases siblingLoaded : load top (sibling buf) with
  | none => rfl
  | some siblingBuf =>
    cases loaded : load top buf with
    | none => rfl
    | some current =>
      cases parentLoaded : load top (parent buf) with
      | none => rfl
      | some parentBuf =>
        have merged : mergedOrder order siblingBuf.order current.order parentBuf.order =
            BuddyTree.mergedOrder order siblingBuf.order current.order parentBuf.order := by
          rw [mergedOrder, BuddyTree.mergedOrder]
          split_ifs with full equal
          · rfl
          · exact exact siblingBuf siblingLoaded current loaded parentBuf parentLoaded equal
              (by omega)
          · rfl
          · rfl
        simp only [Option.bind_eq_bind, Option.bind_some, merged]

/-- So is a walk. -/
theorem updateLoop_same (remaining order : Nat) (exact : ExactWalk remaining top buf order) :
    updateLoop remaining top buf order = BuddyTree.updateLoop remaining top buf order := by
  induction remaining generalizing top buf order with
  | zero => rfl
  | succ remaining inductionHypothesis =>
    obtain ⟨here, onward⟩ := exact
    have same := updateParent_same (order + 1) here
    rw [updateLoop, BuddyTree.updateLoop, ← same]
    cases stepped : updateParent top buf (order + 1) with
    | none => rfl
    | some next => exact inductionHypothesis _ (onward next stepped)

/-- So is an update. -/
theorem update_same {mark : Int} {order maxOrder : Nat}
    (exact : ExactUpdate top buf mark order maxOrder) :
    (setOrder top buf mark).bind (fun marked => updateBufOrder marked buf order maxOrder) =
      (setOrder top buf mark).bind
        (fun marked => BuddyTree.updateBufOrder marked buf order maxOrder) := by
  cases marking : setOrder top buf mark with
  | none => rfl
  | some marked => exact updateLoop_same _ _ (exact marked marking)

end Same

/-- A request that wraps no increment around is served as over the integers. -/
theorem serve_same {maxOrder : Nat} {arena : Arena} {request : Request}
    (exact : ExactRequest maxOrder arena request) :
    serve maxOrder arena request = BuddyTree.serve maxOrder arena request := by
  cases request with
  | alloc order =>
    have same : allocEmiBuf arena.top order maxOrder =
        BuddyTree.allocEmiBuf arena.top order maxOrder := by
      rw [allocEmiBuf, BuddyTree.allocEmiBuf]
      cases answered : getEmiBuf arena.top order maxOrder with
      | none => rfl
      | some answer =>
        cases answer with
        | none => rfl
        | some buf =>
          have updated := update_same (exact (some buf) answered buf rfl)
          simp only [Option.bind_eq_bind, Option.bind_some] at updated ⊢
          rw [← Option.bind_assoc, ← Option.bind_assoc, updated]
    rw [serve, same]
    rfl
  | free block =>
    have same : freeEmiBuf arena.top block.buf block.order maxOrder =
        BuddyTree.freeEmiBuf arena.top block.buf block.order maxOrder := update_same exact
    rw [serve, BuddyTree.serve, same]

/-- A run that wraps no increment around is one over the integers. -/
theorem exact_reached {maxOrder : Nat} {arena : Arena}
    (reached : (allocator maxOrder).ReachedUnder (PartingExactly maxOrder) arena) :
    (BuddyTree.allocator maxOrder).ReachedUnder (BuddyTree.Parting maxOrder) arena := by
  induction reached with
  | initial arena starts => exact .initial arena starts
  | next before after request _ allowed taken inductionHypothesis =>
    obtain ⟨⟨fitting, disjoint⟩, exact⟩ := allowed
    have same := serve_same exact
    refine .next before after request inductionHypothesis ⟨fitting, ?_⟩ (same.symm.trans taken)
    rwa [← same]

section Alike

variable {top other : List EmiBuf} {buf : Int}

/-- Where an array has an entry, so has any other array of its size. -/
theorem load_alike (sizes : top.length = other.length) {entry : EmiBuf}
    (loaded : load top buf = some entry) : ∃ found, load other buf = some found := by
  rw [load] at loaded ⊢
  split_ifs at loaded ⊢ with inside
  obtain ⟨stored, _⟩ := List.getElem?_eq_some_iff.mp loaded
  exact ⟨_, List.getElem?_eq_getElem (sizes ▸ stored)⟩

/-- The order of an entry that is there can be assigned. -/
theorem setOrder_loaded {entry : EmiBuf} (loaded : load top buf = some entry) (order : Int) :
    ∃ updated, setOrder top buf order = some updated ∧ updated.length = top.length := by
  have stored : 0 ≤ buf ∧ buf.toNat < top.length := by
    rw [load] at loaded
    split_ifs at loaded with inside
    exact ⟨inside, (List.getElem?_eq_some_iff.mp loaded).1⟩
  refine ⟨top.set buf.toNat { entry with order := order }, ?_, List.length_set⟩
  simp [setOrder, loaded, store, stored]

/-- An iteration over the integers is one on a machine, with the same next `buf`. -/
theorem updateParent_alike (sizes : top.length = other.length) {order : Nat}
    {next : List EmiBuf × Int} (stepped : BuddyTree.updateParent top buf order = some next) :
    ∃ updated, updateParent other buf order = some (updated, next.2) ∧
      next.1.length = updated.length := by
  rw [BuddyTree.updateParent] at stepped
  obtain ⟨siblingBuf, siblingLoaded, stepped⟩ := Option.bind_eq_some_iff.mp stepped
  obtain ⟨current, loaded, stepped⟩ := Option.bind_eq_some_iff.mp stepped
  obtain ⟨parentBuf, parentLoaded, stepped⟩ := Option.bind_eq_some_iff.mp stepped
  obtain ⟨assigned, assignment, stepped⟩ := Option.bind_eq_some_iff.mp stepped
  obtain rfl := Option.some.inj stepped
  obtain ⟨otherSibling, siblingFound⟩ := load_alike sizes siblingLoaded
  obtain ⟨otherCurrent, found⟩ := load_alike sizes loaded
  obtain ⟨otherParent, parentFound⟩ := load_alike sizes parentLoaded
  obtain ⟨kept, keeps, keptLength⟩ := setOrder_loaded parentLoaded
    (BuddyTree.mergedOrder order siblingBuf.order current.order parentBuf.order)
  obtain ⟨updated, updates, updatedLength⟩ := setOrder_loaded parentFound
    (mergedOrder order otherSibling.order otherCurrent.order otherParent.order)
  refine ⟨updated, ?_, ?_⟩
  · simp [updateParent, siblingFound, found, parentFound, updates]
  · obtain rfl := Option.some.inj (keeps.symm.trans assignment)
    rw [keptLength, updatedLength, sizes]

/-- A walk over the integers is one on a machine, whatever the fields are. -/
theorem updateLoop_alike (sizes : top.length = other.length) (remaining order : Nat)
    {updated : List EmiBuf} (walked : BuddyTree.updateLoop remaining top buf order = some updated) :
    ∃ result, updateLoop remaining other buf order = some result := by
  induction remaining generalizing top other buf order with
  | zero => exact ⟨other, rfl⟩
  | succ remaining inductionHypothesis =>
    obtain ⟨next, stepped, onward⟩ := Option.bind_eq_some_iff.mp walked
    obtain ⟨changed, alike, lengths⟩ := updateParent_alike sizes stepped
    obtain ⟨result, finished⟩ := inductionHypothesis lengths (order + 1) onward
    exact ⟨result, by rw [updateLoop, alike]; exact finished⟩

/-- What is answered over the integers is answered on a machine. -/
theorem allocEmiBuf_alike {order maxOrder : Nat} {updated : List EmiBuf}
    (answered : BuddyTree.allocEmiBuf top order maxOrder = some (some buf, updated)) :
    ∃ result, allocEmiBuf top order maxOrder = some (some buf, result) := by
  obtain ⟨answer, chosen, answered⟩ := Option.bind_eq_some_iff.mp answered
  cases answer with
  | none => cases answered
  | some tmp =>
    obtain ⟨marked, marking, answered⟩ := Option.bind_eq_some_iff.mp answered
    obtain ⟨walked, walks, answered⟩ := Option.bind_eq_some_iff.mp answered
    obtain ⟨same, _⟩ := Prod.mk.inj (Option.some.inj answered)
    obtain rfl := Option.some.inj same
    obtain ⟨result, finished⟩ := updateLoop_alike rfl _ _ walks
    refine ⟨result, ?_⟩
    simp [allocEmiBuf, chosen, marking, updateBufOrder, finished]

end Alike

/-- Along every run whose live blocks stay disjoint and whose increments stay inside an
`int`, a request is answered whenever an aligned range of its order inside the arena meets
no live block.

Proof: the run is one over the integers, where the request is answered; and a walk
completes whatever it makes of the fields. -/
theorem exact_runs_answer (maxOrder : Nat) (arena : Arena)
    (reached : (allocator maxOrder).ReachedUnder (PartingExactly maxOrder) arena)
    (order index : Nat) (low : order ≤ maxOrder)
    (inside : index * 2 ^ order + 2 ^ order ≤ 2 ^ maxOrder) (unused : Unused arena order index) :
    ∃ buf top, allocEmiBuf arena.top order maxOrder = some (some buf, top) := by
  obtain ⟨buf, top, answered⟩ := unused_range_answered maxOrder arena (exact_reached reached)
    order index low inside unused
  obtain ⟨result, alike⟩ := allocEmiBuf_alike answered
  exact ⟨buf, result, alike⟩

/-- A run with an unclean free: the root promises a block of order one that does not
exist, and the free smallest block at the end is found all the same. -/
theorem unclean_run_answers : ∃ buf top, allocEmiBuf
    [⟨0, 1⟩, ⟨0, 0⟩, ⟨2, 0⟩, ⟨0, 0⟩, ⟨1, -1⟩, ⟨2, -1⟩, ⟨3, 0⟩] 0 2 = some (some buf, top) :=
  exact_runs_answer 2
    ⟨[⟨0, 1⟩, ⟨0, 0⟩, ⟨2, 0⟩, ⟨0, 0⟩, ⟨1, -1⟩, ⟨2, -1⟩, ⟨3, 0⟩], [⟨5, 0⟩, ⟨4, 0⟩]⟩
    (System.follow_reached [.alloc 0, .alloc 0, .alloc 0, .free ⟨3, 0⟩]
      (.initial ⟨[⟨0, 2⟩, ⟨0, 1⟩, ⟨2, 1⟩, ⟨0, 0⟩, ⟨1, 0⟩, ⟨2, 0⟩, ⟨3, 0⟩], []⟩
        ⟨rfl, List.replicate 7 ⟨0, 0⟩, by decide, by decide⟩) (by decide))
    0 3 (by decide) (by decide) (by decide)

/-- A tree of order three with two live smallest blocks, of which each half holds one. Both
halves promise a block of order one, and the root promises what it came to. -/
def halves (promised : Int) : Arena :=
  ⟨[⟨0, promised⟩, ⟨0, 1⟩, ⟨4, 1⟩, ⟨0, 1⟩, ⟨2, 0⟩, ⟨4, 0⟩, ⟨6, 1⟩,
    ⟨0, 0⟩, ⟨1, 0⟩, ⟨2, -1⟩, ⟨3, 0⟩, ⟨4, -1⟩, ⟨5, 0⟩, ⟨6, 0⟩, ⟨7, 0⟩], [⟨11, 0⟩, ⟨9, 0⟩]⟩

/-- The same tree with a third live block, beside the one in the left half. -/
def crowded (promised : Int) : Arena :=
  ⟨[⟨0, promised⟩, ⟨0, 1⟩, ⟨4, 1⟩, ⟨0, 1⟩, ⟨2, -2⟩, ⟨4, 0⟩, ⟨6, 1⟩,
    ⟨0, 0⟩, ⟨1, 0⟩, ⟨2, -1⟩, ⟨3, -1⟩, ⟨4, -1⟩, ⟨5, 0⟩, ⟨6, 0⟩, ⟨7, 0⟩],
    [⟨10, 0⟩, ⟨11, 0⟩, ⟨9, 0⟩]⟩

/-- The third block is taken, and both halves still promise a block of order one. -/
theorem halves_alloc {promised : Int} (answers : 0 ≤ promised) :
    serve 3 (halves promised) (.alloc 0) = some (crowded (increment promised)) := by
  have chosen : getEmiBuf (halves promised).top 0 3 = some (some 10) := by
    have root : load (halves promised).top 0 = some ⟨0, promised⟩ := rfl
    have enough : ¬ promised < ((0 : Nat) : Int) := by simpa using answers
    rw [getEmiBuf]
    simp only [root, Option.bind_eq_bind, Option.bind_some, if_neg enough]
    rfl
  rw [serve, allocEmiBuf, chosen]
  rfl

/-- It is freed again, and the halves promise no less. -/
theorem crowded_free (promised : Int) :
    serve 3 (crowded promised) (.free ⟨10, 0⟩) = some (halves (increment promised)) := rfl

theorem halves_disjoint (promised : Int) :
    (halves promised).live.Pairwise (Disjoint (halves promised).top) := by
  simp [halves, BuddyTree.Disjoint, blockOffset, load]

theorem crowded_disjoint (promised : Int) :
    (crowded promised).live.Pairwise (Disjoint (crowded promised).top) := by
  simp [crowded, BuddyTree.Disjoint, blockOffset, load]

/-- Taking the third block leaves the live blocks disjoint. -/
theorem halves_taken {promised : Int} (answers : 0 ≤ promised)
    (reached : (allocator 3).ReachedUnder (Parting 3) (halves promised)) :
    (allocator 3).ReachedUnder (Parting 3) (crowded (increment promised)) := by
  have served := halves_alloc answers
  refine .next _ _ (Request.alloc 0) reached ⟨by decide, ?_⟩ served
  intro after taken
  obtain rfl := Option.some.inj (served.symm.trans taken)
  exact crowded_disjoint _

/-- So does freeing it. -/
theorem crowded_freed {promised : Int}
    (reached : (allocator 3).ReachedUnder (Parting 3) (crowded promised)) :
    (allocator 3).ReachedUnder (Parting 3) (halves (increment promised)) := by
  have served := crowded_free promised
  refine .next _ _ (Request.free ⟨10, 0⟩) reached ⟨by decide, ?_⟩ served
  intro after taken
  obtain rfl := Option.some.inj (served.symm.trans taken)
  exact halves_disjoint _

/-- Each such pair of requests adds two to what the root promises. -/
theorem halves_reached (pairs : Nat) (fits : 3 + 2 * (pairs : Int) ≤ 2 ^ 31 - 1) :
    (allocator 3).ReachedUnder (Parting 3) (halves (3 + 2 * pairs)) := by
  induction pairs with
  | zero =>
    exact System.follow_reached
      [.alloc 1, .alloc 0, .alloc 1, .alloc 0, .alloc 1, .free ⟨5, 1⟩, .free ⟨9, 0⟩,
        .alloc 0, .alloc 0, .free ⟨6, 1⟩, .free ⟨3, 1⟩, .free ⟨10, 0⟩]
      (.initial ⟨[⟨0, 3⟩, ⟨0, 2⟩, ⟨4, 2⟩, ⟨0, 1⟩, ⟨2, 1⟩, ⟨4, 1⟩, ⟨6, 1⟩,
          ⟨0, 0⟩, ⟨1, 0⟩, ⟨2, 0⟩, ⟨3, 0⟩, ⟨4, 0⟩, ⟨5, 0⟩, ⟨6, 0⟩, ⟨7, 0⟩], []⟩
        ⟨rfl, List.replicate 15 ⟨0, 0⟩, by decide, by decide⟩) (by decide)
  | succ pairs inductionHypothesis =>
    have again := crowded_freed (halves_taken (by omega) (inductionHypothesis (by omega)))
    have once : increment (3 + 2 * pairs) = 3 + 2 * pairs + 1 :=
      increment_exact (by omega) (by omega)
    have twice : increment (3 + 2 * pairs + 1) = 3 + 2 * (pairs + 1 : Nat) := by
      rw [increment_exact (by omega) (by omega)]
      omega
    rwa [once, twice] at again

/-- Without the bound on the increments a request fails though a fitting range is free:
after 2 ^ 30 - 2 such pairs the root holds the largest `int`, and the next request makes
it negative. -/
theorem wrapped_root_refuses : ¬ ∀ (maxOrder : Nat) (arena : Arena),
    (allocator maxOrder).ReachedUnder (Parting maxOrder) arena →
    ∀ order index : Nat, order ≤ maxOrder → index * 2 ^ order + 2 ^ order ≤ 2 ^ maxOrder →
      Unused arena order index →
      ∃ buf top, allocEmiBuf arena.top order maxOrder = some (some buf, top) := by
  intro answers
  have wrapped : increment (3 + 2 * (2 ^ 30 - 2 : Nat)) = -2 ^ 31 := by decide
  have reached := halves_taken (by omega) (halves_reached (2 ^ 30 - 2) (by decide))
  rw [wrapped] at reached
  obtain ⟨buf, top, answered⟩ := answers 3 _ reached 0 0 (by decide) (by decide) (by decide)
  have refused : allocEmiBuf (crowded (-2 ^ 31)).top 0 3 =
      some (none, (crowded (-2 ^ 31)).top) := rfl
  rw [refused] at answered
  cases answered

end Emilib.BuddyOverflow
