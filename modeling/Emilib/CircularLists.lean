import Mathlib.Data.List.Chain
import Mathlib.Data.List.Nodup
import Mathlib.Logic.Function.Basic

/-!
# Circular lists with pointers in both directions

A head and the nodes of its list point to each other in a circle, both ways. The
head is a node like the others, an empty list is a head that points to itself, and
a node that was taken out keeps its stale pointers.

Pointers represent a list when consecutive places of the circle through its head
point to each other and no node stands twice in it. Adding at either end, taking a
node out and moving it to either end are four or six plain assignments, and each is
shown to be the corresponding operation on the list. A move is also given one
memory access at a time, with what is left of it as a function of the pointers: a
reader who stops a move halfway can say what will come of it.
-/

namespace Emilib.CircularLists

universe u

/-- The pointers of every node. -/
structure Links (ν : Type u) where
  next : ν → ν
  prev : ν → ν

/-- The two ends at which a node is added. -/
inductive Side where
  | front
  | back
deriving DecidableEq, Repr

/-- A list after a node was added at one end. -/
def Side.add {ν : Type u} (side : Side) (node : ν) (nodes : List ν) : List ν :=
  match side with
  | .front => node :: nodes
  | .back => nodes ++ [node]

/-- A list after one of its nodes was moved to one end. -/
def Side.move {ν : Type u} [DecidableEq ν] (side : Side) (node : ν) (nodes : List ν) : List ν :=
  side.add node (nodes.erase node)

namespace Links

variable {ν : Type u}

/-- Two places point to each other, the left one forward. -/
def Joins (links : Links ν) (left right : ν) : Prop :=
  links.next left = right ∧ links.prev right = left

/-- The pointers represent the list of a head. -/
structure Ring (links : Links ν) (head : ν) (nodes : List ν) : Prop where
  joined : (head :: (nodes ++ [head])).IsChain links.Joins
  distinct : (head :: nodes).Nodup

section Chains

variable {links updated : Links ν} {nodes before after : List ν} {left right head node : ν}

/-- A chain is kept when its pointers are. -/
theorem joins_kept (chain : nodes.IsChain links.Joins)
    (nexts : ∀ node ∈ nodes.dropLast, updated.next node = links.next node)
    (prevs : ∀ node ∈ nodes.tail, updated.prev node = links.prev node) :
    nodes.IsChain updated.Joins := by
  induction chain with
  | nil => exact .nil
  | singleton node => exact .singleton node
  | @cons_cons left right rest joins _ inductionHypothesis =>
    refine .cons_cons ⟨?_, ?_⟩ (inductionHypothesis ?_ ?_)
    · rw [nexts left (by simp)]
      exact joins.1
    · rw [prevs right (by simp)]
      exact joins.2
    · exact fun node member => nexts node (by
        rw [List.dropLast_cons_cons]
        exact List.mem_cons_of_mem left member)
    · exact fun node member => prevs node (List.mem_cons_of_mem right member)

/-- A chain cut between two places and joined again through others. -/
theorem joins_spliced (middle : List ν) (first : (before ++ [left]).IsChain links.Joins)
    (second : (right :: after).IsChain links.Joins)
    (between : (left :: (middle ++ [right])).IsChain updated.Joins)
    (nexts : ∀ node, node ∈ before ∨ node ∈ (right :: after).dropLast →
      updated.next node = links.next node)
    (prevs : ∀ node, node ∈ (before ++ [left]).tail ∨ node ∈ after →
      updated.prev node = links.prev node) :
    (before ++ left :: (middle ++ right :: after)).IsChain updated.Joins := by
  rw [List.isChain_split, List.isChain_cons_split]
  refine ⟨joins_kept first ?_ ?_, between, joins_kept second ?_ ?_⟩
  · intro node member
    rw [List.dropLast_concat] at member
    exact nexts node (.inl member)
  · exact fun node member => prevs node (.inl member)
  · exact fun node member => nexts node (.inr member)
  · exact fun node member => prevs node (.inr member)

/-- The circle through a head, as places that point to each other. -/
structure Circle (links : Links ν) (places : List ν) : Prop where
  joined : places.IsChain links.Joins
  leaves : places.dropLast.Nodup
  arrives : places.tail.Nodup

/-- A list is represented when the circle through its head is one. -/
theorem ring_iff_circle : links.Ring head nodes ↔ links.Circle (head :: (nodes ++ [head])) := by
  have leaves : (head :: (nodes ++ [head])).dropLast = head :: nodes := by
    rw [← List.cons_append, List.dropLast_concat]
  constructor
  · intro ring
    refine ⟨ring.joined, leaves ▸ ring.distinct, ?_⟩
    exact (List.perm_append_singleton head nodes).nodup_iff.mpr ring.distinct
  · exact fun circle => ⟨circle.joined, leaves ▸ circle.leaves⟩

/-- In a circle, no pointer but the one between two places leads from the left of
them or to the right of them. -/
theorem Circle.apart (circle : links.Circle (before ++ left :: right :: after)) :
    (∀ node, node ∈ before ∨ node ∈ (right :: after).dropLast → node ≠ left) ∧
      (∀ node, node ∈ (before ++ [left]).tail ∨ node ∈ after → node ≠ right) := by
  have leaves := circle.leaves
  have arrives := circle.arrives
  rw [List.dropLast_append_of_ne_nil (List.cons_ne_nil _ _), List.dropLast_cons_cons] at leaves
  have split : before ++ left :: right :: after = (before ++ [left]) ++ right :: after := by simp
  rw [split, List.tail_append_of_ne_nil (by simp)] at arrives
  constructor
  · rintro node (member | member) rfl
    · exact (List.nodup_append.mp leaves).2.2 node member node List.mem_cons_self rfl
    · exact (List.nodup_cons.mp (List.nodup_append.mp leaves).2.1).1 member
  · rintro node (member | member) rfl
    · exact (List.nodup_append.mp arrives).2.2 node member node List.mem_cons_self rfl
    · exact (List.nodup_cons.mp (List.nodup_append.mp arrives).2.1).1 member

/-- The head points to the first node, or to itself. -/
theorem Ring.next_head (ring : links.Ring head nodes) :
    links.next head = nodes.head?.getD head := by
  have joined := ring.joined
  cases nodes with
  | nil => exact (List.isChain_cons_cons.mp joined).1.1
  | cons node rest => exact (List.isChain_cons_cons.mp joined).1.1

/-- What comes before and after a node in the circle of its list. -/
theorem Ring.around [DecidableEq ν] (ring : links.Ring head nodes) (member : node ∈ nodes) :
    ∃ before left right after,
      head :: (nodes ++ [head]) = before ++ left :: node :: right :: after ∧
      head :: (nodes.erase node ++ [head]) = before ++ left :: right :: after := by
  obtain ⟨earlier, later, rfl⟩ := List.append_of_mem member
  have absent : node ∉ earlier := fun twice =>
    (List.nodup_append.mp (List.nodup_cons.mp ring.distinct).2).2.2 node twice node
      List.mem_cons_self rfl
  obtain ⟨before, left, leading⟩ : ∃ before left, head :: earlier = before ++ [left] :=
    ⟨_, _, (List.dropLast_append_getLast (List.cons_ne_nil head earlier)).symm⟩
  obtain ⟨right, after, trailing⟩ : ∃ right after, later ++ [head] = right :: after :=
    List.exists_cons_of_ne_nil (by simp)
  refine ⟨before, left, right, after, ?_, ?_⟩
  · calc head :: (earlier ++ node :: later ++ [head])
      _ = (head :: earlier) ++ node :: (later ++ [head]) := by simp
      _ = before ++ left :: node :: right :: after := by rw [leading, trailing]; simp
  · calc head :: ((earlier ++ node :: later).erase node ++ [head])
      _ = (head :: earlier) ++ (later ++ [head]) := by
        rw [List.erase_append_right _ absent, List.erase_cons_head]
        simp
      _ = before ++ left :: right :: after := by rw [leading, trailing]; simp

/-- The pointers of a node outside do not matter. -/
theorem Ring.elsewhere {updated : Links ν} (ring : links.Ring head nodes)
    (absent : node ∉ head :: nodes)
    (nexts : ∀ other, other ≠ node → updated.next other = links.next other)
    (prevs : ∀ other, other ≠ node → updated.prev other = links.prev other) :
    updated.Ring head nodes := by
  have outside : node ∉ head :: (nodes ++ [head]) := by simpa [or_comm] using absent
  refine ⟨joins_kept ring.joined ?_ ?_, ring.distinct⟩
  · intro place inside
    exact nexts place fun same => outside (same ▸ List.dropLast_subset _ inside)
  · intro place inside
    exact prevs place fun same => outside (same ▸ List.mem_of_mem_tail inside)

end Chains

variable [DecidableEq ν]

/-- Assign the forward pointer of a node. -/
def setNext (links : Links ν) (node target : ν) : Links ν :=
  { links with next := Function.update links.next node target }

/-- Assign the backward pointer of a node. -/
def setPrev (links : Links ν) (node target : ν) : Links ν :=
  { links with prev := Function.update links.prev node target }

/-- `INIT_LIST_HEAD`. -/
def initListHead (links : Links ν) (list : ν) : Links ν :=
  (links.setNext list list).setPrev list list

/-- `__list_add`, in the order of its assignments. -/
def addBetween (links : Links ν) (new prev next : ν) : Links ν :=
  (((links.setPrev next new).setNext new next).setPrev new prev).setNext prev new

/-- `__list_del`, in the order of its assignments. -/
def delBetween (links : Links ν) (prev next : ν) : Links ν :=
  (links.setPrev next prev).setNext prev next

/-- Add a node behind the head, or before it. -/
def addAt (links : Links ν) (side : Side) (new head : ν) : Links ν :=
  match side with
  | .front => links.addBetween new head (links.next head)
  | .back => links.addBetween new (links.prev head) head

/-- `list_add`. -/
def listAdd (links : Links ν) (new head : ν) : Links ν := links.addAt .front new head

/-- `list_del`. -/
def listDel (links : Links ν) (entry : ν) : Links ν :=
  links.delBetween (links.prev entry) (links.next entry)

/-- Take a node out and add it at one end of the list of a head. -/
def moveTo (links : Links ν) (side : Side) (list head : ν) : Links ν :=
  (links.delBetween (links.prev list) (links.next list)).addAt side list head

/-- `list_move`. -/
def listMove (links : Links ν) (list head : ν) : Links ν := links.moveTo .front list head

/-- `list_move_tail`. -/
def listMoveTail (links : Links ν) (list head : ν) : Links ν := links.moveTo .back list head

theorem next_addBetween (links : Links ν) (new prev next node : ν) :
    (links.addBetween new prev next).next node =
      if node = prev then new else if node = new then next else links.next node := by
  simp [addBetween, setNext, setPrev, Function.update_apply]

theorem prev_addBetween (links : Links ν) (new prev next node : ν) :
    (links.addBetween new prev next).prev node =
      if node = new then prev else if node = next then new else links.prev node := by
  simp [addBetween, setNext, setPrev, Function.update_apply]

theorem next_delBetween (links : Links ν) (prev next node : ν) :
    (links.delBetween prev next).next node = if node = prev then next else links.next node := by
  simp [delBetween, setNext, setPrev, Function.update_apply]

theorem prev_delBetween (links : Links ν) (prev next node : ν) :
    (links.delBetween prev next).prev node = if node = next then prev else links.prev node := by
  simp [delBetween, setNext, setPrev, Function.update_apply]

section Operations

variable {links : Links ν} {nodes before after : List ν} {left right head new node : ν}

/-- A node is added between two neighbours. -/
theorem Circle.addBetween (before : List ν)
    (circle : links.Circle (before ++ left :: right :: after))
    (absent : new ∉ before ++ left :: right :: after) :
    (before ++ left :: new :: right :: after).IsChain (links.addBetween new left right).Joins := by
  obtain ⟨first, _, second⟩ := List.isChain_append_cons_cons.mp circle.joined
  obtain ⟨leaves, arrives⟩ := circle.apart
  have outside {place : ν} (inside : place ∈ before ++ left :: right :: after) : place ≠ new := by
    rintro rfl
    exact absent inside
  have behind : left ≠ new := outside (by simp)
  have ahead : right ≠ new := outside (by simp)
  have joined : [left, new, right].IsChain (links.addBetween new left right).Joins := by
    simp [Joins, next_addBetween, prev_addBetween, ahead, behind.symm]
  have spliced := joins_spliced [new] first second joined ?_ ?_
  · exact spliced
  · intro place inside
    have member : place ∈ before ++ left :: right :: after := by
      rcases inside with inside | inside
      · exact List.mem_append_left _ inside
      · exact List.mem_append_right _ (List.mem_cons_of_mem left (List.dropLast_subset _ inside))
    rw [next_addBetween, if_neg (leaves place inside), if_neg (outside member)]
  · intro place inside
    have member : place ∈ before ++ left :: right :: after := by
      rcases inside with inside | inside
      · have earlier := List.mem_of_mem_tail inside
        simp only [List.mem_append, List.mem_cons] at earlier ⊢
        tauto
      · simp [inside]
    rw [prev_addBetween, if_neg (outside member), if_neg (arrives place inside)]

/-- A node between two others is taken out. -/
theorem Circle.delBetween (circle : links.Circle (before ++ left :: node :: right :: after)) :
    (before ++ left :: right :: after).IsChain (links.delBetween left right).Joins := by
  obtain ⟨first, _, rest⟩ := List.isChain_append_cons_cons.mp circle.joined
  have second := (List.isChain_cons_cons.mp rest).2
  have leaves := circle.apart.1
  have shifted : links.Circle ((before ++ [left]) ++ node :: right :: after) := by
    simpa using circle
  have arrives := shifted.apart.2
  have joined : [left, right].IsChain (links.delBetween left right).Joins := by
    simp [Joins, next_delBetween, prev_delBetween]
  have spliced := joins_spliced [] first second joined ?_ ?_
  · exact spliced
  · intro place inside
    rw [next_delBetween, if_neg (leaves place ?_)]
    rcases inside with inside | inside
    · exact .inl inside
    · exact .inr (List.mem_cons_of_mem node inside)
  · intro place inside
    rw [prev_delBetween, if_neg (arrives place ?_)]
    rcases inside with inside | inside
    · refine .inl ?_
      rw [List.tail_append_of_ne_nil (by simp)]
      exact List.mem_append_left _ inside
    · exact .inr inside

/-- A head that points to itself has an empty list. -/
theorem ring_initListHead (links : Links ν) (head : ν) :
    (links.initListHead head).Ring head [] where
  joined := by simp [Joins, initListHead, setNext, setPrev]
  distinct := List.nodup_singleton head

/-- A new node is added at either end. -/
theorem Ring.addAt (ring : links.Ring head nodes) (side : Side) (absent : new ∉ head :: nodes) :
    (links.addAt side new head).Ring head (side.add new nodes) := by
  have circle := ring_iff_circle.mp ring
  have outside : new ∉ head :: (nodes ++ [head]) := by simpa [or_comm] using absent
  cases side with
  | front =>
    obtain ⟨right, after, trailing⟩ : ∃ right after, nodes ++ [head] = right :: after :=
      List.exists_cons_of_ne_nil (by simp)
    rw [trailing] at circle outside
    have points : links.next head = right := (List.isChain_cons_cons.mp circle.joined).1.1
    refine ⟨?_, ?_⟩
    · have added := Circle.addBetween [] circle outside
      simpa [Links.addAt, points, Side.add, trailing] using added
    · have distinct := List.nodup_cons.mp ring.distinct
      simp only [List.mem_cons, not_or] at absent
      refine List.nodup_cons.mpr ⟨?_, List.nodup_cons.mpr ⟨absent.2, distinct.2⟩⟩
      rintro (_ | ⟨_, inside⟩)
      · exact absent.1 rfl
      · exact distinct.1 inside
  | back =>
    obtain ⟨before, left, leading⟩ : ∃ before left, head :: nodes = before ++ [left] :=
      ⟨_, _, (List.dropLast_append_getLast (List.cons_ne_nil head nodes)).symm⟩
    have whole : head :: (nodes ++ [head]) = before ++ left :: head :: [] := by
      rw [← List.cons_append, leading]
      simp
    rw [whole] at circle outside
    have points : links.prev head = left := (List.isChain_append_cons_cons.mp circle.joined).2.1.2
    refine ⟨?_, ?_⟩
    · have added := circle.addBetween before outside
      have extended : head :: ((nodes ++ [new]) ++ [head]) =
          before ++ left :: new :: head :: [] := by
        calc head :: ((nodes ++ [new]) ++ [head])
          _ = (head :: nodes) ++ [new, head] := by simp
          _ = before ++ left :: new :: head :: [] := by rw [leading]; simp
      simpa only [Links.addAt, points, Side.add, extended] using added
    · have moved := (List.perm_append_singleton new (head :: nodes)).nodup_iff.mpr
        (List.nodup_cons.mpr ⟨absent, ring.distinct⟩)
      exact moved

/-- A node is taken out of its list. -/
theorem Ring.listDel (ring : links.Ring head nodes) (member : node ∈ nodes) :
    (links.listDel node).Ring head (nodes.erase node) := by
  obtain ⟨before, left, right, after, whole, without⟩ := ring.around member
  have circle := ring_iff_circle.mp ring
  rw [whole] at circle
  obtain ⟨_, ⟨_, back⟩, rest⟩ := List.isChain_append_cons_cons.mp circle.joined
  have ahead := (List.isChain_cons_cons.mp rest).1.1
  refine ⟨?_, ?_⟩
  · rw [without, Links.listDel, back, ahead]
    exact circle.delBetween
  · have distinct := List.nodup_cons.mp ring.distinct
    exact List.nodup_cons.mpr
      ⟨fun inside => distinct.1 (List.mem_of_mem_erase inside), distinct.2.erase node⟩

/-- A node of a list is moved to either end of it. -/
theorem Ring.moveTo (ring : links.Ring head nodes) (side : Side) (member : node ∈ nodes) :
    (links.moveTo side node head).Ring head (side.move node nodes) := by
  have taken := ring.listDel member
  have distinct := List.nodup_cons.mp ring.distinct
  refine taken.addAt side ?_
  simp only [List.mem_cons, not_or]
  refine ⟨?_, distinct.2.not_mem_erase⟩
  rintro rfl
  exact distinct.1 member

/-- `list_move` makes the node the first one. -/
theorem Ring.listMove (ring : links.Ring head nodes) (member : node ∈ nodes) :
    (links.listMove node head).Ring head (node :: nodes.erase node) :=
  ring.moveTo .front member

/-- `list_move_tail` makes the node the last one. -/
theorem Ring.listMoveTail (ring : links.Ring head nodes) (member : node ∈ nodes) :
    (links.listMoveTail node head).Ring head (nodes.erase node ++ [node]) :=
  ring.moveTo .back member

end Operations

/-- What is left of a move: the memory access that comes next, with what was read
before it. Adding a node begins where the move looks at the head. -/
inductive Relink (ν : Type u) where
  | readPrev
  | readNext (prev : ν)
  | skipBack (prev next : ν)
  | skipForward (prev next : ν)
  | readHead
  | hookBack (prev next : ν)
  | aimForward (prev next : ν)
  | aimBack (prev : ν)
  | hookForward (prev : ν)
deriving DecidableEq, Repr

/-- One memory access of a move. -/
def access (links : Links ν) (side : Side) (list head : ν) :
    Relink ν → Links ν × Option (Relink ν)
  | .readPrev => (links, some (.readNext (links.prev list)))
  | .readNext prev => (links, some (.skipBack prev (links.next list)))
  | .skipBack prev next => (links.setPrev next prev, some (.skipForward prev next))
  | .skipForward prev next => (links.setNext prev next, some .readHead)
  | .readHead =>
      match side with
      | .front => (links, some (.hookBack head (links.next head)))
      | .back => (links, some (.hookBack (links.prev head) head))
  | .hookBack prev next => (links.setPrev next list, some (.aimForward prev next))
  | .aimForward prev next => (links.setNext list next, some (.aimBack prev))
  | .aimBack prev => (links.setPrev list prev, some (.hookForward prev))
  | .hookForward prev => (links.setNext prev list, none)

/-- The pointers when the rest of a move has been done. -/
def finish (links : Links ν) (side : Side) (list head : ν) : Relink ν → Links ν
  | .readPrev => links.moveTo side list head
  | .readNext prev => (links.delBetween prev (links.next list)).addAt side list head
  | .skipBack prev next => (links.delBetween prev next).addAt side list head
  | .skipForward prev next => (links.setNext prev next).addAt side list head
  | .readHead => links.addAt side list head
  | .hookBack prev next => links.addBetween list prev next
  | .aimForward prev next => ((links.setNext list next).setPrev list prev).setNext prev list
  | .aimBack prev => (links.setPrev list prev).setNext prev list
  | .hookForward prev => links.setNext prev list

/-- An access leaves what will come of the move, and the last one brings it about. -/
theorem finish_access (links : Links ν) (side : Side) (list head : ν) (stage : Relink ν) :
    ((links.access side list head stage).2.elim (links.access side list head stage).1
      ((links.access side list head stage).1.finish side list head)) =
      links.finish side list head stage := by
  cases stage with
  | readHead => cases side <;> rfl
  | _ => rfl

/-- `list_for_each_safe` with a body that takes the node out, waits, and gives its memory
back, after which its pointers can have any value. The next node is read before. The
wait for a node may be for good; then the loop stands still there. The nodes that were
given back are the result. -/
def takeDown (passes : ν → Bool) (freed : ν → ν × ν) (head : ν) :
    Nat → Links ν → ν → ν → Option (List ν × Links ν)
  | 0, _, _, _ => none
  | fuel + 1, links, pos, n =>
      if pos = head then some ([], links)
      else
        let links := links.listDel pos
        if passes pos then
          let links := (links.setNext pos (freed pos).1).setPrev pos (freed pos).2
          (takeDown passes freed head fuel links n (links.next n)).map fun result =>
            (pos :: result.1, result.2)
        else some ([], links)

/-- The loop takes the nodes out in the order of the list, each once, up to the first that
it waits for in vain, whatever becomes of the memory of those before. The nodes behind
that one are still a list.

Proof: induction on the nodes. The node after the current one was read before the
current one was taken out, and is the first of the list that is left. -/
theorem Ring.takeDown {links : Links ν} {head : ν} {nodes : List ν} (ring : links.Ring head nodes)
    (passes : ν → Bool) (freed : ν → ν × ν) {fuel : Nat} (enough : nodes.length < fuel) :
    ∃ final, takeDown passes freed head fuel links (links.next head)
        (links.next (links.next head)) = some (nodes.takeWhile passes, final) ∧
      final.Ring head (nodes.dropWhile passes).tail := by
  induction nodes generalizing links fuel with
  | nil =>
    obtain ⟨fuel, rfl⟩ := Nat.exists_eq_succ_of_ne_zero (Nat.ne_of_gt enough)
    have points : links.next head = head := ring.next_head
    exact ⟨links, by rw [Links.takeDown, if_pos points]; rfl, ring⟩
  | cons node rest inductionHypothesis =>
    obtain ⟨fuel, rfl⟩ := Nat.exists_eq_succ_of_ne_zero (Nat.ne_zero_of_lt enough)
    have points : links.next head = node := ring.next_head
    have distinct := List.nodup_cons.mp ring.distinct
    have different : node ≠ head := fun same => distinct.1 (same ▸ List.mem_cons_self)
    have behind : links.next node = rest.head?.getD head := by
      have joined := (List.isChain_cons_cons.mp ring.joined).2
      cases rest with
      | nil => exact (List.isChain_cons_cons.mp joined).1.1
      | cons second others => exact (List.isChain_cons_cons.mp joined).1.1
    have taken := ring.listDel List.mem_cons_self
    rw [List.erase_cons_head] at taken
    have absent : node ∉ head :: rest := by
      rintro (_ | ⟨_, inside⟩)
      · exact different rfl
      · exact (List.nodup_cons.mp distinct.2).1 inside
    have spoiled :
        (((links.listDel node).setNext node (freed node).1).setPrev node (freed node).2).Ring
          head rest :=
      taken.elsewhere absent
        (fun other apart => by simp [setNext, setPrev, Function.update_of_ne apart])
        (fun other apart => by simp [setNext, setPrev, Function.update_of_ne apart])
    rw [points, behind, Links.takeDown, if_neg different]
    by_cases returns : passes node
    · obtain ⟨final, gone, left⟩ := inductionHypothesis spoiled (Nat.lt_of_succ_lt_succ enough)
      rw [spoiled.next_head] at gone
      refine ⟨final, ?_, by simpa [returns] using left⟩
      simp only [if_pos returns, gone, Option.map_some, List.takeWhile_cons]
    · refine ⟨links.listDel node, ?_, by simpa [returns] using taken⟩
      simp only [if_neg returns, List.takeWhile_cons]

end Links

end Emilib.CircularLists
