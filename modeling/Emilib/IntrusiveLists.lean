import Mathlib.Data.List.Nodup
import Mathlib.Logic.Function.Basic

/-!
# Intrusive lists with pointers to pointers

Nodes carry their own links: a pointer to the next node, and the place of the one
pointer that points to them, which is the head of a list or the link of another
node. So a node is unlinked without knowing its list, and whether it is in a list
at all is told by its own back link.

A state of all links represents some lists when each head leads through its list,
every back link names the place it was reached from, no node is in two lists, and
the nodes in no list have no back link. Adding at a head and unlinking keep this,
and the two kinds of loops over a list visit just its nodes, also when the body of
the loop unlinks the node it is at.
-/

namespace Emilib.IntrusiveLists

universe u v w

/-- A place that holds a pointer to a node. -/
inductive Slot (β : Type u) (ν : Type v) where
  | first (head : β)
  | next (node : ν)
deriving DecidableEq, Repr

/-- The pointers in the heads and in the nodes. -/
structure Links (β : Type u) (ν : Type v) where
  first : β → Option ν
  next : ν → Option ν
  pprev : ν → Option (Slot β ν)

namespace Links

variable {β : Type u} {ν : Type v}

/-- The pointer at a place. -/
def load (links : Links β ν) : Slot β ν → Option ν
  | .first head => links.first head
  | .next node => links.next node

/-- The links from a place on lead through these nodes, and back. -/
def Chain (links : Links β ν) : Slot β ν → List ν → Prop
  | slot, [] => links.load slot = none
  | slot, node :: rest =>
      links.load slot = some node ∧ links.pprev node = some slot ∧ Chain links (.next node) rest

/-- The links represent these lists. -/
structure Represents (links : Links β ν) (lists : β → List ν) : Prop where
  chained : ∀ head, links.Chain (.first head) (lists head)
  distinct : ∀ head, (lists head).Nodup
  apart : ∀ head other node, node ∈ lists head → node ∈ lists other → head = other
  unhashed : ∀ node, (∀ head, node ∉ lists head) → links.pprev node = none

/-- The place that points to what comes after these nodes. -/
def lastSlot (slot : Slot β ν) : List ν → Slot β ν
  | [] => slot
  | node :: rest => lastSlot (.next node) rest

/-- The nodes from a pointer on. -/
def walk (links : Links β ν) : Nat → Option ν → Option (List ν)
  | 0, _ => none
  | _ + 1, none => some []
  | fuel + 1, some node => (walk links fuel (links.next node)).map (node :: ·)

/-- The first node from a pointer on that passes a test, if there is one. -/
def search (links : Links β ν) (test : ν → Bool) : Nat → Option ν → Option (Option ν)
  | 0, _ => none
  | _ + 1, none => some none
  | fuel + 1, some node =>
      if test node then some (some node) else search links test fuel (links.next node)

section Chains

variable {links updated : Links β ν} {slot : Slot β ν} {nodes before after : List ν}
  {lists : β → List ν} {head : β} {node : ν}

/-- A chain is kept, at another place even, when its pointers and back links are. -/
theorem Chain.transport {target : Slot β ν} (chain : links.Chain slot nodes)
    (start : updated.load target = links.load slot)
    (entry : ∀ node ∈ nodes.head?, updated.pprev node = some target)
    (pointers : ∀ node ∈ nodes, updated.load (.next node) = links.load (.next node))
    (backs : ∀ node ∈ nodes.tail, updated.pprev node = links.pprev node) :
    updated.Chain target nodes := by
  induction nodes generalizing slot target with
  | nil => exact start.trans chain
  | cons node rest inductionHypothesis =>
    obtain ⟨points, _, continued⟩ := chain
    refine ⟨start.trans points, entry node rfl, ?_⟩
    apply inductionHypothesis continued (pointers node List.mem_cons_self)
    · intro next first
      cases rest with
      | nil => cases first
      | cons head others =>
        obtain rfl := Option.some.inj first
        rw [backs head List.mem_cons_self]
        exact continued.2.1
    · exact fun other member => pointers other (List.mem_cons_of_mem node member)
    · exact fun other member => backs other (List.mem_of_mem_tail member)

/-- The place before the nodes behind some others points to the first of them. -/
theorem Chain.drop (chain : links.Chain slot (before ++ after)) :
    links.Chain (lastSlot slot before) after := by
  induction before generalizing slot with
  | nil => exact chain
  | cons node rest inductionHypothesis => exact inductionHypothesis chain.2.2

/-- The pointer at a place is the first node of its chain. -/
theorem Chain.load (chain : links.Chain slot nodes) : links.load slot = nodes.head? := by
  cases nodes with
  | nil => exact chain
  | cons node rest => exact chain.1

/-- The last place before some nodes is the first one or the link of one of them. -/
theorem lastSlot_cases (slot : Slot β ν) (nodes : List ν) :
    lastSlot slot nodes = slot ∧ nodes = [] ∨ ∃ node ∈ nodes, lastSlot slot nodes = .next node := by
  induction nodes generalizing slot with
  | nil => exact .inl ⟨rfl, rfl⟩
  | cons node rest inductionHypothesis =>
    rcases inductionHypothesis (.next node) with ⟨same, rfl⟩ | ⟨other, member, same⟩
    · exact .inr ⟨node, List.mem_cons_self, same⟩
    · exact .inr ⟨other, List.mem_cons_of_mem node member, same⟩

/-- A node of a list points to the one behind it, and back to the place before it. -/
theorem Represents.links_at (represents : links.Represents lists)
    (split : lists head = before ++ node :: after) :
    links.next node = after.head? ∧
      links.pprev node = some (lastSlot (.first head) before) := by
  have chained := represents.chained head
  rw [split] at chained
  obtain ⟨_, back, continued⟩ := chained.drop
  exact ⟨continued.load, back⟩

/-- Heads without nodes represent empty lists, when every node is in no list. -/
theorem represents_empty (heads : ∀ head, links.first head = none)
    (nodes : ∀ node, links.pprev node = none) : links.Represents (fun _ => []) where
  chained := heads
  distinct _ := List.nodup_nil
  apart _ _ _ member := absurd member List.not_mem_nil
  unhashed node _ := nodes node

/-- A head points to the first node of its list. -/
theorem Represents.first_node (represents : links.Represents lists) (head : β) :
    links.first head = (lists head).head? := (represents.chained head).load

/-- The node in front of a list is not met again in it. -/
theorem Represents.first_once (represents : links.Represents lists)
    (later : node ∈ (lists head).tail) : links.first head ≠ some node := by
  rw [represents.first_node]
  intro leads
  have distinct := represents.distinct head
  rw [← List.cons_head?_tail leads] at distinct
  exact (List.nodup_cons.mp distinct).1 later

/-- A node of one list is not the first one of another. -/
theorem Represents.first_apart (represents : links.Represents lists) {other : β}
    (different : other ≠ head) (member : node ∈ lists other) : links.first head ≠ some node := by
  rw [represents.first_node]
  intro leads
  exact different (represents.apart other head node member (List.mem_of_mem_head? leads))

/-- A walk meets the nodes of its chain. -/
theorem Chain.walk {slot : Slot β ν} {nodes : List ν} (chain : links.Chain slot nodes)
    {fuel : Nat} (enough : nodes.length < fuel) :
    links.walk fuel (links.load slot) = some nodes := by
  induction nodes generalizing slot fuel with
  | nil =>
    obtain ⟨fuel, rfl⟩ := Nat.exists_eq_succ_of_ne_zero (Nat.ne_of_gt enough)
    rw [chain.load]
    rfl
  | cons node rest inductionHypothesis =>
    obtain ⟨fuel, rfl⟩ := Nat.exists_eq_succ_of_ne_zero (Nat.ne_zero_of_lt enough)
    have continued := inductionHypothesis chain.2.2 (Nat.lt_of_succ_lt_succ enough)
    rw [chain.1, Links.walk]
    change (links.walk fuel (links.load (.next node))).map _ = _
    rw [continued, Option.map_some]

/-- A search finds the first node of its chain that passes the test. -/
theorem Chain.search {slot : Slot β ν} {nodes : List ν} (chain : links.Chain slot nodes)
    (test : ν → Bool) {fuel : Nat} (enough : nodes.length < fuel) :
    links.search test fuel (links.load slot) = some (nodes.find? test) := by
  induction nodes generalizing slot fuel with
  | nil =>
    obtain ⟨fuel, rfl⟩ := Nat.exists_eq_succ_of_ne_zero (Nat.ne_of_gt enough)
    rw [chain.load]
    rfl
  | cons node rest inductionHypothesis =>
    obtain ⟨fuel, rfl⟩ := Nat.exists_eq_succ_of_ne_zero (Nat.ne_zero_of_lt enough)
    have continued := inductionHypothesis chain.2.2 (Nat.lt_of_succ_lt_succ enough)
    rw [chain.1, Links.search, List.find?_cons]
    by_cases passes : test node
    · rw [if_pos passes, passes]
    · rw [if_neg passes, Bool.eq_false_iff.mpr passes]
      exact continued

end Chains

variable [DecidableEq ν]

/-- Assign the back link of a node. -/
def setPprev (links : Links β ν) (node : ν) (slot : Option (Slot β ν)) : Links β ν :=
  { links with pprev := Function.update links.pprev node slot }

/-- Assign the back link of the node a pointer points to, if it points to one. -/
def setPprevAt (links : Links β ν) (pointer : Option ν) (slot : Slot β ν) : Links β ν :=
  match pointer with
  | none => links
  | some node => links.setPprev node (some slot)

@[simp] theorem load_setPprev (links : Links β ν) (node : ν) (slot : Option (Slot β ν))
    (other : Slot β ν) : (links.setPprev node slot).load other = links.load other := by
  cases other <;> rfl

@[simp] theorem pprev_setPprev (links : Links β ν) (node other : ν) (slot : Option (Slot β ν)) :
    (links.setPprev node slot).pprev other = if other = node then slot else links.pprev other := by
  simp [setPprev, Function.update_apply]

@[simp] theorem load_setPprevAt (links : Links β ν) (pointer : Option ν) (slot other : Slot β ν) :
    (links.setPprevAt pointer slot).load other = links.load other := by
  cases pointer with
  | none => rfl
  | some node => exact load_setPprev links node (some slot) other

@[simp] theorem pprev_setPprevAt (links : Links β ν) (pointer : Option ν) (slot : Slot β ν)
    (other : ν) : (links.setPprevAt pointer slot).pprev other =
      if pointer = some other then some slot else links.pprev other := by
  cases pointer with
  | none => simp [setPprevAt]
  | some node => simp [setPprevAt, eq_comm]

variable [DecidableEq β]

/-- Assign the pointer at a place. -/
def store (links : Links β ν) (slot : Slot β ν) (value : Option ν) : Links β ν :=
  match slot with
  | .first head => { links with first := Function.update links.first head value }
  | .next node => { links with next := Function.update links.next node value }

/-- A head without nodes. -/
def initHead (links : Links β ν) (head : β) : Links β ν := links.store (.first head) none

/-- A node in no list. -/
def initNode (links : Links β ν) (node : ν) : Links β ν :=
  (links.store (.next node) none).setPprev node none

/-- Link a node in at a head. -/
def addHead (links : Links β ν) (node : ν) (head : β) : Links β ν :=
  let first := links.first head
  let links := links.store (.next node) first
  let links := links.setPprevAt first (.next node)
  let links := links.store (.first head) (some node)
  links.setPprev node (some (.first head))

/-- Unlink a node from the place that points to it. -/
def unlink (links : Links β ν) (node : ν) (pprev : Slot β ν) : Links β ν :=
  let next := links.next node
  let links := links.store pprev next
  links.setPprevAt next pprev

/-- Unlink a node that is in a list, and initialize it again. -/
def delInit (links : Links β ν) (node : ν) : Links β ν :=
  match links.pprev node with
  | none => links
  | some pprev => (links.unlink node pprev).initNode node

@[simp] theorem load_store (links : Links β ν) (slot other : Slot β ν) (value : Option ν) :
    (links.store slot value).load other = if other = slot then value else links.load other := by
  cases slot with
  | first head =>
    cases other with
    | first head' => simp [store, load, Function.update_apply]
    | next node => simp [store, load]
  | next node =>
    cases other with
    | first head => simp [store, load]
    | next node' => simp [store, load, Function.update_apply]

@[simp] theorem pprev_store (links : Links β ν) (slot : Slot β ν) (value : Option ν) :
    (links.store slot value).pprev = links.pprev := by
  cases slot <;> rfl

/-- Where the pointers lead after a node was added at a head. -/
theorem load_addHead (links : Links β ν) (node : ν) (head : β) (slot : Slot β ν) :
    (links.addHead node head).load slot =
      if slot = .first head then some node
      else if slot = .next node then links.first head else links.load slot := by
  simp [addHead]

/-- The back links after a node was added at a head. -/
theorem pprev_addHead (links : Links β ν) (node : ν) (head : β) (other : ν) :
    (links.addHead node head).pprev other =
      if other = node then some (.first head)
      else if links.first head = some other then some (.next node) else links.pprev other := by
  simp [addHead]

/-- A node that is in no list is left alone. -/
theorem delInit_unhashed {links : Links β ν} {node : ν} (unhashed : links.pprev node = none) :
    links.delInit node = links := by
  rw [delInit, unhashed]

/-- Where the pointers lead after a node was unlinked. -/
theorem load_delInit {links : Links β ν} {node : ν} {pprev : Slot β ν}
    (hashed : links.pprev node = some pprev) (slot : Slot β ν) :
    (links.delInit node).load slot =
      if slot = .next node then none
      else if slot = pprev then links.next node else links.load slot := by
  simp [delInit, hashed, initNode, unlink]

/-- The back links after a node was unlinked. -/
theorem pprev_delInit {links : Links β ν} {node : ν} {pprev : Slot β ν}
    (hashed : links.pprev node = some pprev) (other : ν) :
    (links.delInit node).pprev other =
      if other = node then none
      else if links.next node = some other then some pprev else links.pprev other := by
  simp [delInit, hashed, initNode, unlink]

section Removal

variable {links updated : Links β ν} {slot : Slot β ν} {before after : List ν} {node : ν}

/-- A chain without one of its nodes, once the place before it points to the node
behind it and that node points back. Every other pointer is as it was.

The induction is on the nodes before it; the place that changes is met at its end. -/
theorem Chain.remove (chain : links.Chain slot (before ++ node :: after))
    (distinct : (before ++ node :: after).Nodup)
    (outer : ∀ inner ∈ before ++ node :: after, slot ≠ .next inner)
    (pointers : ∀ place, place ≠ .next node → updated.load place =
      if place = lastSlot slot before then after.head? else links.load place)
    (backs : ∀ other, other ≠ node → updated.pprev other =
      if after.head? = some other then some (lastSlot slot before) else links.pprev other) :
    updated.Chain slot (before ++ after) := by
  induction before generalizing slot with
  | nil =>
    obtain ⟨_, _, continued⟩ := chain
    obtain ⟨absent, distinct⟩ := List.nodup_cons.mp distinct
    have here : lastSlot slot [] = slot := rfl
    have elsewhere (other : ν) (member : other ∈ after) : other ≠ node := by
      rintro rfl
      exact absent member
    apply continued.transport
    · rw [pointers slot (outer node List.mem_cons_self), here, if_pos rfl, continued.load]
    · intro other first
      have leads : after.head? = some other := first
      rw [backs other (elsewhere other (List.mem_of_mem_head? first)), here, if_pos leads]
    · intro other member
      have away : Slot.next other ≠ lastSlot slot [] :=
        (outer other (List.mem_cons_of_mem node member)).symm
      rw [pointers (.next other) (by simpa using elsewhere other member), if_neg away]
    · intro other later
      have member := List.mem_of_mem_tail later
      have behind : after.head? ≠ some other := by
        intro first
        cases after with
        | nil => cases first
        | cons head rest =>
          obtain rfl := Option.some.inj first
          exact (List.nodup_cons.mp distinct).1 later
      rw [backs other (elsewhere other member), if_neg behind]
  | cons head rest inductionHypothesis =>
    obtain ⟨points, back, continued⟩ := chain
    obtain ⟨absent, distinct⟩ := List.nodup_cons.mp distinct
    have different : head ≠ node := by
      rintro rfl
      exact absent (List.mem_append_right rest List.mem_cons_self)
    have outside : ∀ inner ∈ rest ++ node :: after, Slot.next head ≠ (.next inner : Slot β ν) := by
      intro inner member same
      obtain rfl := Slot.next.inj same
      exact absent member
    refine ⟨?_, ?_, inductionHypothesis continued distinct outside pointers backs⟩
    · have inner : slot ≠ lastSlot (.next head) rest := by
        rcases lastSlot_cases (.next head : Slot β ν) rest with ⟨same, _⟩ | ⟨other, member, same⟩
        · rw [same]
          exact outer head List.mem_cons_self
        · rw [same]
          exact outer other (List.mem_cons_of_mem head (List.mem_append_left _ member))
      have away : slot ≠ .next node :=
        outer node (List.mem_cons_of_mem head (List.mem_append_right rest List.mem_cons_self))
      rw [pointers slot away, lastSlot, if_neg inner, points]
    · have behind : after.head? ≠ some head := by
        intro first
        exact absent (List.mem_append_right rest
          (List.mem_cons_of_mem node (List.mem_of_mem_head? first)))
      rw [backs head different, if_neg behind, back]

end Removal

section Lists

variable {links : Links β ν} {lists : β → List ν} {head : β} {before after : List ν} {node : ν}

/-- Unlinking a node that is in no list does nothing. -/
theorem Represents.delInit_absent (represents : links.Represents lists)
    (absent : ∀ head, node ∉ lists head) : links.delInit node = links :=
  delInit_unhashed (represents.unhashed node absent)

/-- Initializing a node that is in no list changes no list. -/
theorem Represents.initNode (represents : links.Represents lists)
    (absent : ∀ head, node ∉ lists head) : (links.initNode node).Represents lists := by
  have elsewhere {other : β} {inner : ν} (member : inner ∈ lists other) : inner ≠ node := by
    rintro rfl
    exact absent other member
  refine ⟨?_, represents.distinct, represents.apart, ?_⟩
  · intro other
    apply (represents.chained other).transport
    · simp [Links.initNode]
    · intro inner leads
      have member := List.mem_of_mem_head? leads
      have split : lists other = [] ++ inner :: (lists other).tail :=
        (List.cons_head?_tail leads).symm
      simp only [Links.initNode, pprev_setPprev, pprev_store, if_neg (elsewhere member),
        (represents.links_at split).2]
      rfl
    · intro inner member
      simp [Links.initNode, elsewhere member]
    · intro inner later
      simp [Links.initNode, elsewhere (List.mem_of_mem_tail later)]
  · intro inner outside
    simp [Links.initNode, represents.unhashed inner outside]

/-- A node added at a head comes first in its list. -/
theorem Represents.addHead (represents : links.Represents lists) (head : β)
    (absent : ∀ head, node ∉ lists head) :
    (links.addHead node head).Represents (Function.update lists head (node :: lists head)) := by
  have elsewhere {other : β} {inner : ν} (member : inner ∈ lists other) : inner ≠ node := by
    rintro rfl
    exact absent other member
  have placed {other : β} {inner : ν}
      (member : inner ∈ Function.update lists head (node :: lists head) other) :
      inner = node ∧ other = head ∨ inner ∈ lists other := by
    by_cases same : other = head
    · subst same
      rw [Function.update_self] at member
      rcases List.mem_cons.mp member with rfl | older
      · exact .inl ⟨rfl, rfl⟩
      · exact .inr older
    · rw [Function.update_of_ne same] at member
      exact .inr member
  constructor
  case chained =>
    intro other
    by_cases same : other = head
    · subst same
      rw [Function.update_self]
      refine ⟨?_, ?_, ?_⟩
      · rw [load_addHead, if_pos rfl]
      · rw [pprev_addHead, if_pos rfl]
      · apply (represents.chained other).transport
        · rw [load_addHead, if_neg (by simp), if_pos rfl]
          rfl
        · intro inner leads
          have points := (represents.first_node other).trans leads
          rw [pprev_addHead, if_neg (elsewhere (List.mem_of_mem_head? leads)), if_pos points]
        · intro inner member
          rw [load_addHead, if_neg (by simp), if_neg (by simpa using elsewhere member)]
        · intro inner later
          rw [pprev_addHead, if_neg (elsewhere (List.mem_of_mem_tail later)),
            if_neg (represents.first_once later)]
    · rw [Function.update_of_ne same]
      apply (represents.chained other).transport
      · rw [load_addHead, if_neg (by simpa using same), if_neg (by simp)]
      · intro inner leads
        have member := List.mem_of_mem_head? leads
        have split : lists other = [] ++ inner :: (lists other).tail :=
          (List.cons_head?_tail leads).symm
        rw [pprev_addHead, if_neg (elsewhere member),
          if_neg (represents.first_apart same member), (represents.links_at split).2]
        rfl
      · intro inner member
        rw [load_addHead, if_neg (by simp), if_neg (by simpa using elsewhere member)]
      · intro inner later
        have member := List.mem_of_mem_tail later
        rw [pprev_addHead, if_neg (elsewhere member), if_neg (represents.first_apart same member)]
  case distinct =>
    intro other
    by_cases same : other = head
    · subst same
      rw [Function.update_self]
      exact List.nodup_cons.mpr ⟨absent other, represents.distinct other⟩
    · rw [Function.update_of_ne same]
      exact represents.distinct other
  case apart =>
    intro left right inner leftMember rightMember
    rcases placed leftMember with ⟨rfl, rfl⟩ | leftOld
    · rcases placed rightMember with ⟨_, rfl⟩ | rightOld
      · rfl
      · exact absurd rightOld (absent right)
    · rcases placed rightMember with ⟨rfl, rfl⟩ | rightOld
      · exact absurd leftOld (absent left)
      · exact represents.apart left right inner leftOld rightOld
  case unhashed =>
    intro inner outside
    have different : inner ≠ node := by
      rintro rfl
      apply outside head
      rw [Function.update_self]
      exact List.mem_cons_self
    have unlisted : ∀ other, inner ∉ lists other := by
      intro other member
      apply outside other
      by_cases same : other = head
      · subst same
        rw [Function.update_self]
        exact List.mem_cons_of_mem node member
      · rw [Function.update_of_ne same]
        exact member
    have behind : links.first head ≠ some inner := by
      rw [represents.first_node]
      exact fun leads => unlisted head (List.mem_of_mem_head? leads)
    rw [pprev_addHead, if_neg different, if_neg behind, represents.unhashed inner unlisted]

/-- An unlinked node leaves its list, and no other node does. -/
theorem Represents.delInit (represents : links.Represents lists) (member : node ∈ lists head) :
    (links.delInit node).Represents
      (Function.update lists head ((lists head).erase node)) := by
  obtain ⟨before, after, split⟩ := List.append_of_mem member
  obtain ⟨follows, hashed⟩ := represents.links_at split
  have distinct := represents.distinct head
  have erased : (lists head).erase node = before ++ after := by
    rw [split] at distinct ⊢
    have absent : node ∉ before := fun there =>
      (List.nodup_append.mp distinct).2.2 node there node List.mem_cons_self rfl
    rw [List.erase_append_right _ absent, List.erase_cons_head]
  have kept {other : β} {inner : ν}
      (present : inner ∈ Function.update lists head ((lists head).erase node) other) :
      inner ∈ lists other := by
    by_cases same : other = head
    · subst same
      rw [Function.update_self] at present
      exact List.mem_of_mem_erase present
    · rw [Function.update_of_ne same] at present
      exact present
  have listed {inner : ν} (points : links.next node = some inner) : inner ∈ lists head := by
    rw [split]
    rw [follows] at points
    exact List.mem_append_right before
      (List.mem_cons_of_mem node (List.mem_of_mem_head? points))
  constructor
  case chained =>
    intro other
    by_cases same : other = head
    · subst same
      rw [Function.update_self, erased]
      have chain := represents.chained other
      rw [split] at chain distinct
      apply chain.remove distinct (fun inner _ => by simp)
      · intro place away
        rw [load_delInit hashed, if_neg away, follows]
      · intro inner different
        rw [pprev_delInit hashed, if_neg different, follows]
    · rw [Function.update_of_ne same]
      have foreign {inner : ν} (present : inner ∈ lists other) : inner ∉ lists head :=
        fun there => same (represents.apart other head inner present there)
      have elsewhere {inner : ν} (present : inner ∈ lists other) : inner ≠ node := by
        rintro rfl
        exact foreign present member
      have behind {inner : ν} (present : inner ∈ lists other) : links.next node ≠ some inner :=
        fun points => foreign present (listed points)
      apply (represents.chained other).transport
      · have away : Slot.first other ≠ lastSlot (.first head) before := by
          rcases lastSlot_cases (.first head : Slot β ν) before with ⟨start, _⟩ | ⟨_, _, start⟩
          · rw [start]
            simpa using same
          · rw [start]
            simp
        rw [load_delInit hashed, if_neg (by simp), if_neg away]
      · intro inner leads
        have present := List.mem_of_mem_head? leads
        have first : lists other = [] ++ inner :: (lists other).tail :=
          (List.cons_head?_tail leads).symm
        rw [pprev_delInit hashed, if_neg (elsewhere present), if_neg (behind present),
          (represents.links_at first).2]
        rfl
      · intro inner present
        have away : Slot.next inner ≠ lastSlot (.first head) before := by
          rcases lastSlot_cases (.first head : Slot β ν) before with
            ⟨start, _⟩ | ⟨last, earlier, start⟩
          · rw [start]
            simp
          · rw [start]
            intro equal
            obtain rfl := Slot.next.inj equal
            apply foreign present
            rw [split]
            exact List.mem_append_left _ earlier
        rw [load_delInit hashed, if_neg (by simpa using elsewhere present), if_neg away]
      · intro inner later
        have present := List.mem_of_mem_tail later
        rw [pprev_delInit hashed, if_neg (elsewhere present), if_neg (behind present)]
  case distinct =>
    intro other
    by_cases same : other = head
    · subst same
      rw [Function.update_self]
      exact distinct.erase node
    · rw [Function.update_of_ne same]
      exact represents.distinct other
  case apart =>
    intro left right inner leftMember rightMember
    exact represents.apart left right inner (kept leftMember) (kept rightMember)
  case unhashed =>
    intro inner outside
    by_cases gone : inner = node
    · rw [pprev_delInit hashed, if_pos gone]
    · have unlisted : ∀ other, inner ∉ lists other := by
        intro other present
        apply outside other
        by_cases same : other = head
        · subst same
          rw [Function.update_self]
          exact distinct.mem_erase_iff.mpr ⟨gone, present⟩
        · rw [Function.update_of_ne same]
          exact present
      have behind : links.next node ≠ some inner := fun points => unlisted head (listed points)
      rw [pprev_delInit hashed, if_neg gone, if_neg behind, represents.unhashed inner unlisted]

end Lists

/-- Unlink the chosen nodes from a pointer on. The next node is taken before the
current one is unlinked. The result has the nodes met. -/
def sweep (chosen : ν → Bool) : Nat → Links β ν → Option ν → Option (List ν × Links β ν)
  | 0, _, _ => none
  | _ + 1, links, none => some ([], links)
  | fuel + 1, links, some node =>
      let next := links.next node
      let links := if chosen node then links.delInit node else links
      (sweep chosen fuel links next).map fun result => (node :: result.1, result.2)

/-- Unlink the chosen nodes of several lists, one list after the other. -/
def sweepAll (chosen : ν → Bool) (fuel : Nat) :
    Links β ν → List β → Option (List ν × Links β ν)
  | links, [] => some ([], links)
  | links, head :: heads => do
      let (met, links) ← sweep chosen fuel links (links.first head)
      let (others, links) ← sweepAll chosen fuel links heads
      return (met ++ others, links)

section Loops

variable {links : Links β ν} {lists : β → List ν}

/-- A sweep from the middle of a list on. The nodes met so far are gone or were kept. -/
theorem Represents.sweep_from (chosen : ν → Bool) (head : β) (met rest : List ν)
    (represents : links.Represents (Function.update lists head
      (met.filter (fun node => !chosen node) ++ rest)))
    {fuel : Nat} (enough : rest.length < fuel) :
    ∃ final, sweep chosen fuel links rest.head? = some (rest, final) ∧
      final.Represents (Function.update lists head
        ((met ++ rest).filter fun node => !chosen node)) := by
  induction rest generalizing links met fuel with
  | nil =>
    obtain ⟨fuel, rfl⟩ := Nat.exists_eq_succ_of_ne_zero (Nat.ne_of_gt enough)
    rw [List.append_nil] at represents
    rw [List.append_nil]
    exact ⟨links, rfl, represents⟩
  | cons node rest inductionHypothesis =>
    obtain ⟨fuel, rfl⟩ := Nat.exists_eq_succ_of_ne_zero (Nat.ne_zero_of_lt enough)
    have split := Function.update_self head
      (met.filter (fun node => !chosen node) ++ node :: rest) lists
    have next := (represents.links_at split).1
    have after : (if chosen node then links.delInit node else links).Represents
        (Function.update lists head
          ((met ++ [node]).filter (fun node => !chosen node) ++ rest)) := by
      by_cases gone : chosen node
      · have distinct := represents.distinct head
        rw [split] at distinct
        have absent : node ∉ met.filter (fun node => !chosen node) := fun there =>
          (List.nodup_append.mp distinct).2.2 node there node List.mem_cons_self rfl
        have member : node ∈ Function.update lists head
            (met.filter (fun node => !chosen node) ++ node :: rest) head := by
          rw [split]
          exact List.mem_append_right _ List.mem_cons_self
        have unlinked := represents.delInit member
        rw [split, List.erase_append_right _ absent, List.erase_cons_head,
          Function.update_idem] at unlinked
        rw [if_pos gone, List.filter_append]
        simpa [gone] using unlinked
      · rw [if_neg gone, List.filter_append]
        simpa [gone] using represents
    obtain ⟨final, swept, kept⟩ :=
      inductionHypothesis (met ++ [node]) after (Nat.lt_of_succ_lt_succ enough)
    refine ⟨final, ?_, ?_⟩
    · rw [List.head?_cons, sweep, next]
      simp only [swept, Option.map_some]
    · rw [List.append_assoc, List.singleton_append] at kept
      exact kept

/-- A sweep of a list meets all its nodes, and leaves those that were not chosen. -/
theorem Represents.sweep (represents : links.Represents lists) (chosen : ν → Bool) (head : β)
    {fuel : Nat} (enough : (lists head).length < fuel) :
    ∃ final, sweep chosen fuel links (links.first head) = some (lists head, final) ∧
      final.Represents (Function.update lists head
        ((lists head).filter fun node => !chosen node)) := by
  have start : links.Represents (Function.update lists head
      ([].filter (fun node => !chosen node) ++ lists head)) := by
    rw [List.filter_nil, List.nil_append, Function.update_eq_self]
    exact represents
  rw [represents.first_node]
  exact start.sweep_from chosen head [] (lists head) enough

/-- A sweep of several lists meets all their nodes, each list's in turn, and leaves
those that were not chosen. -/
theorem Represents.sweepAll (represents : links.Represents lists) (chosen : ν → Bool)
    (heads : List β) (distinct : heads.Nodup) {fuel : Nat}
    (enough : ∀ head ∈ heads, (lists head).length < fuel) :
    ∃ final, sweepAll chosen fuel links heads = some (heads.flatMap lists, final) ∧
      final.Represents (fun head => if head ∈ heads then
        (lists head).filter fun node => !chosen node else lists head) := by
  induction heads generalizing links lists with
  | nil =>
    refine ⟨links, rfl, ?_⟩
    simpa using represents
  | cons head heads inductionHypothesis =>
    obtain ⟨absent, distinct⟩ := List.nodup_cons.mp distinct
    obtain ⟨middle, swept, represented⟩ :=
      represents.sweep chosen head (enough head List.mem_cons_self)
    have kept {other : β} (member : other ∈ heads) :
        Function.update lists head ((lists head).filter fun node => !chosen node) other =
          lists other := by
      apply Function.update_of_ne
      rintro rfl
      exact absent member
    obtain ⟨final, others, finished⟩ := inductionHypothesis represented distinct (by
      intro other member
      rw [kept member]
      exact enough other (List.mem_cons_of_mem head member))
    refine ⟨final, ?_, ?_⟩
    · have same : heads.flatMap (Function.update lists head
          ((lists head).filter fun node => !chosen node)) = heads.flatMap lists :=
        List.flatMap_congr fun other member => kept member
      rw [Links.sweepAll, swept]
      simp only [Option.bind_eq_bind, Option.bind_some, others, same, Option.pure_def,
        List.flatMap_cons]
    · convert finished using 1
      funext other
      by_cases here : other = head
      · subst here
        rw [if_pos List.mem_cons_self, if_neg absent, Function.update_self]
      · rw [Function.update_of_ne here]
        simp only [List.mem_cons, here, false_or]

end Loops

end Links

end Emilib.IntrusiveLists
