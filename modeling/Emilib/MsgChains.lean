import Emilib.Runs
import Emilib.Messages
import Emilib.MsgTable
import Emilib.IntrusiveLists

/-!
# The chains of the message table in memory

This is `emi_hash.h` with its pointers. A `struct msg_map` is known by its address,
and the chain of each bucket is an intrusive list of such entries.

Beside the table stands the list of the entries inserted and not yet deleted, most
recent first. It is kept by the operations' meaning alone, without a look at any
pointer, and every search and every traversal is compared with it.
-/

namespace Emilib.MsgChains

open IntrusiveLists Messages MsgTable

/-- `msg_table_head`, and every `struct msg_map` by its address. -/
structure MapTable where
  links : Links (BitVec 8) Address
  msg : Address → BitVec 32
  pid : Address → BitVec 32

/-- `EMI_MSG_TABLE_SIZE`. -/
def emiMsgTableSize : Nat := 2 ^ 8

/-- `INIT_HLIST_HEAD`. -/
def initHlistHead (links : Links (BitVec 8) Address) (head : BitVec 8) :
    Links (BitVec 8) Address := links.initHead head

/-- `INIT_HLIST_NODE`. -/
def initHlistNode (links : Links (BitVec 8) Address) (node : Address) :
    Links (BitVec 8) Address := links.initNode node

/-- `hlist_add_head`. -/
def hlistAddHead (links : Links (BitVec 8) Address) (node : Address) (head : BitVec 8) :
    Links (BitVec 8) Address := links.addHead node head

/-- `hlist_del_init`, with `__hlist_del` as the unlinking of the node. -/
def hlistDelInit (links : Links (BitVec 8) Address) (node : Address) :
    Links (BitVec 8) Address := links.delInit node

/-- `msg_map_init`. -/
def msgMapInit (table : MapTable) (map : Address) (msg pid : BitVec 32) : MapTable where
  links := initHlistNode table.links map
  msg := Function.update table.msg map msg
  pid := Function.update table.pid map pid

/-- `emi_hinsert`. -/
def emiHinsert (table : MapTable) (map : Address) : MapTable :=
  { table with links := hlistAddHead table.links map (hash32 (table.msg map)) }

/-- `emi_hdelete`. -/
def emiHdelete (table : MapTable) (map : Address) : MapTable :=
  { table with links := hlistDelInit table.links map }

/-- The numbers of the buckets, in order. -/
def buckets : List (BitVec 8) := (List.range emiMsgTableSize).map (BitVec.ofNat 8)

/-- `init_msg_table_lock`, without the lock. -/
def initMsgTableLock (table : MapTable) : MapTable :=
  { table with links := buckets.foldl initHlistHead table.links }

/-- The entries that a loop `emi_hsearch` visits. -/
def emiHsearch (table : MapTable) (fuel : Nat) (key : BitVec 32) : Option (List Address) :=
  table.links.walk fuel (table.links.first (hash32 key))

/-- A loop `emi_hsearch_safe` whose body deletes the chosen entries: the entries it
visits, and the table. -/
def emiHsearchSafe (table : MapTable) (chosen : Address → Bool) (fuel : Nat) (key : BitVec 32) :
    Option (List Address × MapTable) :=
  (Links.sweep chosen fuel table.links (table.links.first (hash32 key))).map
    fun result => (result.1, { table with links := result.2 })

/-- A loop `emi_traverse` whose body deletes the chosen entries. The inner loop leaves
`obj` NULL, so the outer one goes on to the next bucket. -/
def emiTraverse (table : MapTable) (chosen : Address → Bool) (fuel : Nat) :
    Option (List Address × MapTable) :=
  (Links.sweepAll chosen fuel table.links buckets).map
    fun result => (result.1, { table with links := result.2 })

/-- A table, and the entries inserted and not deleted since, most recent first. -/
structure Tracked where
  table : MapTable
  entries : List Address

/-- The entries whose msg hashes to a bucket. -/
def Tracked.inBucket (tracked : Tracked) (bucket : BitVec 8) : List Address :=
  tracked.entries.filter fun map => hash32 (tracked.table.msg map) = bucket

/-- A use of the table. -/
inductive Use where
  | init (map : Address) (msg pid : BitVec 32)
  | insert (map : Address)
  | delete (map : Address)
  | sweep (key : BitVec 32) (chosen : Address → Bool)
  | traverse (chosen : Address → Bool)

/-- Perform a use. Only entries that are not in the table are initialized or inserted. -/
def perform (tracked : Tracked) : Use → Option Tracked
  | .init map msg pid =>
      if map ∈ tracked.entries then none
      else some { tracked with table := msgMapInit tracked.table map msg pid }
  | .insert map =>
      if map ∈ tracked.entries then none
      else some ⟨emiHinsert tracked.table map, map :: tracked.entries⟩
  | .delete map => some ⟨emiHdelete tracked.table map, tracked.entries.erase map⟩
  | .sweep key chosen =>
      (emiHsearchSafe tracked.table chosen (tracked.entries.length + 1) key).map fun result =>
        ⟨result.2, tracked.entries.filter fun map =>
          !(hash32 (tracked.table.msg map) = hash32 key && chosen map)⟩
  | .traverse chosen =>
      (emiTraverse tracked.table chosen (tracked.entries.length + 1)).map fun result =>
        ⟨result.2, tracked.entries.filter fun map => !chosen map⟩

/-- Uses of a table from `init_msg_table_lock` on, once `msg_map_init` has been called
for every entry. The heads may have held anything. -/
def tableUses : System Tracked Use :=
  System.performing (fun tracked => tracked.entries = [] ∧ ∃ memory : MapTable,
    (∀ map, memory.links.pprev map = none) ∧ tracked.table = initMsgTableLock memory) perform

/-- The table is a faithful multimap of the entries. -/
structure FaithfulMap (tracked : Tracked) : Prop where
  consistent : ∀ bucket,
    tracked.table.links.Chain (.first bucket) (tracked.inBucket bucket)
  once : tracked.entries.Nodup
  searches : ∀ key, emiHsearch tracked.table (tracked.entries.length + 1) key =
    some (tracked.inBucket (hash32 key))
  finds : ∀ map ∈ tracked.entries, map ∈ tracked.inBucket (hash32 (tracked.table.msg map))
  sweeps : ∀ key chosen, ∃ after,
    emiHsearchSafe tracked.table chosen (tracked.entries.length + 1) key =
      some (tracked.inBucket (hash32 key), after)
  traverses : ∀ chosen, ∃ visited after,
    emiTraverse tracked.table chosen (tracked.entries.length + 1) = some (visited, after) ∧
      visited.Perm tracked.entries
  deletes : ∀ map, map ∉ tracked.entries → emiHdelete tracked.table map = tracked.table

/-- Every bucket is one of the loop's. -/
theorem mem_buckets (bucket : BitVec 8) : bucket ∈ buckets := by
  apply List.mem_map.mpr
  refine ⟨bucket.toNat, List.mem_range.mpr bucket.isLt, ?_⟩
  simp

/-- The loop over the buckets comes to each of them once. -/
theorem buckets_nodup : buckets.Nodup := by
  apply List.Nodup.map_on ?_ List.nodup_range
  intro left leftIn right rightIn same
  have leftBound := List.mem_range.mp leftIn
  have rightBound := List.mem_range.mp rightIn
  have numbers := congrArg BitVec.toNat same
  simp only [emiMsgTableSize] at leftBound rightBound
  simp only [BitVec.toNat_ofNat] at numbers
  omega

/-- Initializing heads empties these and leaves the others and all nodes. -/
theorem initHeads_load (heads : List (BitVec 8)) (links : Links (BitVec 8) Address) :
    (heads.foldl initHlistHead links).pprev = links.pprev ∧
      ∀ head, (heads.foldl initHlistHead links).first head =
        if head ∈ heads then none else links.first head := by
  induction heads generalizing links with
  | nil => simp
  | cons first rest inductionHypothesis =>
    obtain ⟨backs, firsts⟩ := inductionHypothesis (initHlistHead links first)
    refine ⟨backs.trans (Links.pprev_store links _ none), ?_⟩
    intro head
    have cleared : (initHlistHead links first).first head =
        if head = first then none else links.first head := by
      have loaded := Links.load_store links (.first first) (.first head) none
      simp only [Slot.first.injEq] at loaded
      exact loaded
    rw [List.foldl_cons, firsts, cleared]
    by_cases later : head ∈ rest
    · simp [later]
    · simp [later]

/-- The links represent the entries of each bucket. -/
structure Represented (tracked : Tracked) : Prop where
  links : tracked.table.links.Represents tracked.inBucket
  once : tracked.entries.Nodup

section Steps

variable {tracked : Tracked}

/-- An entry is in its own bucket and no other. -/
theorem mem_inBucket {bucket : BitVec 8} {map : Address} :
    map ∈ tracked.inBucket bucket ↔
      map ∈ tracked.entries ∧ hash32 (tracked.table.msg map) = bucket := by
  simp [Tracked.inBucket]

/-- What is not in the table is in no chain. -/
theorem absent_inBucket {map : Address} (absent : map ∉ tracked.entries) (bucket : BitVec 8) :
    map ∉ tracked.inBucket bucket := fun member => absent (mem_inBucket.mp member).1

/-- No chain is longer than the list of all entries. -/
theorem inBucket_short (tracked : Tracked) (bucket : BitVec 8) :
    (tracked.inBucket bucket).length < tracked.entries.length + 1 :=
  Nat.lt_succ_of_le (List.length_filter_le _ _)

/-- After `init_msg_table_lock` every chain is empty. -/
theorem initial_represented (starts : tableUses.start tracked) : Represented tracked := by
  obtain ⟨empty, memory, nodes, initialized⟩ := starts
  obtain ⟨backs, firsts⟩ := initHeads_load buckets memory.links
  have none : tracked.inBucket = fun _ => [] := by
    funext bucket
    rw [Tracked.inBucket, empty, List.filter_nil]
  refine ⟨?_, by rw [empty]; exact List.nodup_nil⟩
  rw [none, initialized]
  apply Links.represents_empty
  · intro bucket
    exact (firsts bucket).trans (if_pos (mem_buckets bucket))
  · intro map
    exact (congrFun backs map).trans (nodes map)

/-- Initializing an entry that is not in the table changes no chain. -/
theorem Represented.init (represented : Represented tracked) {map : Address}
    (absent : map ∉ tracked.entries) (msg pid : BitVec 32) :
    Represented { tracked with table := msgMapInit tracked.table map msg pid } := by
  refine ⟨?_, represented.once⟩
  have same : Tracked.inBucket { tracked with table := msgMapInit tracked.table map msg pid } =
      tracked.inBucket := by
    funext bucket
    apply List.filter_congr
    intro other member
    have different : other ≠ map := by
      rintro rfl
      exact absent member
    simp [msgMapInit, different]
  rw [same]
  exact represented.links.initNode (absent_inBucket absent)

/-- An inserted entry comes first in its chain. -/
theorem Represented.insert (represented : Represented tracked) {map : Address}
    (absent : map ∉ tracked.entries) :
    Represented ⟨emiHinsert tracked.table map, map :: tracked.entries⟩ := by
  refine ⟨?_, List.nodup_cons.mpr ⟨absent, represented.once⟩⟩
  have lists : Tracked.inBucket ⟨emiHinsert tracked.table map, map :: tracked.entries⟩ =
      Function.update tracked.inBucket (hash32 (tracked.table.msg map))
        (map :: tracked.inBucket (hash32 (tracked.table.msg map))) := by
    funext bucket
    by_cases own : bucket = hash32 (tracked.table.msg map)
    · rw [own, Function.update_self]
      exact List.filter_cons_of_pos (decide_eq_true rfl)
    · rw [Function.update_of_ne own]
      apply List.filter_cons_of_neg
      simp [emiHinsert, Ne.symm own]
  rw [lists]
  exact represented.links.addHead (hash32 (tracked.table.msg map)) (absent_inBucket absent)

/-- Deleting an entry that is not in the table does nothing. -/
theorem Represented.delete_absent (represented : Represented tracked) {map : Address}
    (absent : map ∉ tracked.entries) : emiHdelete tracked.table map = tracked.table := by
  have same := represented.links.delInit_absent (absent_inBucket absent)
  rw [emiHdelete, hlistDelInit, same]

/-- A deleted entry leaves its chain. -/
theorem Represented.delete (represented : Represented tracked) (map : Address) :
    Represented ⟨emiHdelete tracked.table map, tracked.entries.erase map⟩ := by
  by_cases member : map ∈ tracked.entries
  · refine ⟨?_, represented.once.erase map⟩
    have distinct := represented.links.distinct (hash32 (tracked.table.msg map))
    have lists : Tracked.inBucket ⟨emiHdelete tracked.table map, tracked.entries.erase map⟩ =
        Function.update tracked.inBucket (hash32 (tracked.table.msg map))
          ((tracked.inBucket (hash32 (tracked.table.msg map))).erase map) := by
      funext bucket
      by_cases own : bucket = hash32 (tracked.table.msg map)
      · rw [own, Function.update_self, distinct.erase_eq_filter]
        simp only [Tracked.inBucket, emiHdelete, represented.once.erase_eq_filter,
          List.filter_filter]
        apply List.filter_congr
        intro other _
        exact Bool.and_comm _ _
      · rw [Function.update_of_ne own]
        simp only [Tracked.inBucket, emiHdelete, represented.once.erase_eq_filter,
          List.filter_filter]
        apply List.filter_congr
        intro other _
        by_cases same : other = map
        · subst same
          have elsewhere : hash32 (tracked.table.msg other) ≠ bucket := Ne.symm own
          simp [elsewhere]
        · rw [bne_iff_ne.mpr same]
          exact Bool.and_true _
    rw [lists]
    exact represented.links.delInit (mem_inBucket.mpr ⟨member, rfl⟩)
  · rw [represented.delete_absent member, List.erase_of_not_mem member]
    exact represented

/-- A safe search visits the chain of its bucket, and leaves what was not chosen. -/
theorem Represented.sweep (represented : Represented tracked) (chosen : Address → Bool)
    (key : BitVec 32) :
    ∃ after, emiHsearchSafe tracked.table chosen (tracked.entries.length + 1) key =
        some (tracked.inBucket (hash32 key), after) ∧
      Represented ⟨after, tracked.entries.filter fun map =>
        !(hash32 (tracked.table.msg map) = hash32 key && chosen map)⟩ := by
  obtain ⟨final, swept, left⟩ := represented.links.sweep chosen (hash32 key)
    (inBucket_short tracked (hash32 key))
  refine ⟨{ tracked.table with links := final }, ?_, ?_, represented.once.filter _⟩
  · rw [emiHsearchSafe, swept, Option.map_some]
  · convert left using 1
    funext bucket
    by_cases own : bucket = hash32 key
    · rw [own, Function.update_self]
      simp only [Tracked.inBucket, List.filter_filter]
      apply List.filter_congr
      intro other _
      by_cases there : hash32 (tracked.table.msg other) = hash32 key
      · simp [there]
      · simp [there]
    · rw [Function.update_of_ne own]
      simp only [Tracked.inBucket, List.filter_filter]
      apply List.filter_congr
      intro other _
      by_cases there : hash32 (tracked.table.msg other) = bucket
      · simp [there, own]
      · simp [there]

/-- A traversal visits every chain, and leaves what was not chosen. -/
theorem Represented.traverse (represented : Represented tracked) (chosen : Address → Bool) :
    ∃ after, emiTraverse tracked.table chosen (tracked.entries.length + 1) =
        some (buckets.flatMap tracked.inBucket, after) ∧
      Represented ⟨after, tracked.entries.filter fun map => !chosen map⟩ := by
  obtain ⟨final, swept, left⟩ := represented.links.sweepAll chosen buckets buckets_nodup
    (fun bucket _ => inBucket_short tracked bucket)
  refine ⟨{ tracked.table with links := final }, ?_, ?_, represented.once.filter _⟩
  · rw [emiTraverse, swept, Option.map_some]
  · convert left using 1
    funext bucket
    rw [if_pos (mem_buckets bucket)]
    simp only [Tracked.inBucket, List.filter_filter]
    apply List.filter_congr
    intro other _
    exact Bool.and_comm _ _

/-- Every use keeps the representation. -/
theorem perform_represented (represented : Represented tracked) (use : Use) {after : Tracked}
    (taken : perform tracked use = some after) : Represented after := by
  cases use with
  | init map msg pid =>
    by_cases member : map ∈ tracked.entries
    · rw [perform, if_pos member] at taken
      cases taken
    · rw [perform, if_neg member] at taken
      obtain rfl := Option.some.inj taken
      exact represented.init member msg pid
  | insert map =>
    by_cases member : map ∈ tracked.entries
    · rw [perform, if_pos member] at taken
      cases taken
    · rw [perform, if_neg member] at taken
      obtain rfl := Option.some.inj taken
      exact represented.insert member
  | delete map =>
    obtain rfl := Option.some.inj taken
    exact represented.delete map
  | sweep key chosen =>
    obtain ⟨final, swept, left⟩ := represented.sweep chosen key
    rw [perform, swept] at taken
    obtain rfl := Option.some.inj taken
    exact left
  | traverse chosen =>
    obtain ⟨final, swept, left⟩ := represented.traverse chosen
    rw [perform, swept] at taken
    obtain rfl := Option.some.inj taken
    exact left

/-- The chains together have every entry once. -/
theorem Represented.all (represented : Represented tracked) :
    (buckets.flatMap tracked.inBucket).Perm tracked.entries := by
  have distinct : (buckets.flatMap tracked.inBucket).Nodup := by
    apply List.nodup_flatMap.mpr
    refine ⟨fun bucket _ => represented.links.distinct bucket, ?_⟩
    apply buckets_nodup.imp
    intro left right different map leftMember rightMember
    exact different (represented.links.apart left right map leftMember rightMember)
  apply (List.perm_ext_iff_of_nodup distinct represented.once).mpr
  intro map
  rw [List.mem_flatMap]
  constructor
  · rintro ⟨bucket, _, member⟩
    exact (mem_inBucket.mp member).1
  · intro member
    exact ⟨hash32 (tracked.table.msg map), mem_buckets _, mem_inBucket.mpr ⟨member, rfl⟩⟩

/-- A table that represents its entries is a faithful multimap of them. -/
theorem Represented.faithful (represented : Represented tracked) : FaithfulMap tracked := by
  refine ⟨represented.links.chained, represented.once, ?_, ?_, ?_, ?_, ?_⟩
  · intro key
    exact (represented.links.chained (hash32 key)).walk (inBucket_short tracked (hash32 key))
  · intro map member
    exact mem_inBucket.mpr ⟨member, rfl⟩
  · intro key chosen
    obtain ⟨after, swept, _⟩ := represented.sweep chosen key
    exact ⟨after, swept⟩
  · intro chosen
    obtain ⟨after, swept, _⟩ := represented.traverse chosen
    exact ⟨_, after, swept, represented.all⟩
  · intro map absent
    exact represented.delete_absent absent

end Steps

/-- In every state of every use of the table, it is a faithful multimap of its entries. -/
theorem reached_faithful (tracked : Tracked) (reached : tableUses.Reached tracked) :
    FaithfulMap tracked := by
  apply Represented.faithful
  apply reached.invariant (fun _ starts => initial_represented starts)
  intro before use after held _ taken
  exact perform_represented held use taken

/-- A table without entries, in memory that holds nothing else. -/
def freshTable : Tracked :=
  ⟨initMsgTableLock ⟨⟨fun _ => none, fun _ => none, fun _ => none⟩, fun _ => 0, fun _ => 0⟩, []⟩

/-- Four entries in one bucket, of the msgs 1 and 234, and one elsewhere. Of the four, one
is deleted and another swept out while its bucket is searched. -/
def sharedBucketUses : List Use :=
  [.init 16 1 7, .insert 16, .init 32 234 7, .insert 32, .init 48 1 9, .insert 48,
    .init 64 2 7, .insert 64, .init 80 234 8, .insert 80, .delete 32, .sweep 1 (· == 48)]

/-- What is left is a faithful multimap. -/
theorem shared_bucket_faithful : ∃ tracked,
    System.follow perform (fun _ _ => True) freshTable sharedBucketUses = some tracked ∧
      tracked.entries = [80, 64, 16] ∧ hash32 (tracked.table.msg 80) = hash32 1 ∧
      FaithfulMap tracked := by
  have started : tableUses.Reached freshTable := .initial _ ⟨rfl, _, fun _ => rfl, rfl⟩
  have outcome : (System.follow perform (fun _ _ => True) freshTable sharedBucketUses).map
      (fun tracked => (tracked.entries, tracked.table.msg 80)) = some ([80, 64, 16], 234) := by
    decide +kernel
  obtain ⟨tracked, completed, seen⟩ := Option.map_eq_some_iff.mp outcome
  obtain ⟨entries, msg⟩ := Prod.mk.inj seen
  refine ⟨tracked, completed, entries, by rw [msg]; rfl, ?_⟩
  exact reached_faithful tracked (System.follow_reached sharedBucketUses started completed)

end Emilib.MsgChains
