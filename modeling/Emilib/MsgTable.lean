import Mathlib.Data.List.Nodup
import Mathlib.Logic.Function.Basic

/-!
# The table of registered messages

This is `emi_hash.c` with its chains as lists, most recent entry first. An entry
of the table is a `struct msg_map` that `alloc_msg_map` returned; two entries may
agree in msg and pid, so each carries the number of its insertion, in place of
its address.

Every table built by insertions and deletions holds each of its entries once and
only entries inserted so far. The structure of a table carries both facts.
-/

namespace Emilib.MsgTable

/-- `struct msg_map`. -/
structure MsgMap where
  msg : BitVec 32
  pid : BitVec 32
  node : Nat
deriving DecidableEq, Repr

/-- `__hash32`, for an `EMI_HASH_MASK` of eight bits. -/
def hash32 (key : BitVec 32) : BitVec 8 := ((key * 0x9e370001) >>> 24).setWidth 8

/-- `msg_table_head`, and the number of insertions so far. -/
structure Table where
  head : BitVec 8 → List MsgMap
  inserted : Nat
  distinct : ∀ bucket, (head bucket).Nodup
  known : ∀ bucket, ∀ map ∈ head bucket, map.node < inserted

/-- `init_msg_table_lock`: every chain is empty. -/
def initMsgTable : Table where
  head _ := []
  inserted := 0
  distinct _ := List.nodup_nil
  known _ _ member := absurd member List.not_mem_nil

/-- The entry the next insertion for this msg and pid adds. -/
def Table.newMap (table : Table) (msg pid : BitVec 32) : MsgMap := ⟨msg, pid, table.inserted⟩

/-- No chain holds the entry that is inserted next. -/
theorem Table.newMap_fresh (table : Table) (msg pid : BitVec 32) (bucket : BitVec 8) :
    table.newMap msg pid ∉ table.head bucket := fun member =>
  Nat.lt_irrefl _ (table.known bucket _ member)

/-- `emi_hinsert` of a new entry, at the head of its chain. -/
def emiHinsert (table : Table) (msg pid : BitVec 32) : Table where
  head := Function.update table.head (hash32 msg)
    (table.newMap msg pid :: table.head (hash32 msg))
  inserted := table.inserted + 1
  distinct bucket := by
    rcases eq_or_ne bucket (hash32 msg) with rfl | different
    · simpa using ⟨table.newMap_fresh msg pid _, table.distinct _⟩
    · simpa [different] using table.distinct bucket
  known bucket map member := by
    rcases eq_or_ne bucket (hash32 msg) with rfl | different
    · rw [Function.update_self] at member
      rcases List.mem_cons.mp member with rfl | older
      · exact Nat.lt_succ_self _
      · exact Nat.lt_succ_of_lt (table.known _ map older)
    · rw [Function.update_of_ne different] at member
      exact Nat.lt_succ_of_lt (table.known bucket map member)

/-- `emi_hdelete`. -/
def emiHdelete (table : Table) (map : MsgMap) : Table where
  head := Function.update table.head (hash32 map.msg) ((table.head (hash32 map.msg)).erase map)
  inserted := table.inserted
  distinct bucket := by
    rcases eq_or_ne bucket (hash32 map.msg) with rfl | different
    · simpa using (table.distinct _).erase map
    · simpa [different] using table.distinct bucket
  known bucket other member := by
    rcases eq_or_ne bucket (hash32 map.msg) with rfl | different
    · rw [Function.update_self] at member
      exact table.known _ other (List.mem_of_mem_erase member)
    · rw [Function.update_of_ne different] at member
      exact table.known bucket other member

/-- The entries an `emi_hsearch` loop with a test of the msg works on. -/
def entriesOf (table : Table) (msg : BitVec 32) : List MsgMap :=
  (table.head (hash32 msg)).filter fun map => map.msg = msg

/-- The scan of `emi_hinsert_unique_lock` finds an entry to refuse for. -/
def scanRefuses (table : Table) (msg pid : BitVec 32) : Bool :=
  (table.head (hash32 msg)).any fun map => map.pid = pid

/-- An entry of some chain of the table. -/
def Holds (table : Table) (map : MsgMap) : Prop := ∃ bucket, map ∈ table.head bucket

theorem mem_entriesOf {table : Table} {msg : BitVec 32} {map : MsgMap} :
    map ∈ entriesOf table msg ↔ map ∈ table.head (hash32 msg) ∧ map.msg = msg := by
  simp [entriesOf]

theorem entriesOf_nodup (table : Table) (msg : BitVec 32) : (entriesOf table msg).Nodup :=
  (table.distinct _).filter _

/-- An insertion for the searched msg comes first. -/
theorem entriesOf_insert (table : Table) (msg pid : BitVec 32) :
    entriesOf (emiHinsert table msg pid) msg = table.newMap msg pid :: entriesOf table msg := by
  simp [entriesOf, emiHinsert, Table.newMap]

/-- An insertion for another msg is not found, whatever its bucket. -/
theorem entriesOf_insert_other {table : Table} {msg other : BitVec 32} (different : other ≠ msg)
    (pid : BitVec 32) : entriesOf (emiHinsert table other pid) msg = entriesOf table msg := by
  by_cases shared : hash32 msg = hash32 other
  · simp [entriesOf, emiHinsert, Table.newMap, shared, different]
  · simp [entriesOf, emiHinsert, shared]

/-- The deletion of an entry for another msg is not noticed. -/
theorem entriesOf_delete_other {table : Table} {msg : BitVec 32} {map : MsgMap}
    (different : map.msg ≠ msg) : entriesOf (emiHdelete table map) msg = entriesOf table msg := by
  by_cases shared : hash32 msg = hash32 map.msg
  · rw [entriesOf, entriesOf, emiHdelete, shared]
    simp only [Function.update_self]
    rw [(table.distinct _).erase_eq_filter, List.filter_filter]
    refine List.filter_congr fun other _ => ?_
    by_cases searched : other.msg = msg
    · have apart : other ≠ map := fun same => different (same ▸ searched)
      simp [searched, apart]
    · simp [searched]
  · simp [entriesOf, emiHdelete, shared]

/-- A deletion removes its entry and no other. -/
theorem mem_entriesOf_delete {table : Table} {msg : BitVec 32} {map other : MsgMap} :
    other ∈ entriesOf (emiHdelete table map) msg ↔ other ≠ map ∧ other ∈ entriesOf table msg := by
  by_cases shared : hash32 msg = hash32 map.msg
  · simp only [mem_entriesOf, emiHdelete, shared, Function.update_self]
    rw [(table.distinct _).mem_erase_iff]
    exact and_assoc
  · have apart (searched : other.msg = msg) : other ≠ map := by
      rintro rfl
      exact shared (by rw [searched])
    simp only [mem_entriesOf, emiHdelete, ne_eq, shared, not_false_eq_true, Function.update_of_ne]
    exact ⟨fun found => ⟨apart found.2, found⟩, fun found => found.2⟩

/-- An insertion adds its entry to its chain and nothing else. -/
theorem mem_insert {table : Table} {msg pid : BitVec 32} {bucket : BitVec 8} {map : MsgMap} :
    map ∈ (emiHinsert table msg pid).head bucket ↔
      map ∈ table.head bucket ∨ map = table.newMap msg pid ∧ bucket = hash32 msg := by
  rcases eq_or_ne bucket (hash32 msg) with rfl | different
  · simp [emiHinsert, or_comm]
  · simp [emiHinsert, different]

/-- A deletion adds nothing. -/
theorem mem_of_mem_delete {table : Table} {gone map : MsgMap} {bucket : BitVec 8}
    (member : map ∈ (emiHdelete table gone).head bucket) : map ∈ table.head bucket := by
  rcases eq_or_ne bucket (hash32 gone.msg) with rfl | different
  · simp only [emiHdelete, Function.update_self] at member
    exact List.mem_of_mem_erase member
  · simpa [emiHdelete, different] using member

end Emilib.MsgTable
