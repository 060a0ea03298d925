import Emilib.MsgChains

/-!
# The scan for duplicates

`emi_hinsert_unique_lock` keeps a process from registering twice for one msg. It
searches the bucket of the new entry and refuses at the first entry with the same
pid, without a look at the msg of that entry. The bucket also holds the entries of
the other msgs with the same hash, so a process is refused for a msg that nobody
registered when it has one of these.

The scan is right for a new entry when each entry of its pid in its bucket comes with
an entry of its msg and pid, which always holds where the msgs of a process hash to
different buckets.
-/

namespace Emilib.MsgChains

open IntrusiveLists Messages MsgTable

/-- `emi_hinsert_unique_lock`, with nobody else at the table. -/
def emiHinsertUniqueLock (table : MapTable) (fuel : Nat) (p : Address) :
    Option (Int × MapTable) :=
  (table.links.search (fun map => table.pid map = table.pid p) fuel
    (table.links.first (hash32 (table.msg p)))).map
      fun found => if found.isSome then (-1, table) else (0, emiHinsert table p)

/-- What builds a table: its other uses, and insertions after a scan. -/
inductive Build where
  | use (use : Use)
  | unique (map : Address)

/-- Perform one of these. An entry that was scanned for is new, as an inserted one is. -/
def build (tracked : Tracked) : Build → Option Tracked
  | .use use => perform tracked use
  | .unique map =>
      if tracked.entries.contains map then none
      else (emiHinsertUniqueLock tracked.table (tracked.entries.length + 1) map).map
        fun result => ⟨result.2, if result.1 = 0 then map :: tracked.entries else tracked.entries⟩

/-- Tables built from `init_msg_table_lock` on. -/
def tableBuilds : System Tracked Build := System.performing tableUses.start build

/-- The table already has an entry with the msg and the pid of this one. -/
def Registered (tracked : Tracked) (p : Address) : Prop :=
  ∃ map ∈ tracked.entries,
    tracked.table.msg map = tracked.table.msg p ∧ tracked.table.pid map = tracked.table.pid p

/-- Only a true duplicate is refused, and everything else is added. -/
def RefusesDuplicatesOnly (tracked : Tracked) (p : Address) : Prop :=
  ∃ answer after,
    emiHinsertUniqueLock tracked.table (tracked.entries.length + 1) p = some (answer, after) ∧
    (answer = -1 ∧ after = tracked.table ↔ Registered tracked p) ∧
    (¬ Registered tracked p → answer = 0 ∧ FaithfulMap ⟨after, p :: tracked.entries⟩)

/-- An entry with the pid of this one is in its bucket. -/
def Scanned (tracked : Tracked) (p : Address) : Prop :=
  ∃ map ∈ tracked.entries, hash32 (tracked.table.msg map) = hash32 (tracked.table.msg p) ∧
    tracked.table.pid map = tracked.table.pid p

section Scans

variable {tracked : Tracked} {p : Address}

/-- A true duplicate is in the bucket. -/
theorem Registered.scanned (registered : Registered tracked p) : Scanned tracked p := by
  obtain ⟨map, member, msg, pid⟩ := registered
  exact ⟨map, member, congrArg hash32 msg, pid⟩

/-- What the scan comes upon is an entry of the pid in the bucket. -/
theorem Represented.search (represented : Represented tracked) (p : Address) :
    ∃ found, tracked.table.links.search (fun map => tracked.table.pid map = tracked.table.pid p)
        (tracked.entries.length + 1) (tracked.table.links.first (hash32 (tracked.table.msg p))) =
        some found ∧
      (found.isSome ↔ Scanned tracked p) := by
  have chain := represented.links.chained (hash32 (tracked.table.msg p))
  refine ⟨_, chain.search _ (inBucket_short tracked _), ?_⟩
  rw [List.find?_isSome]
  constructor
  · rintro ⟨map, inside, pid⟩
    obtain ⟨member, bucket⟩ := mem_inBucket.mp inside
    exact ⟨map, member, bucket, of_decide_eq_true pid⟩
  · rintro ⟨map, member, bucket, pid⟩
    exact ⟨map, mem_inBucket.mpr ⟨member, bucket⟩, decide_eq_true pid⟩

/-- With an entry of the pid in the bucket the scan refuses. -/
theorem Represented.refused (represented : Represented tracked) (scanned : Scanned tracked p) :
    emiHinsertUniqueLock tracked.table (tracked.entries.length + 1) p =
      some (-1, tracked.table) := by
  obtain ⟨found, searched, tells⟩ := represented.search p
  rw [emiHinsertUniqueLock, searched, Option.map_some, if_pos (tells.mpr scanned)]

/-- Without one the entry is inserted. -/
theorem Represented.accepted (represented : Represented tracked)
    (unscanned : ¬ Scanned tracked p) :
    emiHinsertUniqueLock tracked.table (tracked.entries.length + 1) p =
      some (0, emiHinsert tracked.table p) := by
  obtain ⟨found, searched, tells⟩ := represented.search p
  have missed : ¬ found.isSome := fun found => unscanned (tells.mp found)
  rw [emiHinsertUniqueLock, searched, Option.map_some, if_neg missed]

/-- Every step of a build keeps the representation. -/
theorem build_represented (represented : Represented tracked) (step : Build) {after : Tracked}
    (taken : build tracked step = some after) : Represented after := by
  cases step with
  | use use => exact perform_represented represented use taken
  | unique map =>
    by_cases member : map ∈ tracked.entries
    · rw [build, if_pos (List.contains_iff_mem.mpr member)] at taken
      cases taken
    · rw [build, if_neg (mt List.contains_iff_mem.mp member)] at taken
      by_cases scanned : Scanned tracked map
      · rw [represented.refused scanned] at taken
        obtain rfl := Option.some.inj taken
        exact represented
      · rw [represented.accepted scanned] at taken
        obtain rfl := Option.some.inj taken
        exact represented.insert member

/-- Every table built represents its entries. -/
theorem built_represented (reached : tableBuilds.Reached tracked) : Represented tracked := by
  apply reached.invariant
  · intro state starts
    exact initial_represented starts
  · intro before step after held _ taken
    exact build_represented held step taken

end Scans

/-- For a new entry, only a true duplicate is refused just when an entry of its pid in
its bucket means that its msg and pid are registered. -/
theorem refuses_duplicates_iff (tracked : Tracked) (reached : tableBuilds.Reached tracked)
    (p : Address) (new : p ∉ tracked.entries) :
    RefusesDuplicatesOnly tracked p ↔ (Scanned tracked p → Registered tracked p) := by
  have represented := built_represented reached
  constructor
  · rintro ⟨answer, after, inserted, refuses, _⟩ scanned
    rw [represented.refused scanned] at inserted
    have refused := Prod.mk.inj (Option.some.inj inserted)
    exact refuses.mp ⟨refused.1.symm, refused.2.symm⟩
  · intro complete
    by_cases scanned : Scanned tracked p
    · have registered := complete scanned
      refine ⟨-1, tracked.table, represented.refused scanned, ?_, ?_⟩
      · exact ⟨fun _ => registered, fun _ => ⟨rfl, rfl⟩⟩
      · exact fun unregistered => absurd registered unregistered
    · refine ⟨0, emiHinsert tracked.table p, represented.accepted scanned, ?_, ?_⟩
      · constructor
        · rintro ⟨refused, _⟩
          cases refused
        · exact fun registered => absurd registered.scanned scanned
      · exact fun _ => ⟨rfl, (represented.insert new).faithful⟩

/-- Process 7 at msg 1, and an entry of it for msg 234, which has the same hash. -/
def collidingTable : Tracked :=
  ⟨msgMapInit (emiHinsert (msgMapInit freshTable.table 16 1 7) 16) 32 234 7, [16]⟩

/-- The colliding table is built by one insertion. -/
theorem collidingTable_reached : tableBuilds.Reached collidingTable := by
  have started : tableBuilds.Reached freshTable := .initial _ ⟨rfl, _, fun _ => rfl, rfl⟩
  have initialized : tableBuilds.step freshTable (.use (.init 16 1 7))
      ⟨msgMapInit freshTable.table 16 1 7, []⟩ := rfl
  have inserted : tableBuilds.step ⟨msgMapInit freshTable.table 16 1 7, []⟩ (.use (.insert 16))
      ⟨emiHinsert (msgMapInit freshTable.table 16 1 7) 16, [16]⟩ := rfl
  have second : tableBuilds.step ⟨emiHinsert (msgMapInit freshTable.table 16 1 7) 16, [16]⟩
      (.use (.init 32 234 7)) collidingTable := rfl
  exact ((started.next initialized).next inserted).next second

/-- The uses that fill a bucket with entries of two msgs, and a new entry of process 7 for
msg 1, for which it is registered. -/
def repeatedBuilds : List Build := sharedBucketUses.map .use ++ [.use (.init 96 1 7)]

/-- The duplicate is refused, and nothing else would be. -/
theorem repeated_msg_refused : ∃ tracked,
    System.follow build (fun _ _ => True) freshTable repeatedBuilds = some tracked ∧
      tracked.entries = [80, 64, 16] ∧ Registered tracked 96 ∧
      RefusesDuplicatesOnly tracked 96 := by
  have started : tableBuilds.Reached freshTable := .initial _ ⟨rfl, _, fun _ => rfl, rfl⟩
  have outcome : (System.follow build (fun _ _ => True) freshTable repeatedBuilds).map
      (fun tracked => (tracked.entries, decide (tracked.table.msg 16 = tracked.table.msg 96 ∧
        tracked.table.pid 16 = tracked.table.pid 96))) = some ([80, 64, 16], true) := by
    decide +kernel
  obtain ⟨tracked, completed, seen⟩ := Option.map_eq_some_iff.mp outcome
  obtain ⟨entries, same⟩ := Prod.mk.inj seen
  have registered : Registered tracked 96 :=
    ⟨16, by rw [entries]; decide, of_decide_eq_true same⟩
  refine ⟨tracked, completed, entries, registered, ?_⟩
  exact (refuses_duplicates_iff tracked (System.follow_reached repeatedBuilds started completed) 96
    (by rw [entries]; decide)).mpr fun _ => registered

/-- A process is refused for its second msg. -/
theorem second_msg_refused : ¬ ∀ tracked, tableBuilds.Reached tracked →
    ∀ p ∉ tracked.entries, RefusesDuplicatesOnly tracked p := by
  intro claimed
  obtain ⟨answer, after, inserted, refuses, _⟩ :=
    claimed collidingTable collidingTable_reached 32 (by decide)
  have refused : emiHinsertUniqueLock collidingTable.table 2 32 =
      some (-1, collidingTable.table) := rfl
  obtain ⟨rfl, rfl⟩ := Prod.mk.inj (Option.some.inj (refused.symm.trans inserted))
  obtain ⟨map, member, msg, _⟩ := refuses.mp ⟨rfl, rfl⟩
  obtain rfl := List.mem_singleton.mp member
  exact absurd msg (by decide)

end Emilib.MsgChains
