import Mathlib.Data.Fintype.Basic
import Emilib.MsgChains

/-!
# Walks over the message table while entries are freed

The workers of `emi_core` walk the chains of the message table. The signal pass holds the
table lock for reading, the sweep holds it for writing and frees the entries of receivers
that are gone. The counting pass and the scan for a duplicate hold no lock, so an entry
may be freed while one of them stands at it. The worker that inserts an entry reads the
pid in it again behind the unlock, when a sweep may already have freed the entry.

Each step is one access to the entries of a chain, a lock or an unlock, an insertion, a
deletion, or `malloc` and `free`, and the steps of any number of workers interleave in
any order. What a read of a freed entry yields is left open.
-/

namespace Emilib.LockedWalks

open IntrusiveLists Messages MsgTable MsgChains

/-- Where a worker is: in the counting pass over the chain of a key, in the scan with an
entry of its own, the insertion behind it and the read of the pid of that entry, in the
signal pass, or in the loop of the sweeps, with the entry it has come to. -/
inductive Place where
  | idle
  | counting (key count : BitVec 32) (map : Option Address)
  | scanning (own : Address) (map : Option Address)
  | inserting (own : Address)
  | linking (own : Address)
  | linked (own : Address)
  | locating (own : Address)
  | waiting (key : BitVec 32)
  | signalling (key : BitVec 32) (map : Option Address)
  | testing (key : BitVec 32)
  | sweeping (key : BitVec 32) (map : Option Address)
  | deleting (key : BitVec 32) (map : Address) (tmp : Option Address)
  | freeing (key : BitVec 32) (map : Address) (tmp : Option Address)
deriving DecidableEq

/-- The message table, which addresses `malloc` has given out, who holds the table lock
for reading or for writing, and where each worker is. -/
structure Core (ι : Type) where
  table : MapTable
  allocated : Address → Bool
  readers : List ι
  writer : Option ι
  place : ι → Place

/-- A worker begins to register a process or to send, or takes its next step. `seen` is
what it reads from a freed entry, and `choice` what such an entry says of a match,
whether a receiver is gone, and whether the count is still positive. -/
inductive Action (ι : Type) where
  | register (worker : ι) (map : Address) (msg pid : BitVec 32)
  | send (worker : ι) (key : BitVec 32)
  | step (worker : ι) (seen : Option Address) (choice : Bool)
deriving DecidableEq

/-- What a step does to what the workers share. -/
inductive Call where
  | pass
  | rdlock
  | wrlock
  | unlock
  | insert (map : Address)
  | delete (map : Address)
  | free (map : Address)

/-- How a worker holds the table lock. -/
inductive Mode where
  | free
  | reading
  | writing
deriving DecidableEq

variable {ι : Type}

/-- How the table lock is held at a place. -/
def Place.mode : Place → Mode
  | .signalling .. => .reading
  | .linking _ | .linked _ | .sweeping .. | .deleting .. | .freeing .. => .writing
  | _ => .free

/-- The entry that only this worker knows of. -/
def Place.owns : Place → Option Address
  | .scanning own _ | .inserting own | .linking own => some own
  | .freeing _ map _ => some map
  | _ => none

/-- The entries of the table that a worker has come to under the lock. -/
def Place.found : Place → List Address
  | .signalling _ map | .sweeping _ map => map.toList
  | .deleting _ map tmp => map :: tmp.toList
  | .freeing _ _ tmp => tmp.toList
  | .linked own => [own]
  | _ => []

/-- The entry of the table that a worker is about to read without the lock. -/
def Place.unlocked : Place → Option Address
  | .counting _ _ map | .scanning _ map => map
  | .locating own => some own
  | _ => none

/-- The entry that a worker is about to free. -/
def Place.frees : Place → Option Address
  | .freeing _ map _ => some map
  | _ => none

/-- `pos->member.next`, as a walk without the lock reads it. -/
def Core.onward (core : Core ι) (map : Address) (seen : Option Address) : Option Address :=
  if core.allocated map then core.table.links.next map else seen

/-- The next step at a place: what it does, and the place behind it. -/
def Core.advance (core : Core ι) (seen : Option Address) (choice : Bool) :
    Place → Option (Call × Place)
  | .idle => none
  | .counting key count none => some (.pass, if count = 0 then .idle else .waiting key)
  | .counting key count (some map) =>
      let found := if core.allocated map then decide (core.table.msg map = key) else choice
      some (.pass, .counting key (if found then count + 1 else count) (core.onward map seen))
  | .scanning own none => some (.pass, .inserting own)
  | .scanning own (some map) =>
      let found :=
        if core.allocated map then decide (core.table.pid map = core.table.pid own) else choice
      some (.pass, if found then .idle else .scanning own (core.onward map seen))
  | .inserting own => some (.wrlock, .linking own)
  | .linking own => some (.insert own, .linked own)
  | .linked own => some (.unlock, .locating own)
  -- `p->pid`, which `emi_mutex_init` gets as its index
  | .locating _ => some (.pass, .idle)
  | .waiting key => some (.rdlock, .signalling key (core.table.links.first (hash32 key)))
  | .signalling key none => some (.unlock, .testing key)
  | .signalling key (some map) => some (.pass, .signalling key (core.table.links.next map))
  | .testing key =>
      if choice then some (.wrlock, .sweeping key (core.table.links.first (hash32 key)))
      else some (.pass, .idle)
  | .sweeping key none => some (.unlock, .testing key)
  | .sweeping key (some map) =>
      let tmp := core.table.links.next map
      some (.pass,
        if core.table.msg map = key ∧ choice then .deleting key map tmp else .sweeping key tmp)
  | .deleting key map tmp => some (.delete map, .freeing key map tmp)
  | .freeing key map tmp => some (.free map, .sweeping key tmp)

section Steps

variable [DecidableEq ι]

/-- Move a worker to its next place. -/
def Core.goto (core : Core ι) (worker : ι) (place : Place) : Core ι :=
  { core with place := Function.update core.place worker place }

/-- What a worker does to what the workers share, if it does not have to wait. -/
def Core.call (core : Core ι) (worker : ι) : Call → Option (Core ι)
  | .pass => some core
  | .rdlock =>
      if core.writer = none then some { core with readers := worker :: core.readers } else none
  | .wrlock =>
      if core.writer = none ∧ core.readers = [] then some { core with writer := some worker }
      else none
  | .unlock =>
      if core.writer = some worker then some { core with writer := none }
      else some { core with readers := core.readers.erase worker }
  | .insert map => some { core with table := emiHinsert core.table map }
  | .delete map => some { core with table := emiHdelete core.table map }
  | .free map => some { core with allocated := Function.update core.allocated map false }

/-- The step an action names, if it can be taken. -/
def perform (core : Core ι) : Action ι → Option (Core ι)
  | .register worker map msg pid =>
      if core.place worker = .idle ∧ core.allocated map = false then
        some ({ core with
          table := msgMapInit core.table map msg pid
          allocated := Function.update core.allocated map true }.goto worker
            (.scanning map (core.table.links.first (hash32 msg))))
      else none
  | .send worker key =>
      if core.place worker = .idle then
        some (core.goto worker (.counting key 0 (core.table.links.first (hash32 key))))
      else none
  | .step worker seen choice =>
      (core.advance seen choice (core.place worker)).bind fun next =>
        (core.call worker next.1).map fun after => after.goto worker next.2

/-- The runs from an empty table on. -/
def walking : System (Core ι) (Action ι) :=
  System.performing (fun core => (∃ memory : MapTable, (∀ map, memory.links.pprev map = none) ∧
    core.table = initMsgTableLock memory) ∧ (∀ map, core.allocated map = false) ∧
    core.readers = [] ∧ core.writer = none ∧ ∀ worker, core.place worker = .idle) perform

end Steps

/-- The entries whose memory the next step of a worker touches. -/
def Core.touches (core : Core ι) (worker : ι) : List Address :=
  match core.place worker with
  | .counting _ _ map | .signalling _ map | .sweeping _ map => map.toList
  | .scanning own map => own :: map.toList
  | .linking own => own :: (core.table.links.first (hash32 (core.table.msg own))).toList
  | .locating own => [own]
  | .deleting _ map _ => map :: ((core.table.links.next map).toList ++
      match core.table.links.pprev map with
      | some (.next prev) => [prev]
      | _ => [])
  | .freeing _ map _ => [map]
  | _ => []

/-- The next step of a worker touches no freed entry. -/
def Core.Safe (core : Core ι) (worker : ι) : Prop :=
  ∀ map ∈ core.touches worker, core.allocated map = true

/-- No entry is freed while a worker without the lock stands at it. -/
def Spared (core : Core ι) : Action ι → Prop
  | .step worker _ _ => ∀ map ∈ (core.place worker).frees, ∀ other,
      (core.place other).unlocked ≠ some map
  | .register .. | .send .. => True

section Entries

variable {table : MapTable} {entries : List Address} {map : Address}

/-- A bucket leads to an entry of the table. -/
theorem first_entry (represented : Represented ⟨table, entries⟩) {bucket : BitVec 8}
    (leads : table.links.first bucket = some map) : map ∈ entries := by
  rw [represented.links.first_node] at leads
  exact (mem_inBucket.mp (List.mem_of_mem_head? leads)).1

/-- An entry stands between the entries before and behind it in its bucket. -/
theorem entry_between (represented : Represented ⟨table, entries⟩) (member : map ∈ entries) :
    ∃ before after, Tracked.inBucket ⟨table, entries⟩ (hash32 (table.msg map)) =
        before ++ map :: after ∧ table.links.next map = after.head? ∧
      table.links.pprev map =
        some (Links.lastSlot (.first (hash32 (table.msg map))) before) := by
  have placed : map ∈ Tracked.inBucket ⟨table, entries⟩ (hash32 (table.msg map)) :=
    mem_inBucket.mpr ⟨member, rfl⟩
  obtain ⟨before, after, split⟩ := List.append_of_mem placed
  exact ⟨before, after, split, represented.links.links_at split⟩

/-- An entry leads to another entry of the table. -/
theorem next_entry (represented : Represented ⟨table, entries⟩) (member : map ∈ entries)
    {next : Address} (leads : table.links.next map = some next) :
    next ∈ entries ∧ next ≠ map := by
  obtain ⟨before, after, split, forward, _⟩ := entry_between represented member
  have distinct := represented.links.distinct (hash32 (table.msg map))
  rw [forward] at leads
  have later : next ∈ after := List.mem_of_mem_head? leads
  rw [split] at distinct
  have behind : next ∈ Tracked.inBucket ⟨table, entries⟩ (hash32 (table.msg map)) := by
    rw [split]
    exact List.mem_append_right before (List.mem_cons_of_mem map later)
  refine ⟨(mem_inBucket.mp behind).1, ?_⟩
  rintro rfl
  exact (List.nodup_cons.mp (List.nodup_append.mp distinct).2.1).1 later

/-- An entry is pointed to by a bucket or by another entry of the table. -/
theorem pprev_entry (represented : Represented ⟨table, entries⟩) (member : map ∈ entries) :
    ∃ slot, table.links.pprev map = some slot ∧ ∀ prev, slot = .next prev → prev ∈ entries := by
  obtain ⟨before, after, split, _, back⟩ := entry_between represented member
  refine ⟨_, back, ?_⟩
  intro prev leads
  rcases Links.lastSlot_cases (.first (hash32 (table.msg map))) before with
    ⟨same, _⟩ | ⟨other, inner, same⟩
  · rw [same] at leads
    cases leads
  · rw [same] at leads
    obtain rfl := Slot.next.inj leads
    have ahead : other ∈ Tracked.inBucket ⟨table, entries⟩ (hash32 (table.msg map)) := by
      rw [split]
      exact List.mem_append_left _ inner
    exact (mem_inBucket.mp ahead).1

end Entries

/-- How a call turns the table lock for the worker that makes it. -/
def Call.Turns : Call → Mode → Mode → Prop
  | .rdlock, before, after => before = .free ∧ after = .reading
  | .wrlock, before, after => before = .free ∧ after = .writing
  | .unlock, before, after => before ≠ .free ∧ after = .free
  | _, before, after => after = before

/-- Every place is behind the calls that lead to it. -/
theorem advance_turns {core : Core ι} {seen : Option Address} {choice : Bool}
    {place after : Place} {call : Call}
    (next : core.advance seen choice place = some (call, after)) :
    call.Turns place.mode after.mode := by
  cases place with
  | idle => cases next
  | counting key count map =>
    cases map with
    | none =>
      obtain ⟨rfl, rfl⟩ := Prod.mk.inj (Option.some.inj next)
      simp only [Call.Turns]
      split_ifs <;> rfl
    | some map =>
      obtain ⟨rfl, rfl⟩ := Prod.mk.inj (Option.some.inj next)
      rfl
  | scanning own map =>
    cases map with
    | none =>
      obtain ⟨rfl, rfl⟩ := Prod.mk.inj (Option.some.inj next)
      rfl
    | some map =>
      obtain ⟨rfl, rfl⟩ := Prod.mk.inj (Option.some.inj next)
      simp only [Call.Turns]
      split_ifs <;> rfl
  | inserting own | waiting key =>
    obtain ⟨rfl, rfl⟩ := Prod.mk.inj (Option.some.inj next)
    exact ⟨rfl, rfl⟩
  | linking own | locating own | deleting key map tmp | freeing key map tmp =>
    obtain ⟨rfl, rfl⟩ := Prod.mk.inj (Option.some.inj next)
    rfl
  | linked own =>
    obtain ⟨rfl, rfl⟩ := Prod.mk.inj (Option.some.inj next)
    exact ⟨nofun, rfl⟩
  | signalling key map =>
    cases map with
    | none =>
      obtain ⟨rfl, rfl⟩ := Prod.mk.inj (Option.some.inj next)
      exact ⟨nofun, rfl⟩
    | some map =>
      obtain ⟨rfl, rfl⟩ := Prod.mk.inj (Option.some.inj next)
      rfl
  | testing key =>
    cases choice with
    | false =>
      obtain ⟨rfl, rfl⟩ := Prod.mk.inj (Option.some.inj next)
      rfl
    | true =>
      obtain ⟨rfl, rfl⟩ := Prod.mk.inj (Option.some.inj next)
      exact ⟨rfl, rfl⟩
  | sweeping key map =>
    cases map with
    | none =>
      obtain ⟨rfl, rfl⟩ := Prod.mk.inj (Option.some.inj next)
      exact ⟨nofun, rfl⟩
    | some map =>
      obtain ⟨rfl, rfl⟩ := Prod.mk.inj (Option.some.inj next)
      simp only [Call.Turns]
      split_ifs <;> rfl

/-- An entry is inserted by the worker that allocated it. -/
theorem advance_insert {core : Core ι} {seen : Option Address} {choice : Bool}
    {place after : Place} {map : Address}
    (next : core.advance seen choice place = some (.insert map, after)) :
    place = .linking map ∧ after = .linked map := by
  unfold Core.advance at next
  split at next <;> grind

/-- An entry is deleted by the sweep that stands at it. -/
theorem advance_delete {core : Core ι} {seen : Option Address} {choice : Bool}
    {place after : Place} {map : Address}
    (next : core.advance seen choice place = some (.delete map, after)) :
    ∃ key tmp, place = .deleting key map tmp ∧ after = .freeing key map tmp := by
  unfold Core.advance at next
  split at next <;> grind

/-- An entry is freed by the sweep that deleted it. -/
theorem advance_free {core : Core ι} {seen : Option Address} {choice : Bool}
    {place after : Place} {map : Address}
    (next : core.advance seen choice place = some (.free map, after)) :
    ∃ key tmp, place = .freeing key map tmp ∧ after = .sweeping key tmp := by
  unfold Core.advance at next
  split at next <;> grind

/-- Where an entry is to be freed, the next step does so. -/
theorem advance_frees {core : Core ι} {seen : Option Address} {choice : Bool}
    {place after : Place} {call : Call}
    (next : core.advance seen choice place = some (call, after)) {map : Address}
    (frees : place.frees = some map) : call = .free map := by
  unfold Core.advance at next
  split at next <;> grind [Place.frees]

/-- A call that leaves the chains and the memory as they are. -/
def Call.Quiet : Call → Prop
  | .pass | .rdlock | .wrlock | .unlock => True
  | .insert _ | .delete _ | .free _ => False

/-- Who holds the table lock is where the lock is held, and a writer is alone. -/
structure Locks (core : Core ι) : Prop where
  reading : ∀ worker, (core.place worker).mode = .reading ↔ worker ∈ core.readers
  writing : ∀ worker, (core.place worker).mode = .writing ↔ core.writer = some worker
  once : core.readers.Nodup
  exclusive : core.writer ≠ none → core.readers = []

/-- The table represents its entries, and what is allocated or known to a worker agrees
with it. -/
structure Kept (core : Core ι) (entries : List Address) : Prop where
  represented : Represented ⟨core.table, entries⟩
  live : ∀ map ∈ entries, core.allocated map = true
  ended : ∀ map, core.allocated map = true → map ∉ entries → core.table.links.next map = none
  owned : ∀ worker map, (core.place worker).owns = some map →
    core.allocated map = true ∧ map ∉ entries
  apart : ∀ worker other map, (core.place worker).owns = some map →
    (core.place other).owns = some map → worker = other
  once : ∀ worker, (core.place worker).found.Nodup
  among : ∀ worker, (core.place worker).found ⊆ entries

/-- A worker that has come to an entry under the lock holds the lock. -/
theorem found_free {place : Place} (free : place.mode = .free) : place.found = [] := by
  cases place with
  | signalling key map | sweeping key map | linked map => cases free
  | deleting key map tmp | freeing key map tmp => cases free
  | _ => rfl

/-- A quiet step gives no worker an entry of its own. -/
theorem advance_owns {core : Core ι} {seen : Option Address} {choice : Bool}
    {place after : Place} {call : Call} (quiet : call.Quiet)
    (next : core.advance seen choice place = some (call, after)) {map : Address}
    (owns : after.owns = some map) : place.owns = some map := by
  unfold Core.advance at next
  split at next <;> grind [Place.owns, Call.Quiet]

/-- A quiet step leads to no entry, to the first one of a bucket, or to the one behind the
entry it was at. -/
theorem advance_found {core : Core ι} {seen : Option Address} {choice : Bool}
    {place after : Place} {call : Call} (quiet : call.Quiet)
    (next : core.advance seen choice place = some (call, after)) :
    after.found = [] ∨ (∃ bucket, after.found = (core.table.links.first bucket).toList) ∨
      ∃ map, place.found = [map] ∧ (after.found = (core.table.links.next map).toList ∨
        after.found = map :: (core.table.links.next map).toList) := by
  unfold Core.advance at next
  split at next <;> grind [Place.found, Call.Quiet]

/-- A walk without the lock goes on from the entry it was at, and whoever lets go of the
lock behind an insertion stands at the entry inserted. -/
theorem advance_unlocked {core : Core ι} {seen : Option Address} {choice : Bool}
    {place after : Place} {call : Call}
    (next : core.advance seen choice place = some (call, after)) {map : Address}
    (stands : after.unlocked = some map) :
    place.found = [map] ∨
      ∃ before, place.unlocked = some before ∧ core.onward before seen = some map := by
  unfold Core.advance at next
  split at next <;> grind [Place.unlocked, Place.found]

section Kept

variable {core : Core ι} {entries : List Address}

/-- A quiet step under the lock comes to entries of the table, each once. -/
theorem Kept.advance_quiet (kept : Kept core entries) {worker : ι} {seen : Option Address}
    {choice : Bool} {call : Call} {after : Place} (quiet : call.Quiet)
    (next : core.advance seen choice (core.place worker) = some (call, after)) :
    after.found.Nodup ∧ after.found ⊆ entries := by
  rcases advance_found quiet next with nothing | ⟨bucket, first⟩ | ⟨map, stood, behind⟩
  · rw [nothing]
    exact ⟨List.nodup_nil, List.nil_subset _⟩
  · rw [first]
    refine ⟨Option.toList_nodup _, ?_⟩
    intro map member
    exact first_entry kept.represented (Option.mem_toList.mp member)
  · have member : map ∈ entries :=
      kept.among worker (by rw [stood]; exact List.mem_singleton_self map)
    have further : (core.table.links.next map).toList ⊆ entries := by
      intro later leads
      exact (next_entry kept.represented member (Option.mem_toList.mp leads)).1
    rcases behind with only | both
    · rw [only]
      exact ⟨Option.toList_nodup _, further⟩
    · rw [both]
      refine ⟨List.nodup_cons.mpr ⟨?_, Option.toList_nodup _⟩,
        List.cons_subset.mpr ⟨member, further⟩⟩
      intro again
      exact (next_entry kept.represented member (Option.mem_toList.mp again)).2 rfl

/-- Who holds the table lock touches entries of the table and its own. -/
theorem Kept.safe (kept : Kept core entries) {worker : ι}
    (holds : (core.place worker).mode ≠ .free) : core.Safe worker := by
  have among := kept.among worker
  have owned := kept.owned worker
  have live {map : Address} (member : map ∈ entries) := kept.live map member
  intro map touched
  rw [Core.touches] at touched
  generalize core.place worker = place at holds among owned touched
  cases place with
  | signalling key start | sweeping key start => exact live (among touched)
  | linking own =>
    rcases List.mem_cons.mp touched with rfl | first
    · exact (owned map rfl).1
    · exact live (first_entry kept.represented (Option.mem_toList.mp first))
  | deleting key own tmp =>
    have member : own ∈ entries := among List.mem_cons_self
    rcases List.mem_cons.mp touched with rfl | around
    · exact live member
    · rcases List.mem_append.mp around with behind | ahead
      · exact live (next_entry kept.represented member (Option.mem_toList.mp behind)).1
      · obtain ⟨slot, back, leads⟩ := pprev_entry kept.represented member
        rw [back] at ahead
        cases slot with
        | first bucket => cases ahead
        | next prev =>
          obtain rfl := List.mem_singleton.mp ahead
          exact live (leads map rfl)
  | freeing key own tmp =>
    obtain rfl := List.mem_singleton.mp touched
    exact (owned map rfl).1
  | linked own => cases touched
  | idle | counting _ _ _ | scanning _ _ | inserting _ | locating _ | waiting _ | testing _ =>
    exact absurd rfl holds

/-- Every worker without the lock stands at an entry that is not freed. -/
def Standing (core : Core ι) : Prop :=
  ∀ worker map, (core.place worker).unlocked = some map → core.allocated map = true

/-- Only a worker without the lock may touch a freed entry. -/
theorem Kept.safe_iff (kept : Kept core entries) :
    (∀ worker, core.Safe worker) ↔ Standing core := by
  constructor
  · intro safe worker map stands
    apply safe worker map
    rw [Core.touches]
    generalize core.place worker = place at stands
    cases place with
    | counting key count start =>
      exact Option.mem_toList.mpr stands
    | scanning own start => exact List.mem_cons_of_mem own (Option.mem_toList.mpr stands)
    | locating own => exact List.mem_singleton.mpr (Option.some.inj stands).symm
    | _ => cases stands
  · intro standing worker
    by_cases free : (core.place worker).mode = .free
    · have stands := standing worker
      have owned := kept.owned worker
      intro map touched
      rw [Core.touches] at touched
      generalize core.place worker = place at free stands owned touched
      cases place with
      | counting key count start => exact stands map (Option.mem_toList.mp touched)
      | scanning own start =>
        rcases List.mem_cons.mp touched with rfl | there
        · exact (owned map rfl).1
        · exact stands map (Option.mem_toList.mp there)
      | locating own =>
        obtain rfl := List.mem_singleton.mp touched
        exact stands map rfl
      | idle | inserting _ | waiting _ | testing _ => cases touched
      | _ => cases free
    · exact kept.safe free

/-- From an entry that is not freed a walk goes on to an entry of the table, or ends. -/
theorem Kept.onward (kept : Kept core entries) {before map : Address} {seen : Option Address}
    (allocated : core.allocated before = true)
    (leads : core.onward before seen = some map) : core.allocated map = true := by
  rw [Core.onward, if_pos allocated] at leads
  by_cases member : before ∈ entries
  · exact kept.live map (next_entry kept.represented member leads).1
  · rw [kept.ended before allocated member] at leads
    cases leads

end Kept

section Preserved

variable [DecidableEq ι] {core : Core ι} {entries : List Address}

/-- Only the worker that moves changes its place. -/
theorem place_goto (core : Core ι) (worker other : ι) (place : Place) :
    (core.goto worker place).place other = if other = worker then place else core.place other :=
  Function.update_apply ..

/-- Who moves without a turn of the lock keeps its order. -/
theorem Locks.same (locks : Locks core) {mid : Core ι} (readers : mid.readers = core.readers)
    (writer : mid.writer = core.writer) (places : mid.place = core.place) {worker : ι}
    {place : Place} (mode : place.mode = (core.place worker).mode) :
    Locks (mid.goto worker place) := by
  have modes (other : ι) :
      ((mid.goto worker place).place other).mode = (core.place other).mode := by
    rw [place_goto, places]
    split_ifs with same
    · rw [mode, same]
    · rfl
  refine ⟨?_, ?_, ?_, ?_⟩
  · intro other
    rw [modes other, locks.reading other]
    exact (congrArg (other ∈ ·) readers).to_iff.symm
  · intro other
    rw [modes other, locks.writing other]
    exact (congrArg (· = some other) writer).to_iff.symm
  · exact (congrArg List.Nodup readers).to_iff.mpr locks.once
  · intro held
    exact readers.trans (locks.exclusive (by rwa [← writer]))

/-- A reader comes in beside the other readers. -/
theorem Locks.rdlock (locks : Locks core) (unheld : core.writer = none) {worker : ι}
    (free : (core.place worker).mode = .free) {place : Place} (mode : place.mode = .reading) :
    Locks ({ core with readers := worker :: core.readers }.goto worker place) := by
  have outside : worker ∉ core.readers := by
    intro member
    rw [(locks.reading worker).mpr member] at free
    cases free
  refine ⟨?_, ?_, List.nodup_cons.mpr ⟨outside, locks.once⟩, fun held => absurd unheld held⟩
  · intro other
    rw [place_goto]
    split_ifs with same
    · simp [same, mode, Core.goto]
    · rw [locks.reading other]
      simp [Core.goto, same]
  · intro other
    rw [place_goto]
    split_ifs with same
    · simp [mode, Core.goto, unheld]
    · exact locks.writing other

/-- A writer comes in alone. -/
theorem Locks.wrlock (locks : Locks core) (unheld : core.writer = none)
    (unread : core.readers = []) {worker : ι} {place : Place} (mode : place.mode = .writing) :
    Locks ({ core with writer := some worker }.goto worker place) := by
  refine ⟨?_, ?_, locks.once, fun _ => unread⟩
  · intro other
    rw [place_goto]
    split_ifs with same
    · simp [mode, Core.goto, unread]
    · exact locks.reading other
  · intro other
    rw [place_goto]
    split_ifs with same
    · simp [same, mode, Core.goto]
    · rw [locks.writing other, unheld]
      simp [Core.goto, Ne.symm same]

/-- A holder of the lock leaves it to the others. -/
theorem Locks.unlock (locks : Locks core) {worker : ι} (holds : (core.place worker).mode ≠ .free)
    {mid : Core ι} (called : core.call worker .unlock = some mid) {place : Place}
    (mode : place.mode = .free) : Locks (mid.goto worker place) := by
  by_cases writes : core.writer = some worker
  · rw [Core.call, if_pos writes] at called
    obtain rfl := Option.some.inj called
    have unread := locks.exclusive (by rw [writes]; exact Option.some_ne_none worker)
    refine ⟨?_, ?_, locks.once, fun held => absurd rfl held⟩
    · intro other
      rw [place_goto]
      split_ifs with same
      · simp [mode, Core.goto, unread]
      · exact locks.reading other
    · intro other
      rw [place_goto]
      split_ifs with same
      · simp [mode, Core.goto]
      · rw [locks.writing other, writes]
        simp [Core.goto, Ne.symm same]
  · rw [Core.call, if_neg writes] at called
    obtain rfl := Option.some.inj called
    have reads : (core.place worker).mode = .reading := by
      cases how : (core.place worker).mode with
      | free => exact absurd how holds
      | reading => rfl
      | writing => exact absurd ((locks.writing worker).mp how) writes
    refine ⟨?_, ?_, locks.once.erase worker, ?_⟩
    · intro other
      rw [place_goto]
      split_ifs with same
      · simp [same, mode, Core.goto, locks.once.mem_erase_iff]
      · rw [locks.reading other]
        simp [Core.goto, locks.once.mem_erase_iff, same]
    · intro other
      rw [place_goto]
      split_ifs with same
      · simp [same, mode, Core.goto, writes]
      · exact locks.writing other
    · intro held
      have member := (locks.reading worker).mp reads
      rw [locks.exclusive held] at member
      cases member

/-- A quiet call leaves the chains, the memory and the places as they are. -/
theorem call_quiet {call : Call} (quiet : call.Quiet) {worker : ι} {mid : Core ι}
    (called : core.call worker call = some mid) :
    mid.table = core.table ∧ mid.allocated = core.allocated ∧ mid.place = core.place := by
  cases call with
  | pass =>
    obtain rfl := Option.some.inj called
    exact ⟨rfl, rfl, rfl⟩
  | rdlock | wrlock =>
    obtain ⟨_, found⟩ := Option.ite_none_right_eq_some.mp called
    obtain rfl := Option.some.inj found
    exact ⟨rfl, rfl, rfl⟩
  | unlock =>
    rw [Core.call] at called
    split_ifs at called
    · obtain rfl := Option.some.inj called
      exact ⟨rfl, rfl, rfl⟩
    · obtain rfl := Option.some.inj called
      exact ⟨rfl, rfl, rfl⟩
  | insert map | delete map | free map => exact quiet.elim

/-- A step keeps the order of the table lock. -/
theorem Locks.advance (locks : Locks core) {worker : ι} {seen : Option Address} {choice : Bool}
    {call : Call} {place : Place} {mid : Core ι}
    (next : core.advance seen choice (core.place worker) = some (call, place))
    (called : core.call worker call = some mid) : Locks (mid.goto worker place) := by
  have turns := advance_turns next
  cases call with
  | pass | insert map | delete map | free map =>
    obtain rfl := Option.some.inj called
    exact locks.same (by rfl) (by rfl) (by rfl) turns
  | rdlock =>
    obtain ⟨unheld, found⟩ := Option.ite_none_right_eq_some.mp called
    obtain rfl := Option.some.inj found
    exact locks.rdlock unheld turns.1 turns.2
  | wrlock =>
    obtain ⟨⟨unheld, unread⟩, found⟩ := Option.ite_none_right_eq_some.mp called
    obtain rfl := Option.some.inj found
    exact locks.wrlock unheld unread turns.2
  | unlock => exact locks.unlock turns.1 called turns.2

/-- What is to be shown when one worker moves over what may have changed. -/
theorem Kept.moved (kept : Kept core entries) (mid : Core ι) (places : mid.place = core.place)
    {remaining : List Address} (represented : Represented ⟨mid.table, remaining⟩)
    (live : ∀ map ∈ remaining, mid.allocated map = true)
    (ended : ∀ map, mid.allocated map = true → map ∉ remaining → mid.table.links.next map = none)
    {worker : ι} {place : Place}
    (owned : ∀ map, place.owns = some map → mid.allocated map = true ∧ map ∉ remaining ∧
      ∀ other, other ≠ worker → (core.place other).owns ≠ some map)
    (others : ∀ other, other ≠ worker → ∀ map, (core.place other).owns = some map →
      mid.allocated map = true ∧ map ∉ remaining)
    (found : place.found.Nodup ∧ place.found ⊆ remaining)
    (among : ∀ other, other ≠ worker → (core.place other).found ⊆ remaining) :
    Kept (mid.goto worker place) remaining := by
  refine ⟨represented, live, ended, ?_, ?_, ?_, ?_⟩
  · intro other map owns
    rw [place_goto, places] at owns
    split_ifs at owns with same
    · exact ⟨(owned map owns).1, (owned map owns).2.1⟩
    · exact others other same map owns
  · intro one other map oneOwns otherOwns
    rw [place_goto, places] at oneOwns otherOwns
    split_ifs at oneOwns otherOwns with same same' same'
    · rw [same, same']
    · exact absurd otherOwns ((owned map oneOwns).2.2 other same')
    · exact absurd oneOwns ((owned map otherOwns).2.2 one same)
    · exact kept.apart one other map oneOwns otherOwns
  · intro other
    rw [place_goto, places]
    split_ifs with same
    · exact found.1
    · exact kept.once other
  · intro other
    rw [place_goto, places]
    split_ifs with same
    · exact found.2
    · exact among other same

/-- A new entry is initialized outside the table. -/
theorem Kept.register (kept : Kept core entries) {worker : ι} {map : Address}
    (fresh : core.allocated map = false) (msg pid : BitVec 32) (start : Option Address) :
    Kept ({ core with
      table := msgMapInit core.table map msg pid
      allocated := Function.update core.allocated map true }.goto worker
        (.scanning map start)) entries := by
  have absent : map ∉ entries := by
    intro member
    rw [kept.live map member] at fresh
    cases fresh
  have stays {other : Address} (allocated : core.allocated other = true) :
      Function.update core.allocated map true other = true := by
    by_cases same : other = map
    · rw [same, Function.update_self]
    · rw [Function.update_of_ne same, allocated]
  apply kept.moved { core with
    table := msgMapInit core.table map msg pid
    allocated := Function.update core.allocated map true } rfl
    (kept.represented.init absent msg pid)
  · exact fun other member => stays (kept.live other member)
  · intro other allocated outside
    by_cases same : other = map
    · rw [same]
      exact Function.update_self ..
    · have before : core.allocated other = true :=
        (Function.update_of_ne same ..).symm.trans allocated
      exact (Function.update_of_ne same ..).trans (kept.ended other before outside)
  · intro own owns
    obtain rfl := Option.some.inj owns
    refine ⟨Function.update_self .., absent, ?_⟩
    intro other _ owns
    rw [(kept.owned other map owns).1] at fresh
    cases fresh
  · intro other _ own owns
    exact ⟨stays (kept.owned other own owns).1, (kept.owned other own owns).2⟩
  · exact ⟨List.nodup_nil, List.nil_subset _⟩
  · exact fun other _ => kept.among other

/-- A count begins outside the lock. -/
theorem Kept.send (kept : Kept core entries) {worker : ι} (key count : BitVec 32)
    (start : Option Address) : Kept (core.goto worker (.counting key count start)) entries := by
  apply kept.moved core rfl kept.represented kept.live kept.ended
  · intro own owns
    cases owns
  · exact fun other _ => kept.owned other
  · exact ⟨List.nodup_nil, List.nil_subset _⟩
  · exact fun other _ => kept.among other

/-- A quiet step changes what one worker knows. -/
theorem Kept.quiet (kept : Kept core entries) {worker : ι} {seen : Option Address}
    {choice : Bool} {call : Call} {place : Place} {mid : Core ι} (quiet : call.Quiet)
    (next : core.advance seen choice (core.place worker) = some (call, place))
    (called : core.call worker call = some mid) : Kept (mid.goto worker place) entries := by
  obtain ⟨table, allocated, places⟩ := call_quiet quiet called
  apply kept.moved mid places
  · rw [table]
    exact kept.represented
  · rw [allocated]
    exact kept.live
  · rw [allocated, table]
    exact kept.ended
  · intro map owns
    have before := advance_owns quiet next owns
    rw [allocated]
    refine ⟨(kept.owned worker map before).1, (kept.owned worker map before).2, ?_⟩
    exact fun other different owns => different (kept.apart other worker map owns before)
  · intro other _
    rw [allocated]
    exact kept.owned other
  · exact kept.advance_quiet quiet next
  · exact fun other _ => kept.among other

/-- An inserted entry is the table's, and nobody's own. -/
theorem Kept.insert (kept : Kept core entries) {worker : ι} {map : Address}
    (stands : core.place worker = .linking map) :
    Kept ({ core with table := emiHinsert core.table map }.goto worker (.linked map))
      (map :: entries) := by
  have owns : (core.place worker).owns = some map := by
    rw [stands]
    rfl
  obtain ⟨allocated, absent⟩ := kept.owned worker map owns
  apply kept.moved { core with table := emiHinsert core.table map } rfl
    (kept.represented.insert absent)
  · intro other member
    rcases List.mem_cons.mp member with rfl | member
    · exact allocated
    · exact kept.live other member
  · intro other allocated outside
    obtain ⟨different, outside⟩ := not_or.mp (mt List.mem_cons.mpr outside)
    have loaded := Links.load_addHead core.table.links map (hash32 (core.table.msg map))
      (.next other)
    have away : Slot.next other ≠ .first (hash32 (core.table.msg map)) := by
      intro same
      cases same
    rw [if_neg away, if_neg (fun same => different (Slot.next.inj same))] at loaded
    exact loaded.trans (kept.ended other allocated outside)
  · intro own owns
    cases owns
  · intro other different own otherOwns
    obtain ⟨otherAllocated, outside⟩ := kept.owned other own otherOwns
    refine ⟨otherAllocated, ?_⟩
    intro member
    rcases List.mem_cons.mp member with rfl | member
    · exact different (kept.apart other worker own otherOwns owns)
    · exact outside member
  · exact ⟨List.nodup_singleton map, List.cons_subset.mpr ⟨List.mem_cons_self, List.nil_subset _⟩⟩
  · exact fun other _ => List.Subset.trans (kept.among other) (List.subset_cons_self map entries)

/-- A deleted entry is the own one of the sweep that deleted it, for no other worker has
come to an entry under the lock. -/
theorem Kept.delete (kept : Kept core entries) (locks : Locks core) {worker : ι}
    {key : BitVec 32} {map : Address} {tmp : Option Address}
    (stands : core.place worker = .deleting key map tmp) :
    Kept ({ core with table := emiHdelete core.table map }.goto worker (.freeing key map tmp))
      (entries.erase map) := by
  have once := kept.once worker
  have among := kept.among worker
  rw [stands] at once among
  obtain ⟨apart, tmpOnce⟩ := List.nodup_cons.mp once
  obtain ⟨member, tmpAmong⟩ := List.cons_subset.mp among
  have distinct := kept.represented.once
  have alone (other : ι) (different : other ≠ worker) : (core.place other).found = [] := by
    have held : core.writer = some worker := (locks.writing worker).mp (by rw [stands]; rfl)
    apply found_free
    cases how : (core.place other).mode with
    | free => rfl
    | reading =>
      have reads := (locks.reading other).mp how
      rw [locks.exclusive (by rw [held]; exact Option.some_ne_none worker)] at reads
      cases reads
    | writing =>
      have writes := (locks.writing other).mp how
      exact absurd (Option.some.inj (writes.symm.trans held)) different
  apply kept.moved { core with table := emiHdelete core.table map } rfl
    (kept.represented.delete map)
  · exact fun other inside => kept.live other (List.mem_of_mem_erase inside)
  · intro other allocated outside
    obtain ⟨slot, back, ahead⟩ := pprev_entry kept.represented member
    have loaded := Links.load_delInit back (.next other)
    by_cases same : other = map
    · rw [same] at loaded ⊢
      exact loaded.trans (if_pos rfl)
    · have absent : other ∉ entries := fun inside =>
        outside ((List.mem_erase_of_ne same).mpr inside)
      have away : Slot.next other ≠ slot := fun points => absent (ahead other points.symm)
      rw [if_neg (fun points => same (Slot.next.inj points)), if_neg away] at loaded
      exact loaded.trans (kept.ended other allocated absent)
  · intro own owns
    obtain rfl := Option.some.inj owns
    refine ⟨kept.live map member, distinct.not_mem_erase, ?_⟩
    intro other _ owns
    exact (kept.owned other map owns).2 member
  · intro other _ own owns
    obtain ⟨allocated, outside⟩ := kept.owned other own owns
    exact ⟨allocated, fun inside => outside (List.mem_of_mem_erase inside)⟩
  · refine ⟨tmpOnce, ?_⟩
    intro later leads
    have different : later ≠ map := by
      rintro rfl
      exact apart leads
    exact (List.mem_erase_of_ne different).mpr (tmpAmong leads)
  · intro other different
    rw [alone other different]
    exact List.nil_subset _

/-- A freed entry is nobody's. -/
theorem Kept.free (kept : Kept core entries) {worker : ι} {key : BitVec 32} {map : Address}
    {tmp : Option Address} (stands : core.place worker = .freeing key map tmp) :
    Kept ({ core with allocated := Function.update core.allocated map false }.goto worker
      (.sweeping key tmp)) entries := by
  have owns : (core.place worker).owns = some map := by
    rw [stands]
    rfl
  have absent := (kept.owned worker map owns).2
  have stays {other : Address} (different : other ≠ map) (allocated : core.allocated other = true) :
      Function.update core.allocated map false other = true := by
    rw [Function.update_of_ne different, allocated]
  apply kept.moved { core with allocated := Function.update core.allocated map false } rfl
    kept.represented
  · intro other member
    refine stays ?_ (kept.live other member)
    rintro rfl
    exact absent member
  · intro other allocated outside
    by_cases same : other = map
    · have freed : Function.update core.allocated map false other = true := allocated
      rw [same, Function.update_self] at freed
      cases freed
    · have before : core.allocated other = true :=
        (Function.update_of_ne same ..).symm.trans allocated
      exact kept.ended other before outside
  · intro own owns
    cases owns
  · intro other different own otherOwns
    refine ⟨stays ?_ (kept.owned other own otherOwns).1, (kept.owned other own otherOwns).2⟩
    rintro rfl
    exact different (kept.apart other worker own otherOwns owns)
  · have once := kept.once worker
    have among := kept.among worker
    rw [stands] at once among
    exact ⟨once, among⟩
  · exact fun other _ => kept.among other

/-- A step of a worker keeps what is known of the entries. -/
theorem Kept.advance (kept : Kept core entries) (locks : Locks core) {worker : ι}
    {seen : Option Address} {choice : Bool} {call : Call} {place : Place} {mid : Core ι}
    (next : core.advance seen choice (core.place worker) = some (call, place))
    (called : core.call worker call = some mid) :
    ∃ remaining, Kept (mid.goto worker place) remaining := by
  cases call with
  | pass | rdlock | wrlock | unlock =>
    exact ⟨entries, kept.quiet (by trivial) next called⟩
  | insert map =>
    obtain ⟨stands, rfl⟩ := advance_insert next
    obtain rfl := Option.some.inj called
    exact ⟨map :: entries, kept.insert stands⟩
  | delete map =>
    obtain ⟨key, tmp, stands, rfl⟩ := advance_delete next
    obtain rfl := Option.some.inj called
    exact ⟨entries.erase map, kept.delete locks stands⟩
  | free map =>
    obtain ⟨key, tmp, stands, rfl⟩ := advance_free next
    obtain rfl := Option.some.inj called
    exact ⟨entries, kept.free stands⟩

/-- What the workers can do. -/
inductive Moves (core : Core ι) : Action ι → Core ι → Prop
  | register {worker : ι} {map : Address} {msg pid : BitVec 32}
      (rests : core.place worker = .idle) (fresh : core.allocated map = false) :
      Moves core (.register worker map msg pid) ({ core with
        table := msgMapInit core.table map msg pid
        allocated := Function.update core.allocated map true }.goto worker
          (.scanning map (core.table.links.first (hash32 msg))))
  | send {worker : ι} {key : BitVec 32} (rests : core.place worker = .idle) :
      Moves core (.send worker key)
        (core.goto worker (.counting key 0 (core.table.links.first (hash32 key))))
  | step {worker : ι} {seen : Option Address} {choice : Bool} {call : Call} {place : Place}
      {mid : Core ι} (next : core.advance seen choice (core.place worker) = some (call, place))
      (called : core.call worker call = some mid) :
      Moves core (.step worker seen choice) (mid.goto worker place)

theorem perform_moves {action : Action ι} {after : Core ι}
    (taken : perform core action = some after) : Moves core action after := by
  cases action with
  | register worker map msg pid =>
    obtain ⟨⟨rests, fresh⟩, found⟩ := Option.ite_none_right_eq_some.mp taken
    obtain rfl := Option.some.inj found
    exact .register rests fresh
  | send worker key =>
    obtain ⟨rests, found⟩ := Option.ite_none_right_eq_some.mp taken
    obtain rfl := Option.some.inj found
    exact .send rests
  | step worker seen choice =>
    obtain ⟨⟨call, place⟩, next, moved⟩ := Option.bind_eq_some_iff.mp taken
    obtain ⟨mid, called, rfl⟩ := Option.map_eq_some_iff.mp moved
    exact .step next called

/-- In every run the lock and the entries are in order. -/
theorem reached_kept {guard : Core ι → Action ι → Prop}
    (reached : walking.ReachedUnder guard core) : Locks core ∧ ∃ entries, Kept core entries := by
  apply reached.invariant
  · rintro state ⟨⟨memory, nodes, initialized⟩, unallocated, unread, unheld, rest⟩
    refine ⟨⟨?_, ?_, ?_, fun _ => unread⟩, [], ?_, ?_, ?_, ?_, ?_, ?_, ?_⟩
    · intro worker
      rw [rest worker, unread]
      exact iff_of_false (by intro mode; cases mode) List.not_mem_nil
    · intro worker
      rw [rest worker, unheld]
      exact iff_of_false (by intro mode; cases mode) (Option.some_ne_none worker).symm
    · rw [unread]
      exact List.nodup_nil
    · exact initial_represented ⟨rfl, memory, nodes, initialized⟩
    · intro map member
      cases member
    · intro map allocated
      rw [unallocated map] at allocated
      cases allocated
    · intro worker map owns
      rw [rest worker] at owns
      cases owns
    · intro worker other map owns
      rw [rest worker] at owns
      cases owns
    · intro worker
      rw [rest worker]
      exact List.nodup_nil
    · intro worker
      rw [rest worker]
      exact List.nil_subset _
  · rintro before action after ⟨locks, entries, kept⟩ _ taken
    cases perform_moves taken with
    | register rests fresh =>
      refine ⟨locks.same (by rfl) (by rfl) (by rfl) ?_, entries, kept.register fresh _ _ _⟩
      rw [rests]
      rfl
    | send rests =>
      refine ⟨locks.same rfl rfl rfl ?_, entries, kept.send _ _ _⟩
      rw [rests]
      rfl
    | step next called => exact ⟨locks.advance next called, kept.advance locks next called⟩

/-- A call other than `free` frees nothing, and moves nobody. -/
theorem call_frees {call : Call} (keeps : ∀ map, call ≠ .free map) {worker : ι} {mid : Core ι}
    (called : core.call worker call = some mid) :
    mid.allocated = core.allocated ∧ mid.place = core.place := by
  cases call with
  | pass | rdlock | wrlock | unlock => exact (call_quiet (by trivial) called).2
  | insert map | delete map =>
    obtain rfl := Option.some.inj called
    exact ⟨rfl, rfl⟩
  | free map => exact absurd rfl (keeps map)

/-- A worker stays at entries that are not freed while nothing is freed. -/
theorem Standing.moved (standing : Standing core) {mid : Core ι} (places : mid.place = core.place)
    (stays : ∀ map, core.allocated map = true → mid.allocated map = true) {worker : ι}
    {place : Place} (own : ∀ map, place.unlocked = some map → core.allocated map = true) :
    Standing (mid.goto worker place) := by
  intro other map stands
  rw [place_goto, places] at stands
  split_ifs at stands with same
  · exact stays map (own map stands)
  · exact stays map (standing other map stands)

/-- A step leaves every worker without the lock at an entry that is not freed, just when it
frees none under such a worker. -/
theorem Kept.standing_iff (kept : Kept core entries) (standing : Standing core)
    {action : Action ι} {after : Core ι} (moves : Moves core action after) :
    Standing after ↔ Spared core action := by
  have first (bucket : BitVec 8) {map : Address}
      (leads : core.table.links.first bucket = some map) : core.allocated map = true :=
    kept.live map (first_entry kept.represented leads)
  cases moves with
  | @register worker map msg pid rests fresh =>
    refine iff_of_true (standing.moved (by rfl) ?_ fun _ => first (hash32 msg)) trivial
    intro other allocated
    by_cases same : other = map
    · rw [same]
      exact Function.update_self ..
    · exact (Function.update_of_ne same ..).trans allocated
  | @send worker key rests =>
    exact iff_of_true (standing.moved rfl (fun _ => id) fun _ => first (hash32 key)) trivial
  | @step worker seen choice call place mid next called =>
    by_cases frees : ∃ map, call = .free map
    · obtain ⟨map, rfl⟩ := frees
      obtain ⟨key, tmp, stands, rfl⟩ := advance_free next
      obtain rfl := Option.some.inj called
      constructor
      · intro stays freed here other there
        have same : freed = map := by
          rw [stands] at here
          exact (Option.some.inj here).symm
        have apart : other ≠ worker := by
          rintro rfl
          rw [stands] at there
          cases there
        have moved := stays other map
        rw [place_goto, if_neg apart] at moved
        have kept : Function.update core.allocated map false map = true :=
          moved (same ▸ there)
        rw [Function.update_self] at kept
        cases kept
      · intro spared other there stays
        rw [place_goto] at stays
        split_ifs at stays with same
        · cases stays
        · have apart : there ≠ map := by
            rintro rfl
            exact spared there (by rw [stands]; rfl) other stays
          exact (Function.update_of_ne apart ..).trans (standing other there stays)
    · have keeps : ∀ map, call ≠ .free map := fun map same => frees ⟨map, same⟩
      obtain ⟨allocated, places⟩ := call_frees keeps called
      refine iff_of_true (standing.moved places (by simp [allocated]) ?_) ?_
      · intro map stands
        rcases advance_unlocked next stands with inserted | ⟨before, there, leads⟩
        · have member : map ∈ (core.place worker).found := by
            rw [inserted]
            exact List.mem_singleton_self map
          exact kept.live map (kept.among worker member)
        · exact kept.onward (standing worker before there) leads
      · intro map freed
        exact absurd (advance_frees next freed) (keeps map)

/-- In a run without such a step, every worker without the lock stands at an entry that is
not freed. -/
theorem reached_standing (reached : walking.ReachedUnder Spared core) : Standing core := by
  induction reached with
  | initial state starts =>
    intro worker map stands
    rw [starts.2.2.2.2 worker] at stands
    cases stands
  | next before after action reached allowed taken inductionHypothesis =>
    obtain ⟨_, entries, kept⟩ := reached_kept reached
    exact (kept.standing_iff inductionHypothesis (perform_moves taken)).mpr allowed

/-- In every state that any number of workers reaches, in any order of their steps, the
table is a faithful multimap of entries that are not freed, and no worker that holds the
table lock touches a freed entry.

Proof: by `reached_kept`; a writer deletes and frees alone, so that no other holder of the
lock has come to an entry that leaves the table. -/
theorem locked_walks_safe (core : Core ι) (reached : walking.Reached core) :
    (∃ entries, FaithfulMap ⟨core.table, entries⟩ ∧
      ∀ map ∈ entries, core.allocated map = true) ∧
      ∀ worker, (core.place worker).mode ≠ .free → core.Safe worker := by
  obtain ⟨_, entries, kept⟩ := reached_kept reached
  exact ⟨⟨entries, kept.represented.faithful, kept.live⟩, fun _ => kept.safe⟩

/-- In a run that frees no entry under a worker without the lock, in a walk or before the
read of the pid behind its insertion, no worker touches a freed entry; and the next step is
the first behind which one does just when it frees an entry under such a worker.

Proof: by `Kept.standing_iff`; a walk goes on from an entry of the table to another, and
ends behind one that was deleted and not yet freed, and an entry is in the table when the
worker that inserted it lets go of the lock. -/
theorem walks_safe_iff (core : Core ι) (reached : walking.ReachedUnder Spared core) :
    (∀ worker, core.Safe worker) ∧ ∀ action after, walking.step core action after →
      ((∀ worker, after.Safe worker) ↔ Spared core action) := by
  obtain ⟨_, entries, kept⟩ := reached_kept reached
  have standing := reached_standing reached
  refine ⟨kept.safe_iff.mpr standing, ?_⟩
  intro action after taken
  have moves := perform_moves taken
  have extended : walking.Reached after :=
    System.Reached.next (reached.weaken fun _ _ _ => trivial) taken
  obtain ⟨_, remaining, follows⟩ := reached_kept extended
  exact follows.safe_iff.trans (kept.standing_iff standing moves)

end Preserved

instance [Fintype ι] (core : Core ι) (action : Action ι) : Decidable (Spared core action) :=
  match action with
  | .step worker _ _ => Option.decidableForallMem (core.place worker).frees
  | .register .. | .send .. => isTrue trivial

/-- Two workers that rest beside an empty table, in memory that holds nothing. -/
def quietCore : Core Bool where
  table := ⟨⟨fun _ => none, fun _ => none, fun _ => none⟩, fun _ => 0, fun _ => 0⟩
  allocated _ := false
  readers := []
  writer := none
  place _ := .idle

/-- One worker registers a process, the other one sends to it, finds it gone and comes to
free its entry. Meanwhile the first one counts for another send. -/
def sweptWhileCounted : List (Action Bool) :=
  .register false 16 1 7 :: List.replicate 5 (.step false none false) ++
    .send true 1 :: List.replicate 5 (.step true none false) ++
    .send false 1 :: List.replicate 3 (.step true none true)

/-- Heads that are empty already stay as they are. -/
theorem initHeads_same (heads : List (BitVec 8)) {links : Links (BitVec 8) Address}
    (empty : ∀ head, links.first head = none) : heads.foldl initHlistHead links = links := by
  induction heads with
  | nil => rfl
  | cons head rest inductionHypothesis =>
    have same : initHlistHead links head = links := by
      have kept : Function.update links.first head none = links.first := by
        rw [← empty head]
        exact Function.update_eq_self head links.first
      simp only [initHlistHead, Links.initHead, Links.store, kept]
    rw [List.foldl_cons, same, inductionHypothesis]

theorem quietCore_starts : walking.start quietCore := by
  refine ⟨⟨quietCore.table, fun _ => rfl, ?_⟩, fun _ => rfl, rfl, rfl, fun _ => rfl⟩
  rw [initMsgTableLock, initHeads_same buckets fun _ => rfl]

/-- The state behind these steps. -/
@[irreducible] def sweptCore : Core Bool :=
  (System.follow perform Spared quietCore sweptWhileCounted).get (by decide +kernel)

theorem sweptCore_reached : walking.ReachedUnder Spared sweptCore := by
  have completed : System.follow perform Spared quietCore sweptWhileCounted = some sweptCore := by
    unfold sweptCore
    exact (Option.some_get _).symm
  exact System.follow_reached sweptWhileCounted (.initial quietCore quietCore_starts) completed

theorem swept_holders_safe : (∃ entries, FaithfulMap ⟨sweptCore.table, entries⟩ ∧
    ∀ map ∈ entries, sweptCore.allocated map = true) ∧
    ∀ worker, (sweptCore.place worker).mode ≠ .free → sweptCore.Safe worker :=
  locked_walks_safe sweptCore (sweptCore_reached.weaken fun _ _ _ => trivial)

theorem swept_walks_safe_iff : (∀ worker, sweptCore.Safe worker) ∧
    ∀ (action : Action Bool) after, walking.step sweptCore action after →
      ((∀ worker, after.Safe worker) ↔ Spared sweptCore action) :=
  walks_safe_iff sweptCore sweptCore_reached

/-- The next step frees the entry that the first worker counts at. -/
example : (System.follow perform (fun _ _ => True) quietCore
    (sweptWhileCounted ++ [.step true none true])).any (fun core =>
      (core.place false).unlocked = some 16 ∧ core.allocated 16 = false) = true := by decide +kernel

/-- One worker registers a process and lets go of the lock, and the other one frees the new
entry before the first one reads its pid. -/
example : (System.follow perform (fun _ _ => True) quietCore
    (.register false 16 1 7 :: List.replicate 4 (.step false none false) ++
      .send true 1 :: List.replicate 5 (.step true none false) ++
      List.replicate 4 (.step true none true))).any (fun core =>
      core.place false = .locating 16 ∧ core.allocated 16 = false) = true := by decide +kernel

end Emilib.LockedWalks
