import Mathlib.Data.Fintype.Basic
import Emilib.CountDown
import Emilib.MsgTable
import Emilib.Runs

/-!
# The passes of concurrent sends over the message table

A worker of `emi_core` that handles a send walks the entries of its msg three
times: it counts them without a lock, signals them under the read lock, and in
its wait loop removes those of dead processes under the write lock. Other workers
insert entries and handle sends at the same time. Each walk and each insertion is
one step; the scan that precedes an insertion is a step of its own.

A receiver is signalled through its entry. While its process lives it decrements
the count of that send once; the sweep of the send decrements it for every entry
it removes. The transfer of the offset is part of the signal pass.

Of a send this records what it counted and visited, its count, and the entries
whose receivers are to decrement it. A sweep is the pass of a wait loop whose
single steps are those of one send; both subtract the same parties when no
receiver steps in between.
-/

namespace Emilib.TablePasses

open CountDown MsgTable

/-- Where a send is: past its counting pass, at the test of its wait loop, at its
sweep, or past the wait loop. -/
inductive Phase where
  | counted
  | waiting
  | sweeping
  | left
deriving DecidableEq, Repr

/-- A send after its counting pass. -/
structure Send where
  msg : BitVec 32
  counted : List MsgMap
  visited : List MsgMap
  tally : Tally 32 MsgMap
  handling : List MsgMap
  phase : Phase

/-- What a worker is doing. -/
inductive Worker where
  | idle
  | scanning (msg pid : BitVec 32)
  | inserting (msg pid : BitVec 32)
  | counting (msg : BitVec 32)
  | sending (send : Send)

/-- The send a worker handles, once it has counted. -/
def Worker.send : Worker → Option Send
  | .sending send => some send
  | .idle | .scanning .. | .inserting .. | .counting _ => none

/-- The table, the processes that `kill(pid, 0)` finds, and the workers. -/
structure Core (ι : Type) where
  table : Table
  alive : BitVec 32 → Bool
  worker : ι → Worker

/-- The entries of this msg whose process is dead. -/
def dead (table : Table) (alive : BitVec 32 → Bool) (msg : BitVec 32) : List MsgMap :=
  (entriesOf table msg).filter fun map => !alive map.pid

/-- The counting pass, and the branch on its result. -/
def count (table : Table) (msg : BitVec 32) : Send :=
  let entries := entriesOf table msg
  let count : BitVec 32 := countUp entries 0
  { msg := msg, counted := entries, visited := [], tally := ⟨count, []⟩, handling := []
    phase := if count ≠ 0 then .counted else .left }

/-- The signal pass. -/
def signal (table : Table) (alive : BitVec 32 → Bool) (send : Send) : Send :=
  { send with
    visited := entriesOf table send.msg
    handling := (entriesOf table send.msg).filter fun map => alive map.pid
    phase := .waiting }

/-- The loop of a sweep over these entries. -/
def sweep (alive : BitVec 32 → Bool) :
    List MsgMap → Table → Tally 32 MsgMap → Table × Tally 32 MsgMap
  | [], table, tally => (table, tally)
  | map :: rest, table, tally =>
      if alive map.pid then sweep alive rest table tally
      else sweep alive rest (emiHdelete table map) (tally.subtract map)

variable {ι : Type}

section Steps

variable [DecidableEq ι]

def Core.moveTo (core : Core ι) (worker : ι) (next : Worker) : Core ι :=
  { core with worker := Function.update core.worker worker next }

/-- The next step of a worker. -/
def work (core : Core ι) (worker : ι) : Option (Core ι) :=
  match core.worker worker with
  | .idle => none
  | .scanning msg pid =>
      if scanRefuses core.table msg pid then some (core.moveTo worker .idle)
      else some (core.moveTo worker (.inserting msg pid))
  | .inserting msg pid =>
      some ({ core with table := emiHinsert core.table msg pid }.moveTo worker .idle)
  | .counting msg => some (core.moveTo worker (.sending (count core.table msg)))
  | .sending send =>
      match send.phase with
      | .counted => some (core.moveTo worker (.sending (signal core.table core.alive send)))
      | .waiting =>
          let next : Phase := if send.tally.count = 0 then .left else .sweeping
          some (core.moveTo worker (.sending { send with phase := next }))
      | .sweeping =>
          let swept := sweep core.alive (entriesOf core.table send.msg) core.table send.tally
          some ({ core with table := swept.1 }.moveTo worker
            (.sending { send with tally := swept.2, phase := .waiting }))
      | .left => some (core.moveTo worker .idle)

/-- A request given to an idle worker, a step of a worker, the decrement of a
receiver, or the exit of a process. -/
inductive Action (ι : Type) where
  | register (worker : ι) (msg pid : BitVec 32)
  | send (worker : ι) (msg : BitVec 32)
  | work (worker : ι)
  | decrement (worker : ι) (map : MsgMap)
  | exit (pid : BitVec 32)
deriving DecidableEq

/-- The step an action names, if it can be taken. -/
def perform (core : Core ι) : Action ι → Option (Core ι)
  | .register worker msg pid =>
      match core.worker worker with
      | .idle => some (core.moveTo worker (.scanning msg pid))
      | _ => none
  | .send worker msg =>
      match core.worker worker with
      | .idle => some (core.moveTo worker (.counting msg))
      | _ => none
  | .work worker => work core worker
  | .decrement worker map =>
      match core.worker worker with
      | .sending send =>
          if map ∈ send.handling ∧ core.alive map.pid then
            some (core.moveTo worker (.sending { send with
              tally := send.tally.subtract map
              handling := send.handling.erase map }))
          else none
      | _ => none
  | .exit pid => some { core with alive := Function.update core.alive pid false }

/-- The runs of `emi_core` from an empty table, whatever processes there are. -/
def serving (ι : Type) [DecidableEq ι] : System (Core ι) (Action ι) :=
  System.performing (fun core => core.table = initMsgTable ∧ ∀ worker, core.worker worker = .idle)
    perform

end Steps

/-- The passes of a send agree. It visited what it counted; its count reads how
many of those entries were not subtracted; each of these is still in the table
for its sweep to find, and as long as the process lives its receiver has yet to
decrement the count; none remains when the send leaves its wait loop. -/
structure Agrees (core : Core ι) (send : Send) : Prop where
  visited : send.phase ≠ .counted → send.visited = send.counted
  balanced : Balanced send.counted send.tally
  outstanding : send.phase ≠ .counted → ∀ map ∈ send.counted, map ∉ send.tally.subtracted →
    map ∈ entriesOf core.table send.msg ∧ (core.alive map.pid = true → map ∈ send.handling)
  settled : send.phase = .left → ∀ map ∈ send.counted, map ∈ send.tally.subtracted

/-- The passes of every send agree. -/
def PassesAgree (core : Core ι) : Prop :=
  ∀ worker, ∀ send ∈ (core.worker worker).send, Agrees core send

/-- The sweep of this send may remove the entry: the send counted it and has not
subtracted it, and no other send of the msg is between its counting and its
signal pass or has yet to subtract the entry. -/
def MayRemove (core : Core ι) (worker : ι) (send : Send) (map : MsgMap) : Prop :=
  map ∈ send.counted ∧ map ∉ send.tally.subtracted ∧
    ∀ other, other ≠ worker → ∀ concurrent ∈ (core.worker other).send, concurrent.msg = send.msg →
      concurrent.phase ≠ .counted ∧
        (map ∈ concurrent.counted → map ∈ concurrent.tally.subtracted)

/-- The next step of this worker disturbs no send: a counting pass that does not
wrap the count, an insertion while no send of the msg is between its counting and
its signal pass, or a sweep that may remove every entry it removes. -/
def Undisturbing (core : Core ι) (worker : ι) : Worker → Prop
  | .counting msg => (entriesOf core.table msg).length < 2 ^ 32
  | .inserting msg _ => ∀ other, ∀ send ∈ (core.worker other).send,
      send.msg = msg → send.phase ≠ .counted
  | .sending send => send.phase = .sweeping →
      ∀ map ∈ dead core.table core.alive send.msg, MayRemove core worker send map
  | .idle | .scanning .. => True

/-- The step of this action disturbs no send. -/
def Undisturbed (core : Core ι) : Action ι → Prop
  | .work worker => Undisturbing core worker (core.worker worker)
  | .register .. | .send .. | .decrement .. | .exit _ => True

instance (core : Core ι) (send : Send) : Decidable (Agrees core send) :=
  decidable_of_iff
    ((send.phase ≠ .counted → send.visited = send.counted) ∧ Balanced send.counted send.tally ∧
      (send.phase ≠ .counted → ∀ map ∈ send.counted, map ∉ send.tally.subtracted →
        map ∈ entriesOf core.table send.msg ∧ (core.alive map.pid = true → map ∈ send.handling)) ∧
      (send.phase = .left → ∀ map ∈ send.counted, map ∈ send.tally.subtracted))
    ⟨fun ⟨visited, balanced, outstanding, settled⟩ => ⟨visited, balanced, outstanding, settled⟩,
      fun agrees => ⟨agrees.visited, agrees.balanced, agrees.outstanding, agrees.settled⟩⟩

instance [Fintype ι] (core : Core ι) : Decidable (PassesAgree core) :=
  inferInstanceAs (Decidable (∀ _, ∀ _ ∈ _, _))

instance [Fintype ι] [DecidableEq ι] (core : Core ι) (worker : ι) (send : Send) (map : MsgMap) :
    Decidable (MayRemove core worker send map) :=
  inferInstanceAs (Decidable (_ ∧ _ ∧ ∀ _, _ → ∀ _ ∈ _, _ → _ ∧ (_ → _)))

instance [Fintype ι] [DecidableEq ι] (core : Core ι) (worker : ι) (place : Worker) :
    Decidable (Undisturbing core worker place) :=
  match place with
  | .counting _ => inferInstanceAs (Decidable (_ < _))
  | .inserting _ _ => inferInstanceAs (Decidable (∀ _, ∀ _ ∈ _, _ → _ ≠ _))
  | .sending _ => inferInstanceAs (Decidable (_ → ∀ _ ∈ _, MayRemove ..))
  | .idle | .scanning _ _ => .isTrue trivial

instance [Fintype ι] [DecidableEq ι] (core : Core ι) (action : Action ι) :
    Decidable (Undisturbed core action) :=
  match action with
  | .work _ => inferInstanceAs (Decidable (Undisturbing ..))
  | .register .. | .send .. | .decrement .. | .exit _ => .isTrue trivial

/-- The invariant of a send in an undisturbed run. Until its signal pass the
entries it counted are those of the table, and nobody handles its message; after
it, a handler that will still decrement the count belongs to a counted entry that
was not subtracted. -/
structure Sound (core : Core ι) (send : Send) : Prop extends Agrees core send where
  listed : send.phase = .counted → send.counted = entriesOf core.table send.msg ∧
    send.tally.subtracted = [] ∧ send.handling = []
  handled : send.handling.Nodup
  handlers : ∀ map ∈ send.handling, map ∈ send.counted ∧
    (core.alive map.pid = true → map ∉ send.tally.subtracted)

/-- Every send is sound. -/
def AllSound (core : Core ι) : Prop :=
  ∀ worker, ∀ send ∈ (core.worker worker).send, Sound core send

theorem sweep_tally (alive : BitVec 32 → Bool) (entries : List MsgMap) (table : Table)
    (tally : Tally 32 MsgMap) : (sweep alive entries table tally).2 =
      tally.subtractAll (entries.filter fun map => !alive map.pid) := by
  induction entries generalizing table tally with
  | nil => rfl
  | cons map rest inductionHypothesis =>
    cases found : alive map.pid <;> simp [sweep, found, inductionHypothesis, Tally.subtractAll]

/-- A sweep of entries for another msg is not noticed. -/
theorem sweep_other (alive : BitVec 32 → Bool) (entries : List MsgMap) (table : Table)
    (tally : Tally 32 MsgMap) {msg : BitVec 32} (other : ∀ map ∈ entries, map.msg ≠ msg) :
    entriesOf (sweep alive entries table tally).1 msg = entriesOf table msg := by
  induction entries generalizing table tally with
  | nil => rfl
  | cons map rest inductionHypothesis =>
    obtain ⟨different, others⟩ := List.forall_mem_cons.mp other
    cases found : alive map.pid with
    | true => simp [sweep, found, inductionHypothesis _ _ others]
    | false => simp [sweep, found, inductionHypothesis _ _ others, entriesOf_delete_other different]

/-- A sweep removes the entries of dead processes and no others. -/
theorem mem_sweep (alive : BitVec 32 → Bool) (entries : List MsgMap) (table : Table)
    (tally : Tally 32 MsgMap) {msg : BitVec 32} {map : MsgMap} :
    map ∈ entriesOf (sweep alive entries table tally).1 msg ↔
      ¬ (map ∈ entries ∧ alive map.pid = false) ∧ map ∈ entriesOf table msg := by
  induction entries generalizing table tally with
  | nil => simp [sweep]
  | cons first rest inductionHypothesis =>
    cases found : alive first.pid with
    | true =>
      have apart : alive map.pid = false → map ≠ first := by
        rintro gone rfl
        rw [found] at gone
        cases gone
      simp only [sweep, found, if_true, inductionHypothesis, List.mem_cons]
      tauto
    | false =>
      simp only [sweep, found, Bool.false_eq_true, if_false, inductionHypothesis,
        mem_entriesOf_delete, List.mem_cons]
      by_cases same : map = first
      · simp [same, found]
      · simp [same]

/-- A sweep that finds every process alive leaves the table alone. -/
theorem sweep_none (alive : BitVec 32 → Bool) (entries : List MsgMap) (table : Table)
    (tally : Tally 32 MsgMap) (living : ∀ map ∈ entries, alive map.pid = true) :
    (sweep alive entries table tally).1 = table := by
  induction entries generalizing table tally with
  | nil => rfl
  | cons map rest inductionHypothesis =>
    obtain ⟨found, others⟩ := List.forall_mem_cons.mp living
    simp [sweep, found, inductionHypothesis _ _ others]

/-- A send notices a change of the table only through the entries of its msg. -/
theorem Sound.retable {core : Core ι} {send : Send} (sound : Sound core send) {table : Table}
    (same : send.phase = .counted → entriesOf table send.msg = entriesOf core.table send.msg)
    (kept : send.phase ≠ .counted → ∀ map ∈ send.counted, map ∉ send.tally.subtracted →
      map ∈ entriesOf core.table send.msg → map ∈ entriesOf table send.msg) :
    Sound { core with table := table } send := by
  refine { sound with outstanding := ?_, listed := ?_ }
  · intro past map member unsubtracted
    obtain ⟨present, handles⟩ := sound.outstanding past map member unsubtracted
    exact ⟨kept past map member unsubtracted present, handles⟩
  · intro early
    change _ = entriesOf table send.msg ∧ _
    rw [same early]
    exact sound.listed early

theorem count_sound (core : Core ι) (msg : BitVec 32)
    (few : (entriesOf core.table msg).length < 2 ^ 32) : Sound core (count core.table msg) := by
  have exact := @countUp_toNat 32 MsgMap _ few
  -- without any entry the send skips its signal pass
  have nobody (past : (count core.table msg).phase ≠ .counted) : entriesOf core.table msg = [] := by
    by_cases none : (countUp (entriesOf core.table msg) 0 : BitVec 32) = 0
    · rw [none] at exact
      exact List.length_eq_zero_iff.mp exact.symm
    · exact absurd (if_pos none) past
  refine {
    visited := fun past => (nobody past).symm
    balanced := balanced_start _ few
    outstanding := ?_
    settled := ?_
    listed := fun _ => ⟨rfl, rfl, rfl⟩
    handled := List.nodup_nil
    handlers := fun _ member => absurd member List.not_mem_nil }
  · intro past map member
    change map ∈ entriesOf core.table msg at member
    rw [nobody past] at member
    cases member
  · intro settled map member
    change map ∈ entriesOf core.table msg at member
    rw [nobody (by rw [settled]; exact nofun)] at member
    cases member

theorem signal_sound {core : Core ι} {send : Send} (sound : Sound core send)
    (early : send.phase = .counted) : Sound core (signal core.table core.alive send) := by
  obtain ⟨listed, untouched, _⟩ := sound.listed early
  refine {
    visited := fun _ => listed.symm
    balanced := sound.balanced
    outstanding := ?_
    settled := nofun
    listed := nofun
    handled := (entriesOf_nodup _ _).filter _
    handlers := ?_ }
  · intro _ map member _
    change map ∈ send.counted at member
    rw [listed] at member
    exact ⟨member, fun alive => List.mem_filter.mpr ⟨member, alive⟩⟩
  · intro map member
    have visited := (List.mem_filter.mp member).1
    rw [← listed] at visited
    refine ⟨visited, fun _ already => ?_⟩
    change map ∈ send.tally.subtracted at already
    rw [untouched] at already
    cases already

theorem test_sound {core : Core ι} {send : Send} (sound : Sound core send)
    (waits : send.phase = .waiting) :
    Sound core { send with phase := if send.tally.count = 0 then .left else .sweeping } := by
  have past : send.phase ≠ .counted := by rw [waits]; exact nofun
  refine { sound with visited := ?_, outstanding := ?_, settled := ?_, listed := ?_ }
  · exact fun _ => sound.visited past
  · exact fun _ => sound.outstanding past
  · intro settled
    by_cases zero : send.tally.count = 0
    · exact fun map member => sound.balanced.settled zero member
    · exact absurd (Eq.trans (if_neg zero).symm settled) nofun
  · intro early
    by_cases zero : send.tally.count = 0
    · exact absurd (Eq.trans (if_pos zero).symm early) nofun
    · exact absurd (Eq.trans (if_neg zero).symm early) nofun

/-- The sweep of a send subtracts every entry it removes for the first time. -/
theorem sweep_sound {core : Core ι} {send : Send} (sound : Sound core send)
    (sweeps : send.phase = .sweeping)
    (own : ∀ map ∈ dead core.table core.alive send.msg,
      map ∈ send.counted ∧ map ∉ send.tally.subtracted) :
    let swept := sweep core.alive (entriesOf core.table send.msg) core.table send.tally
    Sound { core with table := swept.1 } { send with tally := swept.2, phase := .waiting } := by
  intro swept
  have past : send.phase ≠ .counted := by rw [sweeps]; exact nofun
  have tally : swept.2 = send.tally.subtractAll (dead core.table core.alive send.msg) :=
    sweep_tally _ _ _ _
  have subtracted (map : MsgMap) : map ∈ swept.2.subtracted ↔
      map ∈ dead core.table core.alive send.msg ∨ map ∈ send.tally.subtracted := by
    rw [tally, mem_subtractAll]
  refine {
    visited := fun _ => sound.visited past
    balanced := ?_
    outstanding := ?_
    settled := nofun
    listed := nofun
    handled := sound.handled
    handlers := ?_ }
  · rw [tally]
    exact sound.balanced.subtractAll ((entriesOf_nodup _ _).filter _) own
  · intro _ map member unsubtracted
    have before := fun already => unsubtracted ((subtracted map).mpr (.inr already))
    obtain ⟨present, handles⟩ := sound.outstanding past map member before
    have living : ¬ (map ∈ entriesOf core.table send.msg ∧ core.alive map.pid = false) := by
      rintro ⟨_, gone⟩
      exact unsubtracted ((subtracted map).mpr (.inl (by simp [dead, present, gone])))
    exact ⟨(mem_sweep _ _ _ _).mpr ⟨living, present⟩, handles⟩
  · intro map member
    obtain ⟨counted, fresh⟩ := sound.handlers map member
    refine ⟨counted, fun alive already => ?_⟩
    rcases (subtracted map).mp already with swept | before
    · have gone := (List.mem_filter.mp swept).2
      change core.alive map.pid = true at alive
      rw [alive] at gone
      cases gone
    · exact fresh alive before

/-- The sweep of another send removes no entry that this one still needs. -/
theorem sweep_others {core : Core ι} {send concurrent : Send} (sound : Sound core concurrent)
    (spared : ∀ map ∈ dead core.table core.alive send.msg, concurrent.msg = send.msg →
      concurrent.phase ≠ .counted ∧
        (map ∈ concurrent.counted → map ∈ concurrent.tally.subtracted)) :
    Sound { core with
      table := (sweep core.alive (entriesOf core.table send.msg) core.table send.tally).1 }
      concurrent := by
  apply sound.retable
  · intro early
    by_cases same : concurrent.msg = send.msg
    · -- no entry is removed while the other send has counted and not signalled
      have living : ∀ map ∈ entriesOf core.table send.msg, core.alive map.pid = true := by
        intro map present
        by_contra gone
        have removed : map ∈ dead core.table core.alive send.msg := by
          simp [dead, present, Bool.eq_false_iff.mpr gone]
        exact (spared map removed same).1 early
      exact congrArg (entriesOf · concurrent.msg) (sweep_none _ _ _ _ living)
    · refine sweep_other _ _ _ _ fun map present => ?_
      rw [(mem_entriesOf.mp present).2]
      exact Ne.symm same
  · intro past map member unsubtracted present
    refine (mem_sweep _ _ _ _).mpr ⟨?_, present⟩
    rintro ⟨listed, gone⟩
    have same : concurrent.msg = send.msg :=
      (mem_entriesOf.mp present).2.symm.trans (mem_entriesOf.mp listed).2
    have removed : map ∈ dead core.table core.alive send.msg := by simp [dead, listed, gone]
    exact unsubtracted ((spared map removed same).2 member)

/-- An insertion is not noticed by a send of another msg, nor after its signal
pass. -/
theorem insert_sound {core : Core ι} {send : Send} (sound : Sound core send) {msg : BitVec 32}
    (pid : BitVec 32) (past : send.msg = msg → send.phase ≠ .counted) :
    Sound { core with table := emiHinsert core.table msg pid } send := by
  apply sound.retable
  · intro early
    exact entriesOf_insert_other (fun same => past same.symm early) pid
  · intro _ map _ _ present
    by_cases same : msg = send.msg
    · rw [same, entriesOf_insert]
      exact List.mem_cons_of_mem _ present
    · rw [entriesOf_insert_other same]
      exact present

theorem decrement_sound {core : Core ι} {send : Send} (sound : Sound core send) {map : MsgMap}
    (handles : map ∈ send.handling) (alive : core.alive map.pid = true) :
    Sound core { send with
      tally := send.tally.subtract map, handling := send.handling.erase map } := by
  obtain ⟨counted, fresh⟩ := sound.handlers map handles
  have erased (other : MsgMap) : other ∈ send.handling.erase map ↔
      other ≠ map ∧ other ∈ send.handling := sound.handled.mem_erase_iff
  have subtracted (other : MsgMap) :
      other ∈ (send.tally.subtract map).subtracted ↔ other = map ∨ other ∈ send.tally.subtracted :=
    List.mem_cons
  refine {
    visited := sound.visited
    balanced := sound.balanced.subtract counted (fresh alive)
    outstanding := ?_
    settled := fun left other member =>
      (subtracted other).mpr (.inr (sound.settled left other member))
    listed := ?_
    handled := sound.handled.erase map
    handlers := ?_ }
  · intro past other member unsubtracted
    obtain ⟨different, before⟩ := not_or.mp (mt (subtracted other).mpr unsubtracted)
    obtain ⟨present, handles⟩ := sound.outstanding past other member before
    exact ⟨present, fun living => (erased other).mpr ⟨different, handles living⟩⟩
  · intro early
    rw [(sound.listed early).2.2] at handles
    cases handles
  · intro other member
    obtain ⟨different, before⟩ := (erased other).mp member
    obtain ⟨counted, fresh⟩ := sound.handlers other before
    exact ⟨counted, fun living already =>
      ((subtracted other).mp already).elim different (fresh living)⟩

/-- A process that exits decrements nothing any more; its entries stay. -/
theorem exit_sound {core : Core ι} {send : Send} (sound : Sound core send) (pid : BitVec 32) :
    Sound { core with alive := Function.update core.alive pid false } send := by
  have before (other : BitVec 32) (living : Function.update core.alive pid false other = true) :
      core.alive other = true := by
    rcases eq_or_ne other pid with rfl | different
    · simp at living
    · simpa [different] using living
  refine { sound with outstanding := ?_, handlers := ?_ }
  · intro past map member unsubtracted
    obtain ⟨present, handles⟩ := sound.outstanding past map member unsubtracted
    exact ⟨present, fun living => handles (before _ living)⟩
  · intro map member
    obtain ⟨counted, fresh⟩ := sound.handlers map member
    exact ⟨counted, fun living => fresh (before _ living)⟩

theorem sending_of_send {core : Core ι} {worker : ι} {send : Send}
    (present : send ∈ (core.worker worker).send) : core.worker worker = .sending send := by
  cases place : core.worker worker with
  | sending other =>
    rw [place] at present
    rw [Option.some.inj present]
  | idle | scanning _ _ | inserting _ _ | counting _ =>
    rw [place] at present
    cases present

/-- A send whose sweep agrees with its own count, and removes an entry it may not
remove, removes one that another send still needs. -/
theorem needed_by_other {core : Core ι} {worker : ι} {send : Send} {map : MsgMap}
    (counted : map ∈ send.counted) (fresh : map ∉ send.tally.subtracted)
    (forbidden : ¬ MayRemove core worker send map) :
    ∃ other, other ≠ worker ∧ ∃ concurrent ∈ (core.worker other).send,
      concurrent.msg = send.msg ∧ (concurrent.phase ≠ .counted →
        map ∈ concurrent.counted ∧ map ∉ concurrent.tally.subtracted) := by
  by_contra nobody
  refine forbidden ⟨counted, fresh, fun other different concurrent present same => ?_⟩
  by_contra needs
  exact nobody ⟨other, different, concurrent, present, same, fun past =>
    Classical.not_imp.mp fun kept => needs ⟨past, kept⟩⟩

section Runs

variable [DecidableEq ι]

theorem AllSound.moveTo {core changed : Core ι} (sound : AllSound core) {worker : ι} {next : Worker}
    (places : changed.worker = core.worker)
    (others : ∀ other, other ≠ worker → ∀ send ∈ (core.worker other).send,
      Sound core send → Sound changed send)
    (moved : ∀ send ∈ next.send, Sound changed send) : AllSound (changed.moveTo worker next) := by
  intro other send present
  rcases eq_or_ne other worker with rfl | different
  · simp only [Core.moveTo, Function.update_self] at present
    exact { moved send present with }
  · simp only [Core.moveTo, ne_eq, different, not_false_eq_true, Function.update_of_ne, places]
      at present
    exact { others other different send present (sound other send present) with }

/-- A step of a worker that leaves the table alone is noticed by no other send. -/
theorem AllSound.own {core : Core ι} (sound : AllSound core) (worker : ι) {next : Worker}
    (moved : ∀ send ∈ next.send, Sound core send) : AllSound (core.moveTo worker next) :=
  sound.moveTo rfl (fun _ _ _ _ unchanged => unchanged) moved

/-- What each action does, and where the worker has to be for it. -/
inductive Moves (core : Core ι) : Action ι → Core ι → Prop
  | register (worker : ι) (msg pid : BitVec 32) (place : core.worker worker = .idle) :
      Moves core (.register worker msg pid) (core.moveTo worker (.scanning msg pid))
  | send (worker : ι) (msg : BitVec 32) (place : core.worker worker = .idle) :
      Moves core (.send worker msg) (core.moveTo worker (.counting msg))
  | refuse (worker : ι) (msg pid : BitVec 32) (place : core.worker worker = .scanning msg pid)
      (refused : scanRefuses core.table msg pid = true) :
      Moves core (.work worker) (core.moveTo worker .idle)
  | accept (worker : ι) (msg pid : BitVec 32) (place : core.worker worker = .scanning msg pid)
      (accepted : ¬ scanRefuses core.table msg pid = true) :
      Moves core (.work worker) (core.moveTo worker (.inserting msg pid))
  | insert (worker : ι) (msg pid : BitVec 32) (place : core.worker worker = .inserting msg pid) :
      Moves core (.work worker)
        ({ core with table := emiHinsert core.table msg pid }.moveTo worker .idle)
  | count (worker : ι) (msg : BitVec 32) (place : core.worker worker = .counting msg) :
      Moves core (.work worker) (core.moveTo worker (.sending (count core.table msg)))
  | signal (worker : ι) (send : Send) (place : core.worker worker = .sending send)
      (phase : send.phase = .counted) :
      Moves core (.work worker)
        (core.moveTo worker (.sending (signal core.table core.alive send)))
  | test (worker : ι) (send : Send) (place : core.worker worker = .sending send)
      (phase : send.phase = .waiting) :
      Moves core (.work worker) (core.moveTo worker (.sending { send with
        phase := if send.tally.count = 0 then .left else .sweeping }))
  | sweep (worker : ι) (send : Send) (place : core.worker worker = .sending send)
      (phase : send.phase = .sweeping) :
      Moves core (.work worker) ({ core with
        table := (sweep core.alive (entriesOf core.table send.msg) core.table send.tally).1
      }.moveTo worker (.sending { send with
        tally := (sweep core.alive (entriesOf core.table send.msg) core.table send.tally).2
        phase := .waiting }))
  | leave (worker : ι) (send : Send) (place : core.worker worker = .sending send)
      (phase : send.phase = .left) : Moves core (.work worker) (core.moveTo worker .idle)
  | decrement (worker : ι) (map : MsgMap) (send : Send)
      (place : core.worker worker = .sending send) (handles : map ∈ send.handling)
      (alive : core.alive map.pid = true) :
      Moves core (.decrement worker map) (core.moveTo worker (.sending { send with
        tally := send.tally.subtract map
        handling := send.handling.erase map }))
  | exit (pid : BitVec 32) :
      Moves core (.exit pid) { core with alive := Function.update core.alive pid false }

theorem work_moves {core after : Core ι} {worker : ι} (worked : work core worker = some after) :
    Moves core (.work worker) after := by
  rw [work] at worked
  cases place : core.worker worker with
  | idle =>
    simp only [place] at worked
    cases worked
  | scanning msg pid =>
    simp only [place] at worked
    by_cases refused : scanRefuses core.table msg pid = true
    · rw [if_pos refused] at worked
      exact Option.some.inj worked ▸ .refuse worker msg pid place refused
    · rw [if_neg refused] at worked
      exact Option.some.inj worked ▸ .accept worker msg pid place refused
  | inserting msg pid =>
    simp only [place] at worked
    exact Option.some.inj worked ▸ .insert worker msg pid place
  | counting msg =>
    simp only [place] at worked
    exact Option.some.inj worked ▸ .count worker msg place
  | sending send =>
    simp only [place] at worked
    cases phase : send.phase with
    | counted =>
      simp only [phase] at worked
      exact Option.some.inj worked ▸ .signal worker send place phase
    | waiting =>
      simp only [phase] at worked
      exact Option.some.inj worked ▸ .test worker send place phase
    | sweeping =>
      simp only [phase] at worked
      exact Option.some.inj worked ▸ .sweep worker send place phase
    | left =>
      simp only [phase] at worked
      exact Option.some.inj worked ▸ .leave worker send place phase

/-- An action that can be taken does one of these. -/
theorem perform_moves {core after : Core ι} {action : Action ι}
    (taken : perform core action = some after) : Moves core action after := by
  cases action with
  | work worker => exact work_moves taken
  | register worker msg pid =>
    cases place : core.worker worker with
    | idle =>
      simp only [perform, place] at taken
      exact Option.some.inj taken ▸ .register worker msg pid place
    | scanning _ _ | inserting _ _ | counting _ | sending _ =>
      simp only [perform, place] at taken
      cases taken
  | send worker msg =>
    cases place : core.worker worker with
    | idle =>
      simp only [perform, place] at taken
      exact Option.some.inj taken ▸ .send worker msg place
    | scanning _ _ | inserting _ _ | counting _ | sending _ =>
      simp only [perform, place] at taken
      cases taken
  | decrement worker map =>
    cases place : core.worker worker with
    | sending send =>
      simp only [perform, place] at taken
      obtain ⟨⟨handles, alive⟩, taken⟩ := Option.ite_none_right_eq_some.mp taken
      exact Option.some.inj taken ▸ .decrement worker map send place handles alive
    | idle | scanning _ _ | inserting _ _ | counting _ =>
      simp only [perform, place] at taken
      cases taken
  | exit pid => exact Option.some.inj taken ▸ .exit pid

/-- A step that disturbs no send keeps every send sound. -/
theorem perform_sound {core after : Core ι} {action : Action ι} (sound : AllSound core)
    (undisturbed : Undisturbed core action) (taken : perform core action = some after) :
    AllSound after := by
  have current {worker : ι} {send : Send} (place : core.worker worker = .sending send) :
      Sound core send := sound worker send (by rw [place]; rfl)
  cases perform_moves taken with
  | register worker msg pid | send worker msg | refuse worker msg pid | accept worker msg pid
  | leave worker send => exact sound.own worker nofun
  | insert worker msg pid place =>
    simp only [Undisturbed, Undisturbing, place] at undisturbed
    refine sound.moveTo rfl (fun other _ send present before => ?_) nofun
    exact insert_sound before pid (undisturbed other send present)
  | count worker msg place =>
    simp only [Undisturbed, Undisturbing, place] at undisturbed
    refine sound.own worker ?_
    rintro send ⟨⟩
    exact count_sound core msg undisturbed
  | signal worker send place phase =>
    refine sound.own worker ?_
    rintro _ ⟨⟩
    exact signal_sound (current place) phase
  | test worker send place phase =>
    refine sound.own worker ?_
    rintro _ ⟨⟩
    exact test_sound (current place) phase
  | sweep worker send place phase =>
    simp only [Undisturbed, Undisturbing, place] at undisturbed
    have removes := undisturbed phase
    refine sound.moveTo rfl (fun other different concurrent present before => ?_) ?_
    · exact sweep_others before fun map removed same =>
        (removes map removed).2.2 other different concurrent present same
    · rintro _ ⟨⟩
      exact sweep_sound (current place) phase fun map removed =>
        ⟨(removes map removed).1, (removes map removed).2.1⟩
  | decrement worker map send place handles alive =>
    refine sound.own worker ?_
    rintro _ ⟨⟩
    exact decrement_sound (current place) handles alive
  | exit pid => exact fun worker send present => exit_sound (sound worker send present) pid

/-- Along every run whose steps disturb no send, the passes of every send agree. -/
theorem passes_agree (ι : Type) [DecidableEq ι] (core : Core ι)
    (reached : (serving ι).ReachedUnder Undisturbed core) : PassesAgree core := by
  have sound : AllSound core := by
    apply reached.invariant
    · rintro start ⟨_, idle⟩ worker send present
      rw [idle worker] at present
      cases present
    · intro before action after sound undisturbed taken
      exact perform_sound sound undisturbed taken
  exact fun worker send present => (sound worker send present).toAgrees

/-- An empty table, live processes and idle workers. -/
def begin (ι : Type) : Core ι := ⟨initMsgTable, fun _ => true, fun _ => .idle⟩

theorem begin_starts (ι : Type) [DecidableEq ι] : (serving ι).start (begin ι) :=
  ⟨rfl, fun _ => rfl⟩

/-- Processes one and two register message seven. A send is handled by the first
and swept for the second, which exits. -/
def registeredBefore : List (Action (Fin 2)) :=
  [.register 0 7 1, .work 0, .work 0, .register 1 7 2, .work 1, .work 1, .send 0 7, .work 0,
    .work 0, .exit 2, .work 0, .decrement 0 ⟨7, 1, 0⟩, .work 0, .work 0]

/-- The second process registers between the counting and the signal pass. -/
def registeredBetween : List (Action (Fin 2)) :=
  [.register 0 7 1, .work 0, .work 0, .register 1 7 2, .work 1, .send 0 7, .work 0, .work 1,
    .work 0]

/-- The passes of the first send agree to its end. -/
theorem registered_before_agree :
    PassesAgree ((System.follow perform Undisturbed (begin (Fin 2)) registeredBefore).get
      (by decide)) :=
  passes_agree (Fin 2) _
    (System.followed_reached registeredBefore (.initial (begin (Fin 2)) (begin_starts _))
      (by decide))

/-- Not in every run do the passes agree. An entry inserted after the counting
pass is signalled, and its receiver decrements a count it is not part of. -/
theorem registered_between_disagree :
    ¬ ∀ core : Core (Fin 2), (serving (Fin 2)).Reached core → PassesAgree core := by
  intro always
  have reached : (serving (Fin 2)).Reached
      ((System.follow perform (fun _ _ => True) (begin (Fin 2)) registeredBetween).get
        (by decide)) :=
    System.followed_reached registeredBetween (.initial (begin (Fin 2)) (begin_starts _))
      (by decide)
  have agree := always _ reached
  revert agree
  decide

/-- A counting pass that wraps the count leaves it out of balance. -/
theorem wrapped_disagrees {core : Core ι} {worker : ι} {msg : BitVec 32}
    (many : ¬ (entriesOf core.table msg).length < 2 ^ 32) :
    ¬ PassesAgree (core.moveTo worker (.sending (count core.table msg))) := by
  intro agree
  have counted := agree worker (count core.table msg) (by simp [Core.moveTo, Worker.send])
  have remaining := counted.balanced.remaining
  have small := (count core.table msg).tally.count.isLt
  change (count core.table msg).tally.count.toNat + 0 = (entriesOf core.table msg).length
    at remaining
  omega

/-- A send that has counted entries other than those its signal pass will find
disagrees with itself one step later. -/
theorem signal_disagrees {core : Core ι} {worker : ι} {send : Send}
    (place : core.worker worker = .sending send) (early : send.phase = .counted)
    (changed : entriesOf core.table send.msg ≠ send.counted) :
    ∃ later, perform core (.work worker) = some later ∧ ¬ PassesAgree later := by
  refine ⟨core.moveTo worker (.sending (signal core.table core.alive send)), ?_, ?_⟩
  · simp [perform, work, place, early]
  · intro agree
    have signalled := agree worker (signal core.table core.alive send)
      (by simp [Core.moveTo, Worker.send])
    exact changed (signalled.visited nofun)

/-- An insertion between the counting and the signal pass of a send is visited
by that send and was not counted. -/
theorem insert_disagrees {core : Core ι} (sound : AllSound core) {worker other : ι} {send : Send}
    (different : other ≠ worker) (present : send ∈ (core.worker other).send)
    (early : send.phase = .counted) (pid : BitVec 32) :
    ∃ later, perform ({ core with table := emiHinsert core.table send.msg pid }.moveTo worker .idle)
      (.work other) = some later ∧ ¬ PassesAgree later := by
  have sends := sending_of_send present
  refine signal_disagrees (by simpa [Core.moveTo, different] using sends) early ?_
  intro unchanged
  change entriesOf (emiHinsert core.table send.msg pid) send.msg = send.counted at unchanged
  rw [entriesOf_insert, ((sound other send present).listed early).1] at unchanged
  exact List.cons_ne_self _ _ unchanged

/-- A sweep that removes an entry it may not remove leaves its own count out of
balance, or another send without an entry it counted. -/
theorem sweep_disagrees {core : Core ι} (sound : AllSound core) {worker : ι} {send : Send}
    {map : MsgMap} (removed : map ∈ dead core.table core.alive send.msg)
    (forbidden : ¬ MayRemove core worker send map) :
    let swept := sweep core.alive (entriesOf core.table send.msg) core.table send.tally
    let after := { core with table := swept.1 }.moveTo worker
      (.sending { send with tally := swept.2, phase := .waiting })
    ¬ PassesAgree after ∨
      ∃ other later, perform after (.work other) = some later ∧ ¬ PassesAgree later := by
  intro swept after
  refine Classical.or_iff_not_imp_left.mpr fun agrees => ?_
  have agree := not_not.mp agrees
  have own := (agree worker { send with tally := swept.2, phase := .waiting }
    (by simp [after, Core.moveTo, Worker.send])).balanced
  simp only [swept, sweep_tally] at own
  obtain ⟨counted, fresh⟩ := subtractAll_fresh own removed
  obtain ⟨other, different, concurrent, present, same, needs⟩ :=
    needed_by_other counted fresh forbidden
  obtain ⟨listed, found⟩ := List.mem_filter.mp removed
  have gone : map ∉ entriesOf swept.1 concurrent.msg := fun kept =>
    ((mem_sweep _ _ _ _).mp kept).1 ⟨listed, by simpa using found⟩
  have sends : after.worker other = .sending concurrent := by
    simpa [after, Core.moveTo, different] using sending_of_send present
  by_cases early : concurrent.phase = .counted
  · refine ⟨other, signal_disagrees sends early ?_⟩
    intro unchanged
    have member : map ∈ concurrent.counted := by
      rw [((sound other concurrent present).listed early).1, same]
      exact listed
    rw [← unchanged] at member
    exact gone member
  · obtain ⟨member, unsubtracted⟩ := needs early
    have others := agree other concurrent (by rw [sends]; rfl)
    exact absurd (others.outstanding early map member unsubtracted).1 gone

/-- The condition is exact: a step that disturbs a send makes the passes of some
send disagree, at once or at the next step of that send. -/
theorem disturbed_disagrees {core after : Core ι} {action : Action ι} (sound : AllSound core)
    (disturbed : ¬ Undisturbed core action) (taken : perform core action = some after) :
    ¬ PassesAgree after ∨
      ∃ worker later, perform after (.work worker) = some later ∧ ¬ PassesAgree later := by
  cases perform_moves taken with
  | register _ _ _ _ | send _ _ _ | decrement _ _ _ _ _ _ | exit _ =>
    exact absurd trivial disturbed
  | refuse worker msg pid place | accept worker msg pid place =>
    simp only [Undisturbed, Undisturbing, place, not_true] at disturbed
  | count worker msg place =>
    simp only [Undisturbed, Undisturbing, place] at disturbed
    exact .inl (wrapped_disagrees disturbed)
  | insert worker msg pid place =>
    simp only [Undisturbed, Undisturbing, place, not_forall, ne_eq, not_not] at disturbed
    obtain ⟨other, send, present, rfl, early⟩ := disturbed
    have different : other ≠ worker := by
      rintro rfl
      rw [place] at present
      cases present
    exact .inr ⟨other, insert_disagrees sound different present early pid⟩
  | signal worker send place phase | test worker send place phase
  | leave worker send place phase =>
    simp [Undisturbed, Undisturbing, place, phase] at disturbed
  | sweep worker send place phase =>
    simp only [Undisturbed, Undisturbing, place, not_forall] at disturbed
    obtain ⟨_, map, removed, forbidden⟩ := disturbed
    exact sweep_disagrees sound removed forbidden

end Runs

end Emilib.TablePasses
