import Emilib.TablePasses

/-!
# One entry for each process and msg

`emi_hinsert_unique_lock` scans the chain for the pid without a lock and then
inserts under the write lock. Two workers that register the same process for the
same msg may both scan before either inserts, and then the table holds the
process twice. A send signals it once for each entry.

The table stays free of duplicates along the runs in which no worker inserts while
another one stands between its scan and its insertion with the same msg and pid.
Removals do no harm, nor do insertions for other processes or msgs.
-/

namespace Emilib.TablePasses

open CountDown MsgTable

variable {ι : Type}

/-- No two entries of the table have the same msg and the same pid. -/
def Unique (table : Table) : Prop :=
  ∀ left right, Holds table left → Holds table right →
    left.msg = right.msg → left.pid = right.pid → left = right

/-- The table holds a process at most once for a msg, and no send visited a
process twice. -/
def ReceivedOnce (core : Core ι) : Prop :=
  Unique core.table ∧
    ∀ worker, ∀ send ∈ (core.worker worker).send, (send.visited.map MsgMap.pid).Nodup

/-- The msg and pid of a worker that has scanned for them and not yet inserted. -/
def Worker.pending : Worker → Option (BitVec 32 × BitVec 32)
  | .inserting msg pid => some (msg, pid)
  | .idle | .scanning .. | .counting _ | .sending _ => none

/-- A worker inserts while no other one stands between its scan and its insertion
with the same msg and pid. -/
def Alone (core : Core ι) : Action ι → Prop
  | .work worker => ∀ other, other ≠ worker → (core.worker worker).pending ≠ none →
      (core.worker other).pending ≠ (core.worker worker).pending
  | .register .. | .send .. | .decrement .. | .exit _ => True

instance [Fintype ι] [DecidableEq ι] (core : Core ι) (action : Action ι) :
    Decidable (Alone core action) :=
  match action with
  | .work _ => inferInstanceAs (Decidable (∀ _, _ → _ → _ ≠ _))
  | .register .. | .send .. | .decrement .. | .exit _ => .isTrue trivial

/-- A sweep adds nothing. -/
theorem mem_of_mem_sweep {alive : BitVec 32 → Bool} {entries : List MsgMap} {table : Table}
    {tally : Tally 32 MsgMap} {map : MsgMap} {bucket : BitVec 8}
    (member : map ∈ (sweep alive entries table tally).1.head bucket) :
    map ∈ table.head bucket := by
  induction entries generalizing table tally with
  | nil => exact member
  | cons first rest inductionHypothesis =>
    rw [sweep] at member
    split at member
    · exact inductionHypothesis member
    · exact mem_of_mem_delete (inductionHypothesis member)

/-- The invariant: every entry lies in the chain of its msg, none is repeated, and
none has the msg and pid of a worker that is about to insert. -/
structure Unrepeated (core : Core ι) : Prop where
  placed : ∀ bucket, ∀ map ∈ core.table.head bucket, hash32 map.msg = bucket
  unique : Unique core.table
  fresh : ∀ worker, ∀ entry ∈ (core.worker worker).pending,
    ∀ map, Holds core.table map → map.msg = entry.1 → map.pid ≠ entry.2
  once : ∀ worker, ∀ send ∈ (core.worker worker).send, (send.visited.map MsgMap.pid).Nodup

/-- A scan that refuses nothing has seen every entry of its msg. -/
theorem Unrepeated.scanned {core : Core ι} (unrepeated : Unrepeated core) {msg pid : BitVec 32}
    (accepted : ¬ scanRefuses core.table msg pid = true) {map : MsgMap}
    (holds : Holds core.table map) (same : map.msg = msg) : map.pid ≠ pid := by
  intro equal
  apply accepted
  obtain ⟨bucket, member⟩ := holds
  have place := unrepeated.placed bucket map member
  rw [← place, same] at member
  exact List.any_eq_true.mpr ⟨map, member, decide_eq_true equal⟩

/-- The entries of a msg in a table without repetition have distinct pids. -/
theorem pids_nodup {table : Table} (unique : Unique table) (msg : BitVec 32) :
    ((entriesOf table msg).map MsgMap.pid).Nodup := by
  apply List.Nodup.map_on _ (entriesOf_nodup table msg)
  intro left leftMember right rightMember same
  obtain ⟨leftListed, leftMsg⟩ := mem_entriesOf.mp leftMember
  obtain ⟨rightListed, rightMsg⟩ := mem_entriesOf.mp rightMember
  exact unique left right ⟨_, leftListed⟩ ⟨_, rightListed⟩ (leftMsg.trans rightMsg.symm) same

section Runs

variable [DecidableEq ι]

/-- A step that adds no entry and moves one worker keeps the invariant. -/
theorem Unrepeated.moveTo {core changed : Core ι} (unrepeated : Unrepeated core) {worker : ι}
    {next : Worker} (places : changed.worker = core.worker)
    (fewer : ∀ bucket, ∀ map ∈ changed.table.head bucket, map ∈ core.table.head bucket)
    (fresh : ∀ entry ∈ next.pending,
      ∀ map, Holds core.table map → map.msg = entry.1 → map.pid ≠ entry.2)
    (once : ∀ send ∈ next.send, (send.visited.map MsgMap.pid).Nodup) :
    Unrepeated (changed.moveTo worker next) := by
  have held (map : MsgMap) (holds : Holds changed.table map) : Holds core.table map := by
    obtain ⟨bucket, member⟩ := holds
    exact ⟨bucket, fewer bucket map member⟩
  constructor
  · exact fun bucket map member => unrepeated.placed bucket map (fewer bucket map member)
  · exact fun left right first second =>
      unrepeated.unique left right (held left first) (held right second)
  · intro other entry pending map holds
    rcases eq_or_ne other worker with rfl | different
    · simp only [Core.moveTo, Function.update_self] at pending
      exact fresh entry pending map (held map holds)
    · simp only [Core.moveTo, ne_eq, different, not_false_eq_true, Function.update_of_ne, places]
        at pending
      exact unrepeated.fresh other entry pending map (held map holds)
  · intro other send present
    rcases eq_or_ne other worker with rfl | different
    · simp only [Core.moveTo, Function.update_self] at present
      exact once send present
    · simp only [Core.moveTo, ne_eq, different, not_false_eq_true, Function.update_of_ne, places]
        at present
      exact unrepeated.once other send present

/-- A step that leaves the table alone and is not the end of a scan. -/
theorem Unrepeated.own {core : Core ι} (unrepeated : Unrepeated core) (worker : ι) {next : Worker}
    (scanned : next.pending = none)
    (once : ∀ send ∈ next.send, (send.visited.map MsgMap.pid).Nodup) :
    Unrepeated (core.moveTo worker next) := by
  refine unrepeated.moveTo rfl (fun _ _ member => member) ?_ once
  intro entry pending
  rw [scanned] at pending
  cases pending

/-- An insertion with nobody else about to insert the same adds the only entry for
its msg and pid. -/
theorem Unrepeated.insert {core : Core ι} (unrepeated : Unrepeated core) {worker : ι}
    {msg pid : BitVec 32} (inserting : core.worker worker = .inserting msg pid)
    (alone : ∀ other, other ≠ worker → (core.worker other).pending ≠ some (msg, pid)) :
    Unrepeated ({ core with table := emiHinsert core.table msg pid }.moveTo worker .idle) := by
  have fresh := unrepeated.fresh worker (msg, pid) (by rw [inserting]; rfl)
  have known (map : MsgMap) (holds : Holds (emiHinsert core.table msg pid) map) :
      Holds core.table map ∨ map = core.table.newMap msg pid := by
    obtain ⟨bucket, member⟩ := holds
    rcases mem_insert.mp member with older | ⟨newest, _⟩
    · exact .inl ⟨bucket, older⟩
    · exact .inr newest
  constructor
  · intro bucket map member
    rcases mem_insert.mp member with older | ⟨rfl, rfl⟩
    · exact unrepeated.placed bucket map older
    · rfl
  · intro left right first second sameMsg samePid
    rcases known left first with leftOld | rfl
    · rcases known right second with rightOld | rfl
      · exact unrepeated.unique left right leftOld rightOld sameMsg samePid
      · exact absurd samePid (fresh left leftOld sameMsg)
    · rcases known right second with rightOld | rfl
      · exact absurd samePid.symm (fresh right rightOld sameMsg.symm)
      · rfl
  · intro other entry pending map holds sameMsg samePid
    rcases eq_or_ne other worker with rfl | different
    · simp [Core.moveTo, Worker.pending] at pending
    · simp only [Core.moveTo, ne_eq, different, not_false_eq_true, Function.update_of_ne] at pending
      rcases known map holds with older | rfl
      · exact unrepeated.fresh other entry pending map older sameMsg samePid
      · have same : entry = (msg, pid) := Prod.ext sameMsg.symm samePid.symm
        rw [same] at pending
        exact alone other different pending
  · intro other send present
    rcases eq_or_ne other worker with rfl | different
    · simp [Core.moveTo, Worker.send] at present
    · simp only [Core.moveTo, ne_eq, different, not_false_eq_true, Function.update_of_ne] at present
      exact unrepeated.once other send present

/-- A step that ends what a worker did and leaves the table alone. -/
theorem Unrepeated.rest {core : Core ι} (unrepeated : Unrepeated core) (worker : ι) {next : Worker}
    (scanned : next.pending = none) (sent : next.send = none) :
    Unrepeated (core.moveTo worker next) := by
  apply unrepeated.own worker scanned
  intro send present
  rw [sent] at present
  cases present

/-- A step that inserts alone, or does not insert, keeps the invariant. -/
theorem perform_unrepeated {core after : Core ι} {action : Action ι} (unrepeated : Unrepeated core)
    (alone : Alone core action) (taken : perform core action = some after) : Unrepeated after := by
  have once {worker : ι} {send : Send} (place : core.worker worker = .sending send) :
      (send.visited.map MsgMap.pid).Nodup :=
    unrepeated.once worker send (by rw [place]; rfl)
  cases perform_moves taken with
  | register worker | send worker | refuse worker | leave worker =>
    exact unrepeated.rest worker rfl rfl
  | accept worker msg pid place accepted =>
    apply unrepeated.moveTo rfl (fun _ _ member => member)
    · rintro entry ⟨⟩ map holds same
      exact unrepeated.scanned accepted holds same
    · rintro send ⟨⟩
  | insert worker msg pid place =>
    apply unrepeated.insert place
    intro other different
    have apart := alone other different
    rw [place] at apart
    exact apart (Option.some_ne_none _)
  | count worker msg place =>
    apply unrepeated.own worker rfl
    rintro send ⟨⟩
    exact List.nodup_nil
  | signal worker send place =>
    apply unrepeated.own worker rfl
    rintro signalled ⟨⟩
    exact pids_nodup unrepeated.unique send.msg
  | test worker send place =>
    have earlier := once place
    apply unrepeated.own worker rfl
    rintro tested ⟨⟩
    exact earlier
  | sweep worker send place =>
    have earlier := once place
    refine unrepeated.moveTo rfl (fun _ _ member => mem_of_mem_sweep member) ?_ ?_
    · rintro entry ⟨⟩
    · rintro swept ⟨⟩
      exact earlier
  | decrement worker map send place =>
    have earlier := once place
    apply unrepeated.own worker rfl
    rintro decremented ⟨⟩
    exact earlier
  | exit pid => exact { unrepeated with }

/-- Along every run whose insertions are alone, no process is in the table twice
for a msg, and none is visited twice by a send. -/
theorem received_once (ι : Type) [DecidableEq ι] (core : Core ι)
    (reached : (serving ι).ReachedUnder Alone core) : ReceivedOnce core := by
  have unrepeated : Unrepeated core := by
    apply reached.invariant
    · rintro start ⟨empty, idle⟩
      constructor
      · simp [empty, initMsgTable]
      · simp [Unique, Holds, empty, initMsgTable]
      · simp [idle, Worker.pending]
      · simp [idle, Worker.send]
    · intro before action after unrepeated alone taken
      exact perform_unrepeated unrepeated alone taken
  exact ⟨unrepeated.unique, unrepeated.once⟩

/-- A process registers twice for msg seven, the second time behind the first
insertion, and the message is sent to it. -/
def scannedBehind : List (Action Bool) :=
  [.register false 7 1, .register true 7 1, .work false, .work false, .work true,
    .send false 7, .work false, .work false]

/-- Both scans come before both insertions. -/
def scannedBefore : List (Action Bool) :=
  [.register false 7 1, .register true 7 1, .work false, .work true, .work false, .work true]

/-- The second registration of a process is refused, and it receives once. -/
theorem scanned_behind_once :
    ReceivedOnce ((System.follow perform Alone (begin Bool) scannedBehind).get (by decide)) :=
  received_once Bool _
    (System.followed_reached scannedBehind (.initial (begin Bool) (begin_starts _))
      (by decide))

/-- Not in every run is a process received once: two workers that scan before
either inserts put it into the table twice. -/
theorem scanned_before_twice :
    ¬ ∀ core : Core Bool, (serving Bool).Reached core → ReceivedOnce core := by
  intro always
  have reached : (serving Bool).Reached
      ((System.follow perform (fun _ _ => True) (begin Bool) scannedBefore).get (by decide)) :=
    System.followed_reached scannedBefore (.initial (begin Bool) (begin_starts _)) (by decide)
  have unique := (always _ reached).1 ⟨7, 1, 0⟩ ⟨7, 1, 1⟩ ⟨hash32 7, by decide⟩
    ⟨hash32 7, by decide⟩ rfl rfl
  revert unique
  decide

/-- The condition is exact: an insertion that is not alone leaves another worker
about to insert the same, and its next step puts the process into the table twice. -/
theorem overlapping_repeats {core : Core ι} {worker other : ι} {msg pid : BitVec 32}
    (different : other ≠ worker) (first : core.worker worker = .inserting msg pid)
    (second : core.worker other = .inserting msg pid) :
    ∃ after, System.follow perform (fun _ _ => True) core [.work worker, .work other] =
      some after ∧ ¬ ReceivedOnce after := by
  let inserted := emiHinsert core.table msg pid
  refine ⟨({ core with table := emiHinsert inserted msg pid }.moveTo worker .idle).moveTo
    other .idle, ?_, fun once => ?_⟩
  · simp [System.follow, perform, work, Core.moveTo, first, second, different, inserted]
  · have older : Holds (emiHinsert inserted msg pid) (core.table.newMap msg pid) :=
      ⟨hash32 msg, mem_insert.mpr (.inl (mem_insert.mpr (.inr ⟨rfl, rfl⟩)))⟩
    have newer : Holds (emiHinsert inserted msg pid) (inserted.newMap msg pid) :=
      ⟨hash32 msg, mem_insert.mpr (.inr ⟨rfl, rfl⟩)⟩
    have same := congrArg MsgMap.node (once.1 _ _ older newer rfl rfl)
    exact Nat.ne_of_lt (Nat.lt_succ_self core.table.inserted) same

end Runs

end Emilib.TablePasses
