import Emilib.UniqueEntries

/-!
# What `emi_core` does with the pids it was told

The pid of an entry is whatever the register request had in its `cmd`. The worker
that inserts the entry initializes the lock of that pid, every signal pass over the
entry uses the lock and the slot of the pid and passes the pid to `kill`, and every
sweep passes it to `kill` again. Nothing checks it. The initialization reads the pid
from the entry behind the unlock of the table, when the sweep of another worker may
have freed the entry; what the memory then holds is left open.

An index is in the tables when it is at least zero and less than the `pid_max` the
shared memory was sized with. A pid that is not positive makes `kill` signal a
group of processes, or all of them. Neither happens in the runs whose register requests
name a positive pid below `pid_max`, and whose sweeps free no entry before that read.
-/

namespace Emilib.TablePasses

open CountDown MsgTable

variable {ι : Type}

/-- What is done with a pid: it is an index into `pididx` or `pididx_lock`, or an
argument of `kill`. -/
inductive Use where
  | index (pid : BitVec 32)
  | kill (pid : BitVec 32)
deriving DecidableEq, Repr

/-- An index lies in the tables, and `kill` signals a single process. -/
def Use.Proper (pidMax : BitVec 32) : Use → Prop
  | .index pid => 0 ≤ pid.toInt ∧ pid.toInt < pidMax.toNat
  | .kill pid => 0 < pid.toInt

instance (pidMax : BitVec 32) (use : Use) : Decidable (use.Proper pidMax) :=
  match use with
  | .index _ => inferInstanceAs (Decidable (_ ∧ _))
  | .kill _ => inferInstanceAs (Decidable (_ < _))

/-- The uses of the next step of a worker in its send: the slot, the lock and the signal
of every entry in a signal pass, and the check of every entry in a sweep. -/
def Worker.uses (table : Table) : Worker → List Use
  | .sending send =>
      match send.phase with
      | .counted => (entriesOf table send.msg).flatMap fun map => [.index map.pid, .kill map.pid]
      | .sweeping => (entriesOf table send.msg).map fun map => .kill map.pid
      | .waiting | .left => []
  | .idle | .scanning .. | .inserting .. | .counting _ => []

/-- The entry that the next step of a worker inserts. -/
def Worker.inserts (table : Table) : Worker → Option MsgMap
  | .inserting msg pid => some (table.newMap msg pid)
  | .idle | .scanning .. | .counting _ | .sending _ => none

/-- The worker that an action gives a request. -/
def Action.requests : Action ι → Option ι
  | .register worker _ _ | .send worker _ => some worker
  | .work _ | .decrement .. | .exit _ => none

/-- `emi_core`, and the entry each worker has inserted whose pid it has yet to read. -/
structure Registrar (ι : Type) where
  core : Core ι
  inserted : ι → Option MsgMap

/-- The uses of the next step of a worker: those in its send, or the one index it reads
from the entry it has inserted. -/
def Registrar.Uses (registrar : Registrar ι) (worker : ι) (use : Use) : Prop :=
  use ∈ (registrar.core.worker worker).uses registrar.core.table ∨
    ∃ map ∈ registrar.inserted worker, ∃ pid, use = .index pid ∧
      (map ∈ entriesOf registrar.core.table map.msg → pid = map.pid)

/-- Every pid is used properly, whichever worker takes the next step. -/
def UsesProper (pidMax : BitVec 32) (registrar : Registrar ι) : Prop :=
  ∀ worker use, registrar.Uses worker use → use.Proper pidMax

/-- A pid that names a single process and has a place in the tables. -/
def Named (pidMax pid : BitVec 32) : Prop := 0 < pid.toInt ∧ pid.toInt < pidMax.toNat

instance (pidMax pid : BitVec 32) : Decidable (Named pidMax pid) :=
  inferInstanceAs (Decidable (_ ∧ _))

/-- A register request has such a pid in its `cmd`. -/
def RegistersNamed (pidMax : BitVec 32) : Action ι → Prop
  | .register _ _ pid => Named pidMax pid
  | .work _ | .send .. | .decrement .. | .exit _ => True

instance (pidMax : BitVec 32) (action : Action ι) : Decidable (RegistersNamed pidMax action) :=
  match action with
  | .register .. => inferInstanceAs (Decidable (Named ..))
  | .work _ | .send .. | .decrement .. | .exit _ => .isTrue trivial

/-- The sweep of a worker frees no entry whose pid the worker that inserted it has yet to
read. -/
def SparesInserted (registrar : Registrar ι) : Action ι → Prop
  | .work worker => ∀ send ∈ (registrar.core.worker worker).send, send.phase = .sweeping →
      ∀ other, ∀ map ∈ registrar.inserted other,
        map ∉ dead registrar.core.table registrar.core.alive send.msg
  | .register .. | .send .. | .decrement .. | .exit _ => True

instance [Fintype ι] (registrar : Registrar ι) (action : Action ι) :
    Decidable (SparesInserted registrar action) :=
  match action with
  | .work _ => inferInstanceAs (Decidable (∀ _ ∈ _, _ → ∀ _, ∀ _ ∈ _, _ ∉ _))
  | .register .. | .send .. | .decrement .. | .exit _ => .isTrue trivial

/-- Register requests name a process, and no sweep comes before the read of a pid. -/
def Orderly (pidMax : BitVec 32) (registrar : Registrar ι) (action : Action ι) : Prop :=
  RegistersNamed pidMax action ∧ SparesInserted registrar action

instance [Fintype ι] (pidMax : BitVec 32) (registrar : Registrar ι) (action : Action ι) :
    Decidable (Orderly pidMax registrar action) :=
  inferInstanceAs (Decidable (_ ∧ _))

/-- The pid a worker was asked to register and has not inserted yet. -/
def Worker.registers : Worker → Option (BitVec 32)
  | .scanning _ pid | .inserting _ pid => some pid
  | .idle | .counting _ | .sending _ => none

/-- The invariant: every pid that came in with a register request has a name, in the
table and on its way there. -/
structure AllNamed (pidMax : BitVec 32) (core : Core ι) : Prop where
  entries : ∀ map, Holds core.table map → Named pidMax map.pid
  requests : ∀ worker, ∀ pid ∈ (core.worker worker).registers, Named pidMax pid

/-- The invariant of the registrations: besides, every entry whose pid has yet to be read
is in the table. -/
structure Tracked (pidMax : BitVec 32) (registrar : Registrar ι) : Prop where
  named : AllNamed pidMax registrar.core
  listed : ∀ worker, ∀ map ∈ registrar.inserted worker,
    map ∈ entriesOf registrar.core.table map.msg

theorem Named.proper {pidMax pid : BitVec 32} (named : Named pidMax pid) :
    (Use.index pid).Proper pidMax ∧ (Use.kill pid).Proper pidMax :=
  ⟨⟨Int.le_of_lt named.1, named.2⟩, named.1⟩

theorem AllNamed.listed {pidMax : BitVec 32} {core : Core ι} (named : AllNamed pidMax core)
    {msg : BitVec 32} {map : MsgMap} (member : map ∈ entriesOf core.table msg) :
    Named pidMax map.pid := named.entries map ⟨_, (mem_entriesOf.mp member).1⟩

/-- What has a name is used properly in a send. -/
theorem AllNamed.sends_proper {pidMax : BitVec 32} {core : Core ι} (named : AllNamed pidMax core)
    {worker : ι} {use : Use} (used : use ∈ (core.worker worker).uses core.table) :
    use.Proper pidMax := by
  cases place : core.worker worker with
  | idle | scanning _ _ | inserting _ _ | counting _ =>
    rw [place] at used
    cases used
  | sending send =>
    rw [place, Worker.uses] at used
    cases phase : send.phase with
    | counted =>
      rw [phase] at used
      obtain ⟨map, member, used⟩ := List.mem_flatMap.mp used
      have proper := (named.listed member).proper
      rcases List.mem_cons.mp used with rfl | used
      · exact proper.1
      · obtain rfl := List.mem_singleton.mp used
        exact proper.2
    | sweeping =>
      rw [phase] at used
      obtain ⟨map, member, rfl⟩ := List.mem_map.mp used
      exact (named.listed member).proper.2
    | waiting | left =>
      rw [phase] at used
      cases used

/-- What has a name, and is in the table when it is read, is used properly. -/
theorem Tracked.usesProper {pidMax : BitVec 32} {registrar : Registrar ι}
    (tracked : Tracked pidMax registrar) : UsesProper pidMax registrar := by
  rintro worker use (sends | ⟨map, inserted, pid, rfl, read⟩)
  · exact tracked.named.sends_proper sends
  · have present := tracked.listed worker map inserted
    obtain rfl := read present
    exact (tracked.named.listed present).proper.1

/-- When all pids had names so far, a request without one passes the scan. -/
theorem AllNamed.accepts {pidMax : BitVec 32} {core : Core ι} (named : AllNamed pidMax core)
    (msg : BitVec 32) {pid : BitVec 32} (unnamed : ¬ Named pidMax pid) :
    scanRefuses core.table msg pid = false := by
  rw [Bool.eq_false_iff]
  intro refused
  obtain ⟨map, member, same⟩ := List.any_eq_true.mp refused
  have found := named.entries map ⟨_, member⟩
  rw [of_decide_eq_true same] at found
  exact unnamed found

section Runs

variable [DecidableEq ι]

/-- A step that adds no entry keeps the invariant if the worker it moves has no
request, or the one it had. -/
theorem AllNamed.moveTo {pidMax : BitVec 32} {core changed : Core ι} (named : AllNamed pidMax core)
    {worker : ι} {next : Worker} (places : changed.worker = core.worker)
    (fewer : ∀ map, Holds changed.table map → Named pidMax map.pid)
    (request : ∀ pid ∈ next.registers, Named pidMax pid) :
    AllNamed pidMax (changed.moveTo worker next) := by
  constructor
  · exact fewer
  · intro other
    rcases eq_or_ne other worker with rfl | different
    · simp only [Core.moveTo, Function.update_self]
      exact request
    · simp only [Core.moveTo, ne_eq, different, not_false_eq_true, Function.update_of_ne, places]
      exact named.requests other

/-- A step that leaves the worker it moves without a request. -/
theorem AllNamed.rest {pidMax : BitVec 32} {core : Core ι} (named : AllNamed pidMax core)
    (worker : ι) {next : Worker} (requested : next.registers = none) :
    AllNamed pidMax (core.moveTo worker next) := by
  apply named.moveTo rfl named.entries
  intro pid request
  rw [requested] at request
  cases request

/-- Every step keeps the invariant if a register request names a process. -/
theorem perform_named {pidMax : BitVec 32} {core after : Core ι} {action : Action ι}
    (named : AllNamed pidMax core) (registers : RegistersNamed pidMax action)
    (taken : perform core action = some after) : AllNamed pidMax after := by
  cases perform_moves taken with
  | register worker msg pid =>
    refine named.moveTo rfl named.entries ?_
    rintro other ⟨⟩
    exact registers
  | send worker | refuse worker | count worker | signal worker | test worker | leave worker
  | decrement worker => exact named.rest worker rfl
  | accept worker msg pid place =>
    have request := named.requests worker
    rw [place] at request
    exact named.moveTo rfl named.entries request
  | insert worker msg pid place =>
    have request := named.requests worker
    rw [place] at request
    refine named.moveTo rfl ?_ ?_
    · rintro map ⟨bucket, member⟩
      rcases mem_insert.mp member with older | ⟨rfl, _⟩
      · exact named.entries map ⟨bucket, older⟩
      · exact request pid rfl
    · rintro requested ⟨⟩
  | sweep worker send =>
    refine named.moveTo rfl ?_ ?_
    · rintro map ⟨bucket, member⟩
      exact named.entries map ⟨bucket, mem_of_mem_sweep member⟩
    · rintro requested ⟨⟩
  | exit pid => exact { named with }

/-- A step of the registrations. A worker with a pid to read does that next, and takes no
request before; any other step is one of `emi_core`. -/
def Registrar.perform (registrar : Registrar ι) : Action ι → Option (Registrar ι)
  | .work worker =>
      match registrar.inserted worker with
      | some _ => some { registrar with
          inserted := Function.update registrar.inserted worker none }
      | none => (work registrar.core worker).map fun core =>
          ⟨core, Function.update registrar.inserted worker
            ((registrar.core.worker worker).inserts registrar.core.table)⟩
  | action =>
      if (action.requests.bind registrar.inserted).isSome then none
      else (TablePasses.perform registrar.core action).map fun core =>
        { registrar with core := core }

/-- The runs of `emi_core` from an empty table, whatever processes there are. -/
def registering (ι : Type) [DecidableEq ι] : System (Registrar ι) (Action ι) :=
  System.performing (fun registrar => (serving ι).start registrar.core ∧
    ∀ worker, registrar.inserted worker = none) Registrar.perform

/-- What a step of the registrations does. -/
inductive Registrar.Moves (registrar : Registrar ι) : Action ι → Registrar ι → Prop
  | read (worker : ι) : Moves registrar (.work worker)
      { registrar with inserted := Function.update registrar.inserted worker none }
  | work (worker : ι) (core : Core ι)
      (taken : TablePasses.perform registrar.core (.work worker) = some core) :
      Moves registrar (.work worker) ⟨core, Function.update registrar.inserted worker
        ((registrar.core.worker worker).inserts registrar.core.table)⟩
  | other (action : Action ι) (core : Core ι) (idle : ∀ worker, action ≠ .work worker)
      (taken : TablePasses.perform registrar.core action = some core) :
      Moves registrar action { registrar with core := core }

theorem Registrar.perform_moves {registrar after : Registrar ι} {action : Action ι}
    (taken : registrar.perform action = some after) : registrar.Moves action after := by
  cases action with
  | work worker =>
    rw [Registrar.perform] at taken
    cases place : registrar.inserted worker with
    | some map =>
      simp only [place] at taken
      obtain rfl := Option.some.inj taken
      exact .read worker
    | none =>
      simp only [place] at taken
      obtain ⟨core, worked, rfl⟩ := Option.map_eq_some_iff.mp taken
      exact .work worker core worked
  | register | send | decrement | exit =>
    rw [Registrar.perform] at taken
    · obtain ⟨_, taken⟩ := Option.ite_none_left_eq_some.mp taken
      obtain ⟨core, performed, rfl⟩ := Option.map_eq_some_iff.mp taken
      exact .other _ core nofun performed
    · nofun

/-- An entry stays in the table unless a sweep frees it. -/
theorem entry_kept {core after : Core ι} {action : Action ι} {map : MsgMap}
    (present : map ∈ entriesOf core.table map.msg)
    (taken : perform core action = some after)
    (spared : ∀ worker, action = .work worker → ∀ send ∈ (core.worker worker).send,
      send.phase = .sweeping → map ∉ dead core.table core.alive send.msg) :
    map ∈ entriesOf after.table map.msg := by
  cases perform_moves taken with
  | register | send | refuse | accept | count | signal | test | leave | decrement | exit =>
    exact present
  | insert worker msg pid =>
    obtain ⟨placed, same⟩ := mem_entriesOf.mp present
    exact mem_entriesOf.mpr ⟨mem_insert.mpr (.inl placed), same⟩
  | sweep worker send place phase =>
    have outside := spared worker rfl send (by rw [place]; rfl) phase
    refine (mem_sweep core.alive _ core.table send.tally).mpr ⟨?_, present⟩
    rintro ⟨listed, gone⟩
    exact outside (List.mem_filter.mpr ⟨listed, by simp [gone]⟩)

/-- A worker that inserts puts its entry into the table. -/
theorem inserts_listed {core after : Core ι} {worker : ι} {map : MsgMap}
    (inserts : (core.worker worker).inserts core.table = some map)
    (taken : perform core (.work worker) = some after) :
    map ∈ entriesOf after.table map.msg := by
  cases perform_moves taken with
  | insert _ msg pid place =>
    rw [place] at inserts
    obtain rfl := Option.some.inj inserts
    refine mem_entriesOf.mpr ⟨mem_insert.mpr (.inr ⟨rfl, rfl⟩), rfl⟩
  | refuse _ _ _ place | accept _ _ _ place | count _ _ place | signal _ _ place
  | test _ _ place | sweep _ _ place | leave _ _ place =>
    rw [place] at inserts
    cases inserts

/-- Every orderly step keeps the invariant. -/
theorem Tracked.perform {pidMax : BitVec 32} {registrar after : Registrar ι} {action : Action ι}
    (tracked : Tracked pidMax registrar) (orderly : Orderly pidMax registrar action)
    (taken : registrar.perform action = some after) : Tracked pidMax after := by
  obtain ⟨named, listed⟩ := tracked
  cases Registrar.perform_moves taken with
  | read worker =>
    refine ⟨named, ?_⟩
    intro other map inserted
    simp only [Function.update_apply] at inserted
    split_ifs at inserted
    · cases inserted
    · exact listed other map inserted
  | work worker core worked =>
    refine ⟨perform_named named orderly.1 worked, ?_⟩
    intro other map inserted
    simp only [Function.update_apply] at inserted
    split_ifs at inserted with same
    · exact inserts_listed inserted worked
    · refine entry_kept (listed other map inserted) worked ?_
      rintro _ ⟨⟩ send sending phase
      exact orderly.2 send sending phase other map inserted
  | other _ core idle performed =>
    refine ⟨perform_named named orderly.1 performed, ?_⟩
    intro other map inserted
    refine entry_kept (listed other map inserted) performed ?_
    exact fun worker same => absurd same (idle worker)

/-- Along every run whose register requests name a positive pid below `pid_max`, and whose
sweeps free no entry before its pid is read behind the insertion, every index is in the
tables and every `kill` has a single target. -/
theorem uses_proper (ι : Type) [DecidableEq ι] (pidMax : BitVec 32) (registrar : Registrar ι)
    (reached : (registering ι).ReachedUnder (Orderly pidMax) registrar) :
    UsesProper pidMax registrar := by
  have tracked : Tracked pidMax registrar := by
    apply reached.invariant
    · rintro start ⟨⟨empty, idle⟩, nothing⟩
      refine ⟨⟨?_, ?_⟩, ?_⟩
      · simp [Holds, empty, initMsgTable]
      · simp [idle, Worker.registers]
      · simp [nothing]
    · intro before action after tracked orderly taken
      exact tracked.perform orderly taken
  exact tracked.usesProper

/-- No worker has anything to do yet. -/
def resting (ι : Type) : Registrar ι := ⟨begin ι, fun _ => none⟩

theorem resting_starts (ι : Type) [DecidableEq ι] : (registering ι).start (resting ι) :=
  ⟨begin_starts ι, fun _ => rfl⟩

/-- A process with this pid registers for msg seven, and a message is sent up to its
signal pass. -/
def registerAndSend (pid : BitVec 32) : List (Action Bool) :=
  [.register false 7 pid, .work false, .work false, .work false, .send true 7, .work true]

/-- The pids of a usual system. -/
def defaultPidMax : BitVec 32 := 32768

/-- The signal pass of a send to process one uses its pid properly. -/
theorem one_proper :
    UsesProper defaultPidMax ((System.follow Registrar.perform (Orderly defaultPidMax)
      (resting Bool) (registerAndSend 1)).get (by decide)) :=
  uses_proper Bool defaultPidMax _
    (System.followed_reached (registerAndSend 1) (.initial (resting Bool) (resting_starts _))
      (by decide))

/-- Not in every run are pids used properly: a register request with `cmd` -1 is
entered, and the next send of its msg signals every process. -/
theorem minus_one_improper :
    ¬ ∀ registrar : Registrar Bool, (registering Bool).Reached registrar →
      UsesProper defaultPidMax registrar := by
  intro always
  have reached : (registering Bool).Reached ((System.follow Registrar.perform (fun _ _ => True)
      (resting Bool) (registerAndSend (-1))).get (by decide)) :=
    System.followed_reached (registerAndSend (-1)) (.initial (resting Bool) (resting_starts _))
      (by decide)
  have proper := always _ reached true (.kill (-1)) (.inl (by decide))
  revert proper
  decide

/-- The condition is exact for the indices: a request out of range is entered, and its pid
is used as an index behind the insertion. -/
theorem unnamed_index {pidMax : BitVec 32} {registrar : Registrar ι}
    (named : AllNamed pidMax registrar.core) {worker : ι}
    (idle : registrar.core.worker worker = .idle) (ready : registrar.inserted worker = none)
    (msg : BitVec 32) {pid : BitVec 32} (outside : ¬ (0 ≤ pid.toInt ∧ pid.toInt < pidMax.toNat)) :
    ∃ after, System.follow Registrar.perform (fun _ _ => True) registrar
      [.register worker msg pid, .work worker, .work worker] = some after ∧
        ¬ UsesProper pidMax after := by
  have accepted := named.accepts msg fun found => outside found.proper.1
  refine ⟨⟨{ registrar.core with table := emiHinsert registrar.core.table msg pid }.moveTo worker
    .idle, Function.update registrar.inserted worker (some (registrar.core.table.newMap msg pid))⟩,
    ?_, fun proper => outside (proper worker (.index pid) (.inr ⟨_, Function.update_self ..,
      pid, rfl, fun _ => rfl⟩))⟩
  simp [System.follow, Registrar.perform, Action.requests, perform, work, idle, ready, Core.moveTo,
    accepted, Worker.inserts]

/-- The condition is exact for the signals: a request that is not positive is
entered, and `kill` gets its pid in the signal pass of the next send of its msg. -/
theorem unnamed_kill (pidMax : BitVec 32) {core : Core ι} (worker : ι) (msg : BitVec 32)
    {pid : BitVec 32} (group : ¬ 0 < pid.toInt)
    (few : (entriesOf core.table msg).length + 1 < 2 ^ 32) :
    ∃ after, System.follow Registrar.perform (fun _ _ => True)
      ⟨core.moveTo worker (.inserting msg pid), fun _ => none⟩
      [.work worker, .work worker, .send worker msg, .work worker] = some after ∧
        ¬ UsesProper pidMax after := by
  let table := emiHinsert core.table msg pid
  have entries : entriesOf table msg = core.table.newMap msg pid :: entriesOf core.table msg :=
    entriesOf_insert core.table msg pid
  have counted : (count table msg).phase = .counted := by
    apply if_pos
    intro zero
    have exact := @countUp_toNat 32 MsgMap (entriesOf table msg) (by rw [entries]; exact few)
    rw [zero, entries] at exact
    cases exact
  refine ⟨⟨{ core with table := table }.moveTo worker (.sending (count table msg)),
    fun _ => none⟩, ?_, ?_⟩
  · simp [System.follow, Registrar.perform, Action.requests, perform, work, Core.moveTo, table,
      Worker.inserts]
  · intro proper
    apply group
    refine proper worker (.kill pid) (.inl ?_)
    have place : ({ core with table := table }.moveTo worker
        (.sending (count table msg))).worker worker = .sending (count table msg) :=
      Function.update_self ..
    rw [place, Worker.uses, counted]
    apply List.mem_flatMap.mpr
    refine ⟨core.table.newMap msg pid, ?_, List.mem_cons_of_mem _ List.mem_cons_self⟩
    change core.table.newMap msg pid ∈ entriesOf table msg
    rw [entries]
    exact List.mem_cons_self

/-- The condition is exact for the sweeps: behind a sweep that frees an entry before its
pid is read, whatever is found there becomes an index. -/
theorem freed_index {pidMax : BitVec 32} {registrar : Registrar ι} {worker other : ι} {send : Send}
    {map : MsgMap} (place : registrar.core.worker worker = .sending send)
    (sweeps : send.phase = .sweeping) (ready : registrar.inserted worker = none)
    (inserted : registrar.inserted other = some map)
    (freed : map ∈ dead registrar.core.table registrar.core.alive send.msg) :
    ∃ after, registrar.perform (.work worker) = some after ∧ ¬ UsesProper pidMax after := by
  obtain ⟨listed, gone⟩ := List.mem_filter.mp freed
  have apart : other ≠ worker := by
    rintro rfl
    rw [ready] at inserted
    cases inserted
  refine ⟨_, by rw [Registrar.perform, ready, work, place]; simp only [sweeps]; rfl, ?_⟩
  intro proper
  have used := proper other (.index (-1)) (.inr ⟨map, ?_, -1, rfl, ?_⟩)
  · exact absurd used.1 (by decide)
  · simp only [Function.update_of_ne apart, inserted, Option.mem_def]
  · intro present
    have same := (mem_entriesOf.mp listed).2
    obtain ⟨outside, _⟩ := (mem_sweep registrar.core.alive _ registrar.core.table send.tally).mp
      present
    exact absurd ⟨listed, by simpa using gone⟩ outside

end Runs

end Emilib.TablePasses
