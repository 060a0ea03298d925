import Emilib.AllocSizes

/-!
# The shared segment, its name, and the processes that map it

`emi_core` creates the segment and initializes the arena in it before it binds its port,
so a second `emi_core` does the same to the arena of one that runs. `emi_init` opens the
segment by its name, and destroys it when it fails behind the opening.

The three builds of `emi_shmem.c` differ. A System V segment is created exclusively and
destroyed by its number. A POSIX segment or a file is opened by a creation too if it is
there, and given its size; if that fails its name is unlinked. Both are destroyed by their
path, which for a file is not the path it was created by. A segment without a name lives
on where it is mapped.

All cores are set to the same port, so at most one of them runs; a core with another
`EMI_PORT` would run on the same segment. The names can be unlinked by whoever tries,
as by the processes of one user. Left out are the contents of a segment besides the array
of the arena, and what happens to a segment while no core runs on it; the next core
initializes the array again.
-/

namespace Emilib.Segments

open BuddyTree AllocSizes

/-- The builds of `emi_shmem.c`. -/
inductive Backend where
  | sysv
  | posix
  | file
deriving DecidableEq, Repr

/-- Where `emi_shm_init` looks for a name. For System V, `hash(name)` is taken to be as
good as the name. -/
def Backend.initPath : Backend → String → String
  | .sysv, name => name
  | .posix, name => "/" ++ name
  | .file, name => "/tmp/" ++ name

/-- Where `emi_shm_destroy` looks for a name, if it does. -/
def Backend.destroyPath : Backend → String → String
  | .sysv, name => name
  | .posix, name => "/" ++ name
  | .file, name => "/tmp" ++ name

/-- A running core: `core_shmid`, the blocks handed out for its messages and not freed,
and the receivers whose `emi_init` has succeeded since it runs. -/
structure Running (ι : Type) where
  shmid : Nat
  held : List Block
  joined : List ι
deriving DecidableEq, Repr

/-- The segments by number, with the array of the arena in each, the names that lead to
them, the core that has bound the port, and the segment each receiver has mapped. -/
structure Machine (ι : Type) where
  names : String → Option Nat
  created : Nat
  msgbuf : Nat → List EmiBuf
  core : Option (Running ι)
  receiver : ι → Option Nat

/-- How far an `emi_core` gets: it fails at the opening of the segment or before, the
segment cannot be given its size, its mapping fails or a signal ends it before the
initialization, a later step fails, a signal ends it behind the initialization, or it binds
its port and runs. -/
inductive Start where
  | refused
  | unsized
  | unmapped
  | stopped
  | signalled
  | running
deriving DecidableEq, Repr

/-- How far an `emi_init` gets: it fails at the opening of the segment or before, its
mapping fails, the creation of its pool fails, or it succeeds. -/
inductive Joining where
  | refused
  | unmapped
  | unpooled
  | ready
deriving DecidableEq, Repr

/-- What happens: an `emi_core` is started, a signal or a crash ends it, a process calls
`emi_init` or exits, and the core or a receiver uses the arena the core runs on. -/
inductive Action (ι : Type) where
  | start (outcome : Start)
  | release
  | crash
  | init (receiver : ι) (outcome : Joining)
  | exit (receiver : ι)
  | request (request : Request)
deriving DecidableEq, Repr

/-- The name of the segment. -/
def segmentName : String := "emilib"

variable {ι : Type} (backend : Backend) (maxOrder : Nat)

/-- `emi_shm_init`: the number of the segment, new and filled with zeros where it has to
be created. -/
def emiShmInit (machine : Machine ι) (name : String) (create : Bool) :
    Option (Nat × Machine ι) :=
  match machine.names (backend.initPath name) with
  | some id => if create = true ∧ backend = .sysv then none else some (id, machine)
  | none =>
      if create then
        some (machine.created, { machine with
          names := Function.update machine.names (backend.initPath name) (some machine.created)
          created := machine.created + 1
          msgbuf := Function.update machine.msgbuf machine.created
            (List.replicate (2 ^ (maxOrder + 1) - 1) ⟨0, 0⟩) })
      else none

/-- `shm_unlink` and `unlink`. -/
def Machine.unlink (machine : Machine ι) (path : String) : Machine ι :=
  { machine with names := Function.update machine.names path none }

/-- `emi_shm_init` of a creation whose `ftruncate` fails. A System V segment has its size
from `shmget`. -/
def emiShmUnsized (machine : Machine ι) (name : String) : Option (Machine ι) :=
  if backend = .sysv then none
  else (emiShmInit backend maxOrder machine name true).map fun opened =>
    opened.2.unlink (backend.initPath name)

/-- `emi_shm_destroy`. -/
def emiShmDestroy (machine : Machine ι) (name : String) (id : Nat) : Machine ι :=
  match backend with
  | .sysv => { machine with
      names := fun key => if machine.names key = some id then none else machine.names key }
  | .posix | .file => machine.unlink (backend.destroyPath name)

/-- `init_emi_buf_lock` on a segment, without the lock. -/
def initEmiBufLock (machine : Machine ι) (id : Nat) : Option (Machine ι) :=
  (initEmiBuf (machine.msgbuf id) maxOrder).map fun top =>
    { machine with msgbuf := Function.update machine.msgbuf id top }

/-- `emi_core`, up to its loop. Only one process can have bound the port. -/
def emiCore (machine : Machine ι) : Start → Option (Machine ι)
  | .refused => some machine
  | .unsized => emiShmUnsized backend maxOrder machine segmentName
  | .unmapped =>
      (emiShmInit backend maxOrder machine segmentName true).map fun opened =>
        emiShmDestroy backend opened.2 segmentName opened.1
  | .stopped =>
      (emiShmInit backend maxOrder machine segmentName true).bind fun opened =>
        initEmiBufLock maxOrder opened.2 opened.1
  | .signalled =>
      (emiShmInit backend maxOrder machine segmentName true).bind fun opened =>
        (initEmiBufLock maxOrder opened.2 opened.1).map fun initialized =>
          emiShmDestroy backend initialized segmentName opened.1
  | .running =>
      if machine.core = none then
        (emiShmInit backend maxOrder machine segmentName true).bind fun opened =>
          (initEmiBufLock maxOrder opened.2 opened.1).map fun initialized =>
            { initialized with core := some ⟨opened.1, [], []⟩ }
      else none

/-- `emi_release`, called by the handler of a signal that ends the core. -/
def emiRelease (machine : Machine ι) : Option (Machine ι) :=
  machine.core.map fun running =>
    { emiShmDestroy backend machine segmentName running.shmid with core := none }

section Steps

variable [DecidableEq ι]

/-- A receiver has mapped a segment. -/
def Machine.join (machine : Machine ι) (receiver : ι) (id : Nat) : Machine ι :=
  { machine with
    receiver := Function.update machine.receiver receiver (some id)
    core := machine.core.map fun running =>
      { running with joined := receiver :: running.joined } }

/-- A receiver has gone. -/
def Machine.leave (machine : Machine ι) (receiver : ι) : Machine ι :=
  { machine with
    receiver := Function.update machine.receiver receiver none
    core := machine.core.map fun running =>
      { running with joined := running.joined.filter fun other => other ≠ receiver } }

/-- `emi_init`. -/
def emiInit (machine : Machine ι) (receiver : ι) : Joining → Option (Machine ι)
  | .refused => some machine
  | .unmapped | .unpooled =>
      (emiShmInit backend maxOrder machine segmentName false).map fun opened =>
        emiShmDestroy backend opened.2 segmentName opened.1
  | .ready =>
      (emiShmInit backend maxOrder machine segmentName false).map fun opened =>
        opened.2.join receiver opened.1

/-- A use of the arena the core runs on, by itself or by a receiver. -/
def Machine.use (machine : Machine ι) (request : Request) : Option (Machine ι) :=
  machine.core.bind fun running =>
    (serve maxOrder ⟨machine.msgbuf running.shmid, running.held⟩ request).map fun arena =>
      { machine with
        msgbuf := Function.update machine.msgbuf running.shmid arena.top
        core := some { running with held := arena.live } }

/-- What an action leads to, if it is possible. -/
def perform (machine : Machine ι) : Action ι → Option (Machine ι)
  | .start outcome => emiCore backend maxOrder machine outcome
  | .release => emiRelease backend machine
  | .crash => machine.core.map fun _ => { machine with core := none }
  | .init receiver outcome => emiInit backend maxOrder machine receiver outcome
  | .exit receiver => some (machine.leave receiver)
  | .request request => machine.use maxOrder request

end Steps

/-- An `emi_core` that gets as far as the initialization does not find the segment of one
that runs and has blocks handed out. -/
def Clear (machine : Machine ι) : Start → Prop
  | .refused | .unsized | .unmapped => True
  | .stopped | .signalled | .running => ∀ running, machine.core = some running →
      backend ≠ .sysv → machine.names (backend.initPath segmentName) = some running.shmid →
      running.held = []

/-- Starts are clear and requests are clean. -/
def Proper (machine : Machine ι) : Action ι → Prop
  | .start outcome => Clear backend machine outcome
  | .request request => ∀ running, machine.core = some running →
      CleanRequest maxOrder ⟨machine.msgbuf running.shmid, running.held⟩ request
  | .release | .crash | .init .. | .exit _ => True

instance (machine : Machine ι) (outcome : Start) : Decidable (Clear backend machine outcome) :=
  match outcome with
  | .refused | .unsized | .unmapped => isTrue trivial
  | .stopped | .signalled | .running =>
      inferInstanceAs (Decidable (∀ running ∈ machine.core, backend ≠ .sysv →
        machine.names (backend.initPath segmentName) = some running.shmid → running.held = []))

instance (machine : Machine ι) (action : Action ι) :
    Decidable (Proper backend maxOrder machine action) :=
  match action with
  | .start outcome => inferInstanceAs (Decidable (Clear backend machine outcome))
  | .request request => inferInstanceAs (Decidable (∀ running ∈ machine.core,
      CleanRequest maxOrder ⟨machine.msgbuf running.shmid, running.held⟩ request))
  | .release | .crash | .init .. | .exit _ => isTrue trivial

/-- An action that destroys a segment by `emi_shm_destroy` on the way to a failure. -/
def Action.Destroys : Action ι → Prop
  | .start .unmapped | .start .signalled | .init _ .unmapped | .init _ .unpooled => True
  | _ => False

instance (action : Action ι) : Decidable action.Destroys :=
  match action with
  | .start .unmapped | .start .signalled | .init _ .unmapped | .init _ .unpooled => isTrue trivial
  | .start .refused | .start .unsized | .start .stopped | .start .running | .release | .crash
  | .init _ .refused | .init _ .ready | .exit _ | .request _ => isFalse id

/-- While a core runs, no segment is destroyed on the way to a failure, but for a file,
whose name outlives that, and no `emi_core` fails to give the segment its size. -/
def Lasting (machine : Machine ι) (action : Action ι) : Prop :=
  (action.Destroys → machine.core = none ∨ backend = .file) ∧
    (action = .start .unsized → machine.core = none)

instance [DecidableEq ι] (machine : Machine ι) (action : Action ι) :
    Decidable (Lasting backend machine action) :=
  inferInstanceAs (Decidable ((_ → _ ∨ _) ∧ (_ → _)))

/-- The name of the segment leads to the segment that the core runs on. -/
def Bound (machine : Machine ι) : Prop :=
  ∀ running, machine.core = some running →
    machine.names (backend.initPath segmentName) = some running.shmid

/-- Every receiver whose `emi_init` has succeeded since the core runs has its segment. -/
def Shared (machine : Machine ι) : Prop :=
  ∀ running, machine.core = some running → ∀ receiver ∈ running.joined,
    machine.receiver receiver = some running.shmid

/-- A core runs on a segment that the name does not lead to, and only receivers that had
this segment before have it. -/
structure Cut (before : ι → Option Nat) (shmid : Nat) (machine : Machine ι) : Prop where
  runs : ∃ running, machine.core = some running ∧ running.shmid = shmid
  unnamed : machine.names (backend.initPath segmentName) ≠ some shmid
  earlier : ∀ receiver, machine.receiver receiver = some shmid → before receiver = some shmid

/-- Every array has the size of the tree, and no number is in use that was not given. -/
structure Numbered (machine : Machine ι) : Prop where
  sized : ∀ id, Sized maxOrder (machine.msgbuf id)
  named : ∀ path id, machine.names path = some id → id < machine.created
  running : ∀ running, machine.core = some running → running.shmid < machine.created

section Calls

variable {backend : Backend} {maxOrder : Nat} {machine opened : Machine ι} {name : String}
  {id : Nat}

/-- The segment that is opened was there, or it is a new one. -/
theorem emiShmInit_cases {create : Bool}
    (opens : emiShmInit backend maxOrder machine name create = some (id, opened)) :
    machine.names (backend.initPath name) = some id ∧ opened = machine ∧
        ¬ (create = true ∧ backend = .sysv) ∨
      machine.names (backend.initPath name) = none ∧ create = true ∧ id = machine.created ∧
        opened = { machine with
          names := Function.update machine.names (backend.initPath name) (some machine.created)
          created := machine.created + 1
          msgbuf := Function.update machine.msgbuf machine.created
            (List.replicate (2 ^ (maxOrder + 1) - 1) ⟨0, 0⟩) } := by
  rw [emiShmInit] at opens
  split at opens
  case h_1 found bound =>
    split_ifs at opens with exclusive
    obtain ⟨rfl, rfl⟩ := Prod.mk.inj (Option.some.inj opens)
    exact .inl ⟨bound, rfl, exclusive⟩
  case h_2 unbound =>
    split_ifs at opens with creates
    obtain ⟨rfl, rfl⟩ := Prod.mk.inj (Option.some.inj opens)
    exact .inr ⟨unbound, creates, rfl, rfl⟩

/-- A segment that is opened without being created was there. -/
theorem emiShmInit_opened
    (opens : emiShmInit backend maxOrder machine name false = some (id, opened)) :
    machine.names (backend.initPath name) = some id ∧ opened = machine := by
  rcases emiShmInit_cases opens with ⟨bound, same, _⟩ | ⟨_, creates, _, _⟩
  · exact ⟨bound, same⟩
  · cases creates

/-- The name leads to the segment that was opened. -/
theorem emiShmInit_named {create : Bool}
    (opens : emiShmInit backend maxOrder machine name create = some (id, opened)) :
    opened.names (backend.initPath name) = some id := by
  rcases emiShmInit_cases opens with ⟨bound, rfl, _⟩ | ⟨_, _, rfl, rfl⟩
  · exact bound
  · exact Function.update_self ..

/-- Opening a segment changes no process. -/
theorem emiShmInit_core {create : Bool}
    (opens : emiShmInit backend maxOrder machine name create = some (id, opened)) :
    opened.core = machine.core ∧ opened.receiver = machine.receiver := by
  rcases emiShmInit_cases opens with ⟨_, rfl, _⟩ | ⟨_, _, rfl, rfl⟩
  · exact ⟨rfl, rfl⟩
  · exact ⟨rfl, rfl⟩

/-- An array of the right size may be written to a segment. -/
theorem sized_update {msgbuf : Nat → List EmiBuf} (sized : ∀ id, Sized maxOrder (msgbuf id))
    {top : List EmiBuf} (topSized : Sized maxOrder top) (id other : Nat) :
    Sized maxOrder (Function.update msgbuf id top other) := by
  rw [Function.update_apply]
  split_ifs
  · exact topSized
  · exact sized other

theorem Numbered.shmInit (numbered : Numbered maxOrder machine) {create : Bool}
    (opens : emiShmInit backend maxOrder machine name create = some (id, opened)) :
    Numbered maxOrder opened := by
  rcases emiShmInit_cases opens with ⟨_, rfl, _⟩ | ⟨_, _, rfl, rfl⟩
  · exact numbered
  · refine ⟨sized_update numbered.sized List.length_replicate _, ?_, ?_⟩
    · intro path other leads
      simp only [Function.update_apply] at leads
      split_ifs at leads
      · exact Option.some.inj leads ▸ Nat.lt_succ_self _
      · exact Nat.lt_succ_of_lt (numbered.named path other leads)
    · exact fun running runs => Nat.lt_succ_of_lt (numbered.running running runs)

/-- What is opened by the name is a number that was given. -/
theorem Numbered.given (numbered : Numbered maxOrder machine) {create : Bool}
    (opens : emiShmInit backend maxOrder machine name create = some (id, opened)) :
    id < opened.created :=
  (numbered.shmInit opens).named _ id (emiShmInit_named opens)

/-- Destroying a segment takes away names only. -/
theorem emiShmDestroy_same (backend : Backend) (machine : Machine ι) (name : String) (id : Nat) :
    (emiShmDestroy backend machine name id).core = machine.core ∧
      (emiShmDestroy backend machine name id).receiver = machine.receiver ∧
      (emiShmDestroy backend machine name id).msgbuf = machine.msgbuf ∧
      (emiShmDestroy backend machine name id).created = machine.created := by
  cases backend <;> exact ⟨rfl, rfl, rfl, rfl⟩

/-- A name that is left by an unlink leads where it led. -/
theorem unlink_names {path gone : String} {other : Nat}
    (leads : (machine.unlink gone).names path = some other) : machine.names path = some other := by
  simp only [Machine.unlink, Function.update_apply] at leads
  split_ifs at leads
  exact leads

/-- A segment that cannot be given its size was opened, and loses its name. -/
theorem emiShmUnsized_cases {after : Machine ι}
    (fails : emiShmUnsized backend maxOrder machine name = some after) :
    ∃ id opened, emiShmInit backend maxOrder machine name true = some (id, opened) ∧
      after = opened.unlink (backend.initPath name) := by
  obtain ⟨_, fails⟩ := Option.ite_none_left_eq_some.mp fails
  obtain ⟨⟨id, opened⟩, opens, rfl⟩ := Option.map_eq_some_iff.mp fails
  exact ⟨id, opened, opens, rfl⟩

/-- A name that is left leads where it led. -/
theorem emiShmDestroy_names {path : String} {other : Nat}
    (leads : (emiShmDestroy backend machine name id).names path = some other) :
    machine.names path = some other := by
  cases backend with
  | sysv => exact (Option.ite_none_left_eq_some.mp leads).2
  | posix | file => exact unlink_names leads

/-- Taking names away keeps the numbers in order. -/
theorem Numbered.unlinked (numbered : Numbered maxOrder machine) (path : String) :
    Numbered maxOrder (machine.unlink path) :=
  ⟨numbered.sized, fun _ _ leads => numbered.named _ _ (unlink_names leads), numbered.running⟩

theorem Numbered.destroyed (numbered : Numbered maxOrder machine) :
    Numbered maxOrder (emiShmDestroy backend machine name id) := by
  obtain ⟨core, _, msgbuf, created⟩ := emiShmDestroy_same backend machine name id
  refine ⟨?_, ?_, ?_⟩
  · rw [msgbuf]
    exact numbered.sized
  · intro path other leads
    rw [created]
    exact numbered.named path other (emiShmDestroy_names leads)
  · rw [core, created]
    exact numbered.running

/-- An initialization writes the array of one segment. -/
theorem initEmiBufLock_cases {initialized : Machine ι}
    (writes : initEmiBufLock maxOrder machine id = some initialized) :
    ∃ top, initEmiBuf (machine.msgbuf id) maxOrder = some top ∧
      initialized = { machine with msgbuf := Function.update machine.msgbuf id top } := by
  obtain ⟨top, written, rfl⟩ := Option.map_eq_some_iff.mp writes
  exact ⟨top, written, rfl⟩

/-- An array without blocks is faithful once it is initialized. -/
theorem initialized_faithful {memory top : List EmiBuf} (sized : Sized maxOrder memory)
    (written : initEmiBuf memory maxOrder = some top) : Faithful maxOrder ⟨top, []⟩ :=
  initial_faithful ⟨rfl, memory, sized, written⟩

theorem Numbered.initialized (numbered : Numbered maxOrder machine) {initialized : Machine ι}
    (writes : initEmiBufLock maxOrder machine id = some initialized) :
    Numbered maxOrder initialized := by
  obtain ⟨top, written, rfl⟩ := initEmiBufLock_cases writes
  have sized := (initialized_faithful (numbered.sized id) written).sized
  exact ⟨sized_update numbered.sized sized id, numbered.named, numbered.running⟩

/-- The segment that is opened is that of the core, where the name leads to it. -/
theorem Bound.shmInit (bound : Bound backend machine) {create : Bool}
    (opens : emiShmInit backend maxOrder machine segmentName create = some (id, opened))
    {running : Running ι} (runs : machine.core = some running) :
    id = running.shmid ∧ opened = machine := by
  have named := bound running runs
  rcases emiShmInit_cases opens with ⟨found, same, _⟩ | ⟨unbound, _⟩
  · exact ⟨Option.some.inj (found.symm.trans named), same⟩
  · cases unbound.symm.trans named

end Calls

/-- What the actions can do. -/
inductive Moves [DecidableEq ι] (machine : Machine ι) : Action ι → Machine ι → Prop
  | startRefused : Moves machine (.start .refused) machine
  | startUnsized {id : Nat} {opened : Machine ι}
      (opens : emiShmInit backend maxOrder machine segmentName true = some (id, opened)) :
      Moves machine (.start .unsized) (opened.unlink (backend.initPath segmentName))
  | startUnmapped {id : Nat} {opened : Machine ι}
      (opens : emiShmInit backend maxOrder machine segmentName true = some (id, opened)) :
      Moves machine (.start .unmapped) (emiShmDestroy backend opened segmentName id)
  | startStopped {id : Nat} {opened initialized : Machine ι}
      (opens : emiShmInit backend maxOrder machine segmentName true = some (id, opened))
      (writes : initEmiBufLock maxOrder opened id = some initialized) :
      Moves machine (.start .stopped) initialized
  | startSignalled {id : Nat} {opened initialized : Machine ι}
      (opens : emiShmInit backend maxOrder machine segmentName true = some (id, opened))
      (writes : initEmiBufLock maxOrder opened id = some initialized) :
      Moves machine (.start .signalled) (emiShmDestroy backend initialized segmentName id)
  | startRunning {id : Nat} {opened initialized : Machine ι} (free : machine.core = none)
      (opens : emiShmInit backend maxOrder machine segmentName true = some (id, opened))
      (writes : initEmiBufLock maxOrder opened id = some initialized) :
      Moves machine (.start .running) { initialized with core := some ⟨id, [], []⟩ }
  | release {running : Running ι} (runs : machine.core = some running) :
      Moves machine .release
        { emiShmDestroy backend machine segmentName running.shmid with core := none }
  | crash : Moves machine .crash { machine with core := none }
  | initRefused {receiver : ι} : Moves machine (.init receiver .refused) machine
  | initFailed {receiver : ι} {outcome : Joining} {id : Nat}
      (fails : outcome = .unmapped ∨ outcome = .unpooled)
      (bound : machine.names (backend.initPath segmentName) = some id) :
      Moves machine (.init receiver outcome) (emiShmDestroy backend machine segmentName id)
  | initReady {receiver : ι} {id : Nat}
      (bound : machine.names (backend.initPath segmentName) = some id) :
      Moves machine (.init receiver .ready) (machine.join receiver id)
  | exit {receiver : ι} : Moves machine (.exit receiver) (machine.leave receiver)
  | request {request : Request} {running : Running ι} {arena : Arena}
      (runs : machine.core = some running)
      (served : serve maxOrder ⟨machine.msgbuf running.shmid, running.held⟩ request = some arena) :
      Moves machine (.request request) { machine with
        msgbuf := Function.update machine.msgbuf running.shmid arena.top
        core := some { running with held := arena.live } }

section Runs

variable [DecidableEq ι] {backend : Backend} {maxOrder : Nat} {machine after : Machine ι}

theorem perform_moves {action : Action ι} (taken : perform backend maxOrder machine action =
    some after) : Moves backend maxOrder machine action after := by
  cases action with
  | start outcome =>
    cases outcome with
    | refused =>
      obtain rfl := Option.some.inj taken
      exact .startRefused
    | unsized =>
      obtain ⟨id, opened, opens, rfl⟩ := emiShmUnsized_cases taken
      exact .startUnsized opens
    | unmapped =>
      obtain ⟨⟨id, opened⟩, opens, rfl⟩ := Option.map_eq_some_iff.mp taken
      exact .startUnmapped opens
    | stopped =>
      obtain ⟨⟨id, opened⟩, opens, writes⟩ := Option.bind_eq_some_iff.mp taken
      exact .startStopped opens writes
    | signalled =>
      obtain ⟨⟨id, opened⟩, opens, rest⟩ := Option.bind_eq_some_iff.mp taken
      obtain ⟨initialized, writes, rfl⟩ := Option.map_eq_some_iff.mp rest
      exact .startSignalled opens writes
    | running =>
      obtain ⟨free, starts⟩ := Option.ite_none_right_eq_some.mp taken
      obtain ⟨⟨id, opened⟩, opens, rest⟩ := Option.bind_eq_some_iff.mp starts
      obtain ⟨initialized, writes, rfl⟩ := Option.map_eq_some_iff.mp rest
      exact .startRunning free opens writes
  | release =>
    obtain ⟨running, runs, rfl⟩ := Option.map_eq_some_iff.mp taken
    exact .release runs
  | crash =>
    obtain ⟨running, runs, rfl⟩ := Option.map_eq_some_iff.mp taken
    exact .crash
  | init receiver outcome =>
    cases outcome with
    | refused =>
      obtain rfl := Option.some.inj taken
      exact .initRefused
    | unmapped | unpooled =>
      obtain ⟨⟨id, opened⟩, opens, rfl⟩ := Option.map_eq_some_iff.mp taken
      obtain ⟨bound, rfl⟩ := emiShmInit_opened opens
      exact .initFailed (by decide) bound
    | ready =>
      obtain ⟨⟨id, opened⟩, opens, rfl⟩ := Option.map_eq_some_iff.mp taken
      obtain ⟨bound, rfl⟩ := emiShmInit_opened opens
      exact .initReady bound
  | exit receiver =>
    obtain rfl := Option.some.inj taken
    exact .exit
  | request request =>
    obtain ⟨running, runs, used⟩ := Option.bind_eq_some_iff.mp taken
    obtain ⟨arena, served, rfl⟩ := Option.map_eq_some_iff.mp used
    exact .request runs served

/-- Every action keeps the numbers in order. -/
theorem Numbered.moves (numbered : Numbered maxOrder machine) {action : Action ι}
    (moves : Moves backend maxOrder machine action after) : Numbered maxOrder after := by
  cases moves with
  | startRefused | initRefused => exact numbered
  | startUnsized opens => exact (numbered.shmInit opens).unlinked _
  | startUnmapped opens => exact (numbered.shmInit opens).destroyed
  | startStopped opens writes => exact (numbered.shmInit opens).initialized writes
  | startSignalled opens writes => exact ((numbered.shmInit opens).initialized writes).destroyed
  | startRunning free opens writes =>
    have given := numbered.given opens
    have kept := (numbered.shmInit opens).initialized writes
    obtain ⟨top, _, rfl⟩ := initEmiBufLock_cases writes
    refine ⟨kept.sized, kept.named, ?_⟩
    intro running runs
    obtain rfl := Option.some.inj runs
    exact given
  | @release running runs =>
    have kept : Numbered maxOrder
        (emiShmDestroy backend machine segmentName running.shmid) := numbered.destroyed
    exact ⟨kept.sized, kept.named, fun other runs => by cases runs⟩
  | crash => exact ⟨numbered.sized, numbered.named, fun other runs => by cases runs⟩
  | initFailed fails bound => exact numbered.destroyed
  | initReady bound | exit =>
    refine ⟨numbered.sized, numbered.named, ?_⟩
    intro other runs
    obtain ⟨running, was, rfl⟩ := Option.map_eq_some_iff.mp runs
    exact numbered.running running was
  | @request request running arena runs served =>
    refine ⟨sized_update numbered.sized ?_ _, numbered.named, ?_⟩
    · exact (serve_length served).trans (numbered.sized _)
    · intro other still
      obtain rfl := Option.some.inj still
      exact numbered.running running runs

/-- A core that is cut off stays so until it ends. -/
theorem Cut.moves {before : ι → Option Nat} {shmid : Nat} (numbered : Numbered maxOrder machine)
    (cut : Cut backend before shmid machine) {action : Action ι}
    (moves : Moves backend maxOrder machine action after) (unreleased : action ≠ .release)
    (uncrashed : action ≠ .crash) : Cut backend before shmid after := by
  obtain ⟨running, runs, rfl⟩ := cut.runs
  have given := numbered.running running runs
  have opened {id : Nat} {state : Machine ι} {create : Bool}
      (opens : emiShmInit backend maxOrder machine segmentName create = some (id, state)) :
      Cut backend before running.shmid state := by
    obtain ⟨core, receiver⟩ := emiShmInit_core opens
    refine ⟨⟨running, core.trans runs, rfl⟩, ?_, by rw [receiver]; exact cut.earlier⟩
    intro named
    have found := Option.some.inj ((emiShmInit_named opens).symm.trans named)
    rcases emiShmInit_cases opens with ⟨bound, _, _⟩ | ⟨_, _, new, _⟩
    · exact cut.unnamed (bound.trans (congrArg some found))
    · omega
  have destroyed {id : Nat} {state : Machine ι} (kept : Cut backend before running.shmid state) :
      Cut backend before running.shmid (emiShmDestroy backend state segmentName id) := by
    obtain ⟨core, receiver, _⟩ := emiShmDestroy_same backend state segmentName id
    refine ⟨by rw [core]; exact kept.runs, ?_, by rw [receiver]; exact kept.earlier⟩
    exact fun named => kept.unnamed (emiShmDestroy_names named)
  cases moves with
  | startRefused | initRefused => exact cut
  | startUnsized opens =>
    have kept := opened opens
    exact ⟨kept.runs, fun named => kept.unnamed (unlink_names named), kept.earlier⟩
  | startUnmapped opens => exact destroyed (opened opens)
  | startStopped opens writes =>
    obtain ⟨top, _, rfl⟩ := initEmiBufLock_cases writes
    exact ⟨(opened opens).runs, (opened opens).unnamed, (opened opens).earlier⟩
  | startSignalled opens writes =>
    obtain ⟨top, _, rfl⟩ := initEmiBufLock_cases writes
    exact destroyed ⟨(opened opens).runs, (opened opens).unnamed, (opened opens).earlier⟩
  | startRunning free opens writes => cases runs.symm.trans free
  | release runs => exact absurd rfl unreleased
  | crash => exact absurd rfl uncrashed
  | initFailed fails named => exact destroyed cut
  | @initReady receiver id named =>
    have other : id ≠ running.shmid := by
      rintro rfl
      exact cut.unnamed named
    refine ⟨⟨_, congrArg (Option.map _) runs, rfl⟩, cut.unnamed, ?_⟩
    intro process has
    simp only [Machine.join, Function.update_apply] at has
    split_ifs at has
    · exact absurd (Option.some.inj has) other
    · exact cut.earlier process has
  | @exit receiver =>
    refine ⟨⟨_, congrArg (Option.map _) runs, rfl⟩, cut.unnamed, ?_⟩
    intro process has
    simp only [Machine.leave, Function.update_apply] at has
    split_ifs at has
    exact cut.earlier process has
  | @request _ other arena is served =>
    obtain rfl := Option.some.inj (runs.symm.trans is)
    exact ⟨⟨_, rfl, rfl⟩, cut.unnamed, cut.earlier⟩

end Runs

/-- A machine without segments; an arena has four smallest blocks. -/
def blank : Machine Bool where
  names _ := none
  created := 0
  msgbuf _ := List.replicate 7 ⟨0, 0⟩
  core := none
  receiver _ := none

/-- A core runs, and has a block handed out. -/
def serving : Machine Bool :=
  (System.follow (perform .posix 2) (Proper .posix 2) blank
    [.start .running, .request (.alloc 0)]).get (by decide +kernel)

/-- A second `emi_core` takes that block away before it finds its port bound. -/
example : ¬ Clear .posix serving .stopped := by decide +kernel

/-- A core runs, and a receiver has come in. -/
def attended : Machine Bool :=
  (System.follow (perform .posix 2) (Lasting .posix) blank
    [.start .running, .init false .ready]).get (by decide +kernel)

/-- A core runs, and an `emi_init` has failed behind the opening. -/
def unlinked : Machine Bool :=
  (System.follow (perform .posix 2) (fun _ _ => True) blank
    [.start .running, .init false .unpooled]).get (by decide +kernel)

/-- Another core creates a segment of its own and does not get its port, and a receiver
comes in. -/
def misled : Machine Bool :=
  (System.follow (perform .posix 2) (fun _ action => action ≠ .release ∧ action ≠ .crash) unlinked
    [.start .stopped, .init true .ready]).get (by decide +kernel)

/-- The receiver has the other segment. -/
example : misled.receiver true = some 1 := by decide +kernel

end Emilib.Segments
