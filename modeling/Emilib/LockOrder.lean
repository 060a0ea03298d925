import Emilib.Messages
import Emilib.RankedLocks

/-!
# The locks of `emi_core` and of the receivers

What each function locks and unlocks, in the order of the source, for every way it can
go: which branches it takes, how many entries it walks over and how often it loops is a
parameter. A pool thread locks its own lock, runs its jobs and goes back to its wait,
where the lock is given back. So all work happens in rounds, at the end of which a thread
holds nothing.

The locks of the arena and of a message are in memory that all processes share; the
others belong to one process. What a worker waits for besides locks is a receiver: that
it takes its message, and that it finishes. A submit is made by a thread of its own, or
by the handler of a signal on top of whatever a thread is doing, with the locks that it
holds. On top of a thread that holds the spin lock of the pool it would wait for itself.

Two places break the order and are left out. `emi_mutex_init` gives a slot back that
somebody else may hold, and `emi_thread_pool_destroy` takes the locks of the threads
inside the spin lock of the pool.
-/

namespace Emilib.LockOrder

open Messages RankedLocks

/-- The lock of a pool thread, the spin lock of the pool and `__func_list_lock` of a
process, `msg_table_lock`, `pididx_lock[pid]`, the lock of a message, and `emi_buf_lock`. -/
inductive Lock where
  | thread (process : BitVec 32) (thread : Nat)
  | pool (process : BitVec 32)
  | funcList (process : BitVec 32)
  | table
  | slot (pid : BitVec 32)
  | message (address : Address)
  | arena
deriving DecidableEq

/-- The operations of a function, in their order. -/
abbrev Ops := List (Op Lock)

/-- A lock that is taken alone and given back, with what is done inside. -/
def inside (lock : Lock) (ops : Ops) : Ops := .acquire lock .exclusive :: ops ++ [.release lock]

/-- `emi_alloc` and `emi_free`. -/
def arenaCall : Ops := inside .arena []

/-- The ways of `realloc_shared_msg`: the block has room, the arena has none, or the data
get a block, for which older data may be freed. -/
inductive Realloc where
  | roomy
  | exhausted
  | moved (hadData : Bool)

def reallocSharedMsg : Realloc → Ops
  | .roomy => []
  | .exhausted => arenaCall
  | .moved hadData => arenaCall ++ if hadData then arenaCall else []

/-- `free_shared_msg`, with or without data and return data of the message. -/
def freeSharedMsg (data retdata : Bool) : Ops :=
  (if data then arenaCall else []) ++ (if retdata then arenaCall else []) ++ arenaCall

/-- `emi_hinsert_unique_lock`. Its scan takes no lock. -/
def emiHinsertUniqueLock (refused : Bool) : Ops := if refused then [] else inside .table []

/-- The signal pass over the entries of these processes. -/
def signalPass (pids : List (BitVec 32)) : Ops :=
  .acquire .table .shared :: (pids.map fun pid => inside (.slot pid) []).flatten ++
    [.release .table]

/-- A sweep that finds some receivers gone. -/
def sweepPass (message : Address) (gone : Nat) : Ops :=
  inside .table (List.replicate gone (inside (.message message) [])).flatten

/-- The ways of a worker with a message: it reads none, it registers with or without a
`struct msg_map`, it finds no receiver, or it signals receivers and sweeps until the count
is zero. -/
inductive Request where
  | unread
  | register (mapped refused : Bool)
  | unheard
  | send (pids : List (BitVec 32)) (sweeps : List Nat)

def Request.ops (message : Address) : Request → Ops
  | .unread | .unheard => []
  | .register mapped refused => if mapped then emiHinsertUniqueLock refused else []
  | .send pids sweeps => signalPass pids ++ (sweeps.map (sweepPass message)).flatten

/-- What becomes of one connection. -/
structure Receipt where
  message : Address
  realloc : Realloc
  request : Request
  data : Bool
  retdata : Bool

/-- `emi_receive_operation`, which may get no block for the message. -/
def emiReceiveOperation : Option Receipt → Ops
  | none => arenaCall
  | some receipt =>
      arenaCall ++ reallocSharedMsg receipt.realloc ++ receipt.request.ops receipt.message ++
        freeSharedMsg receipt.data receipt.retdata

/-- What a handler may call: `emi_retdata_alloc` or `emi_load_retdata` with size zero, for
a message that is not in block mode, or with a call of `emi_alloc`; `emi_msg_register`,
which may fail before it adds a function; and `emi_msg_send`. -/
inductive HandlerCall where
  | noRetdata
  | refusedRetdata
  | retdata
  | register (added : Bool)
  | send

def HandlerCall.ops (process : BitVec 32) (message : Address) : HandlerCall → Ops
  | .noRetdata | .send => []
  | .refusedRetdata => inside (.message message) []
  | .retdata => inside (.message message) arenaCall
  | .register added => if added then inside (.funcList process) [] else []

/-- `__func_sterotype`, with the calls of the handler it finds, if it finds one. -/
def funcSterotype (process : BitVec 32) (message : Address) (calls : List HandlerCall) : Ops :=
  inside (.funcList process) [] ++ (calls.map (HandlerCall.ops process message)).flatten ++
    inside (.message message) []

/-- What the pools of `emi_core` and of the receivers run. -/
inductive Job where
  | receive (receipt : Option Receipt)
  | handle (process : BitVec 32) (message : Address) (calls : List HandlerCall)

def Job.ops : Job → Ops
  | .receive receipt => emiReceiveOperation receipt
  | .handle process message calls => funcSterotype process message calls

/-- The jobs of a pool thread between two waits, each followed by its return to the list. -/
def threadRound (process : BitVec 32) (thread : Nat) (jobs : List Job) : Ops :=
  inside (.thread process thread)
    (jobs.map fun job => job.ops ++ inside (.pool process) []).flatten

/-- All that takes locks: a submit, a round of a pool thread, a job in a thread of its
own, and `emi_msg_register` outside of handlers. -/
inductive Activity where
  | submit (process : BitVec 32)
  | round (process : BitVec 32) (thread : Nat) (jobs : List Job)
  | spawned (job : Job)
  | register (process : BitVec 32) (added : Bool)

def Activity.ops : Activity → Ops
  | .submit process => inside (.pool process) []
  | .round process thread jobs => threadRound process thread jobs
  | .spawned job => job.ops
  | .register process added => if added then inside (.funcList process) [] else []

/-- The order in which locks are taken. Nothing is taken inside the spin lock of a pool. -/
def Lock.rank : Lock → Nat
  | .thread .. => 0
  | .funcList _ | .table => 1
  | .slot _ | .message _ => 2
  | .arena => 3
  | .pool _ => 4

variable {bound : Nat}

theorem inside_block {lock : Lock} {ops : Ops} (high : bound ≤ lock.rank)
    (block : Block Lock.rank (lock.rank + 1) ops) : Block Lock.rank bound (inside lock ops) :=
  block.within high .exclusive

/-- A lock that is given back at once. -/
theorem brief_block {lock : Lock} (high : bound ≤ lock.rank) :
    Block Lock.rank bound (inside lock []) :=
  inside_block high (Block.nil _)

theorem arenaCall_block (high : bound ≤ 3) : Block Lock.rank bound arenaCall := brief_block high

theorem reallocSharedMsg_block (realloc : Realloc) :
    Block Lock.rank 3 (reallocSharedMsg realloc) := by
  have call : Block Lock.rank 3 arenaCall := arenaCall_block (Nat.le_refl _)
  cases realloc with
  | roomy => exact Block.nil 3
  | exhausted => exact call
  | moved hadData =>
    cases hadData with
    | true => exact call.append call
    | false => exact call.append (Block.nil 3)

theorem freeSharedMsg_block (data retdata : Bool) :
    Block Lock.rank 3 (freeSharedMsg data retdata) := by
  have call : Block Lock.rank 3 arenaCall := arenaCall_block (Nat.le_refl _)
  have optional (freed : Bool) : Block Lock.rank 3 (if freed then arenaCall else []) := by
    cases freed with
    | true => exact call
    | false => exact Block.nil 3
  exact ((optional data).append (optional retdata)).append call

theorem signalPass_block (pids : List (BitVec 32)) : Block Lock.rank 1 (signalPass pids) := by
  refine Block.within (show 1 ≤ Lock.table.rank from Nat.le_refl 1) (Block.flatten ?_) .shared
  rintro block member
  obtain ⟨pid, _, rfl⟩ := List.mem_map.mp member
  exact brief_block (Nat.le_refl _)

theorem sweepPass_block (message : Address) (gone : Nat) :
    Block Lock.rank 1 (sweepPass message gone) := by
  refine inside_block (show 1 ≤ Lock.table.rank from Nat.le_refl 1) (Block.flatten ?_)
  rintro block member
  obtain ⟨_, rfl⟩ := List.mem_replicate.mp member
  exact brief_block (Nat.le_refl _)

theorem request_block (message : Address) (request : Request) :
    Block Lock.rank 1 (request.ops message) := by
  cases request with
  | unread | unheard => exact Block.nil 1
  | register mapped refused =>
    cases mapped with
    | false => exact Block.nil 1
    | true =>
      cases refused with
      | true => exact Block.nil 1
      | false => exact brief_block (Nat.le_refl _)
  | send pids sweeps =>
    apply (signalPass_block pids).append
    apply Block.flatten
    rintro block member
    obtain ⟨gone, _, rfl⟩ := List.mem_map.mp member
    exact sweepPass_block message gone

theorem emiReceiveOperation_block (receipt : Option Receipt) :
    Block Lock.rank 1 (emiReceiveOperation receipt) := by
  have call : Block Lock.rank 1 arenaCall := arenaCall_block (by decide)
  cases receipt with
  | none => exact call
  | some receipt =>
    have realloc := (reallocSharedMsg_block receipt.realloc).lower (by decide : 1 ≤ 3)
    have freed := (freeSharedMsg_block receipt.data receipt.retdata).lower (by decide : 1 ≤ 3)
    exact ((call.append realloc).append (request_block receipt.message receipt.request)).append
      freed

theorem handlerCall_block (process : BitVec 32) (message : Address) (call : HandlerCall) :
    Block Lock.rank 1 (call.ops process message) := by
  cases call with
  | noRetdata | send => exact Block.nil 1
  | refusedRetdata => exact brief_block (Nat.le_succ 1)
  | retdata => exact inside_block (Nat.le_succ 1) (arenaCall_block (Nat.le_refl _))
  | register added =>
    cases added with
    | true => exact brief_block (Nat.le_refl _)
    | false => exact Block.nil 1

theorem funcSterotype_block (process : BitVec 32) (message : Address)
    (calls : List HandlerCall) : Block Lock.rank 1 (funcSterotype process message calls) := by
  have handler : Block Lock.rank 1 (calls.map (HandlerCall.ops process message)).flatten := by
    apply Block.flatten
    rintro block member
    obtain ⟨call, _, rfl⟩ := List.mem_map.mp member
    exact handlerCall_block process message call
  have lookup : Block Lock.rank 1 (inside (.funcList process) []) := brief_block (Nat.le_refl _)
  have finish : Block Lock.rank 1 (inside (.message message) []) := brief_block (Nat.le_succ 1)
  exact (lookup.append handler).append finish

theorem job_block (job : Job) : Block Lock.rank 1 job.ops := by
  cases job with
  | receive receipt => exact emiReceiveOperation_block receipt
  | handle process message calls => exact funcSterotype_block process message calls

theorem activity_block (activity : Activity) : Block Lock.rank 0 activity.ops := by
  cases activity with
  | submit process => exact brief_block (Nat.zero_le _)
  | spawned job => exact (job_block job).lower (Nat.zero_le _)
  | register process added =>
    cases added with
    | true => exact brief_block (Nat.zero_le _)
    | false => exact Block.nil 0
  | round process thread jobs =>
    refine inside_block (show 0 ≤ (Lock.thread process thread).rank from Nat.le_refl 0)
      (Block.flatten ?_)
    rintro block member
    obtain ⟨job, _, rfl⟩ := List.mem_map.mp member
    exact (job_block job).append (brief_block (by decide : 1 ≤ 4))

/-- Threads begin nothing but what the source has them do: one that has nothing to do
begins an activity, and a signal makes a thread submit a job in between, if it holds the
spin lock of no pool. -/
def BeginsActivity {ι : Type} (crew : Crew ι Lock) : Action ι Lock → Prop
  | .begin thread ops =>
      (crew.rest thread = [] ∧ ∃ activity : Activity, ops = activity.ops) ∨
        (∀ process, .pool process ∉ crew.held thread) ∧
          ∃ process, ops = (Activity.submit process).ops
  | .step _ => True

/-- What a thread holds besides the spin lock of a pool ranks below it. -/
theorem rank_lt_pool {lock : Lock} (other : ∀ process, lock ≠ .pool process) : lock.rank < 4 := by
  cases lock with
  | pool process => exact absurd rfl (other process)
  | arena => exact Nat.lt_succ_self 3
  | slot | message => exact (by decide : 2 < 4)
  | funcList | table => exact (by decide : 1 < 4)
  | thread => exact Nat.succ_pos 3

/-- Whatever any number of workers, receivers and submits do, in whatever order, with
submits in signal handlers on top of them: as long as one of them has not finished, one
of them can take or give back its next lock. -/
theorem locks_go_on {ι : Type} [DecidableEq ι] {crew : Crew ι Lock}
    (reached : running.ReachedUnder BeginsActivity crew) {worker : ι}
    (working : crew.rest worker ≠ []) :
    ∃ thread after, perform crew (.step thread) = some after := by
  have ordered : running.ReachedUnder (BeginsOrdered Lock.rank) crew := by
    refine reached.weaken fun before action begins => ?_
    cases action with
    | step thread => trivial
    | begin thread ops =>
      rcases begins with ⟨idle, activity, rfl⟩ | ⟨unpooled, process, rfl⟩
      · exact (activity_block activity).fresh idle
      · have submit : Block Lock.rank 4 (Activity.submit process).ops :=
          brief_block (Nat.le_refl 4)
        apply submit.begins
        intro lock held
        exact rank_lt_pool fun process same => unpooled process (same ▸ held)
  exact ordered_goes_on ordered working

/-- A worker that signals a receiver, and its handler that answers. -/
def sendAndAnswer : Bool → Activity
  | true => .round 1 0 [.receive (some ⟨4, .roomy, .send [2] [0], false, true⟩)]
  | false => .round 2 0 [.handle 2 4 [.retdata]]

def bothWorking : Crew Bool Lock := ⟨fun _ => [], fun party => (sendAndAnswer party).ops⟩

/-- The handler's thread has taken its own lock. -/
def lockTaken : Crew Bool Lock := (perform bothWorking (.step false)).get rfl

/-- Then a signal makes it submit another job first. -/
def interrupted : Crew Bool Lock :=
  (perform lockTaken (.begin false (Activity.submit 2).ops)).get rfl

theorem interrupted_goes_on :
    ∃ thread after, perform interrupted (.step thread) = some after := by
  have idle : running.ReachedUnder BeginsActivity (⟨fun _ => [], fun _ => []⟩ : Crew Bool Lock) :=
    .initial _ ⟨fun _ => rfl, fun _ => rfl⟩
  have first : running.ReachedUnder BeginsActivity
      (⟨fun _ => [], Function.update (fun _ => []) true (sendAndAnswer true).ops⟩ :
        Crew Bool Lock) :=
    .next _ _ (.begin true (sendAndAnswer true).ops) idle (.inl ⟨rfl, _, rfl⟩) rfl
  have both : running.ReachedUnder BeginsActivity bothWorking := by
    refine .next _ _ (.begin false (sendAndAnswer false).ops) first (.inl ⟨rfl, _, rfl⟩) ?_
    change some _ = some _
    congr 1
    simp only [bothWorking, Crew.mk.injEq, true_and]
    funext party
    cases party <;> rfl
  have locked : running.ReachedUnder BeginsActivity lockTaken :=
    .next _ _ (.step false) both trivial (Option.some_get _).symm
  have unpooled (process : BitVec 32) : .pool process ∉ lockTaken.held false := by
    rintro ⟨mode, member⟩
    cases member
  have reached : running.ReachedUnder BeginsActivity interrupted :=
    .next _ _ (.begin false (Activity.submit 2).ops) locked (.inr ⟨unpooled, 2, rfl⟩) rfl
  have working : interrupted.rest true ≠ [] := List.cons_ne_nil _ _
  exact locks_go_on reached working

end Emilib.LockOrder
