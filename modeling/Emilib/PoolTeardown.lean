import Emilib.PoolJobs

/-!
# Tearing the thread pool down

`emi_thread_pool_destroy` takes the spin lock of the pool and keeps it while it goes
through the list. For each thread it locks the thread, marks it as exiting, signals
it, unlocks it and joins it. The threads and submits of the pool go on meanwhile.

A thread looks at its mark only when a wait returns, and it returns from a job to
the list under the spin lock. A thread that has not reached its first wait when it
is marked goes to sleep behind the signal. One that has a job stays before the spin
lock for good, with its own lock held.
-/

namespace Emilib.PoolTeardown

open ThreadPool

/-- The next step of `emi_thread_pool_destroy`, with the rest of the list. -/
inductive Destroyer (ι : Type) where
  | entering
  | walking (rest : List ι)
  | locking (thread : ι) (rest : List ι)
  | marking (thread : ι) (rest : List ι)
  | signalling (thread : ι) (rest : List ι)
  | unlocking (thread : ι) (rest : List ι)
  | joining (thread : ι) (rest : List ι)
  | releasing
  | done
deriving DecidableEq

/-- A pool and the call that tears it down. -/
structure Teardown (ι σ Arg : Type) where
  pool : Pool ι σ Arg
  destroyer : Destroyer ι

/-- A step of the pool or of the teardown. -/
inductive Move (ι σ : Type) where
  | pool (action : Action ι σ)
  | destroy
deriving DecidableEq

variable {ι σ Arg : Type}

/-- The steps at which the teardown holds the spin lock. -/
def Destroyer.critical : Destroyer ι → Bool
  | .entering | .done => false
  | .walking _ | .locking .. | .marking .. | .signalling .. | .unlocking .. | .joining ..
  | .releasing => true

/-- The thread whose lock the teardown takes next. -/
def Destroyer.next : Destroyer ι → Option ι
  | .locking thread _ => some thread
  | .entering | .walking _ | .marking .. | .signalling .. | .unlocking .. | .joining ..
  | .releasing | .done => none

/-- The thread whose lock the teardown holds. -/
def Destroyer.holds : Destroyer ι → Option ι
  | .marking thread _ | .signalling thread _ | .unlocking thread _ => some thread
  | .entering | .walking _ | .locking .. | .joining .. | .releasing | .done => none

/-- The thread whose lock the teardown has taken and that it has not yet joined. -/
def Destroyer.reached : Destroyer ι → Option ι
  | .marking thread _ | .signalling thread _ | .unlocking thread _ | .joining thread _ =>
      some thread
  | .entering | .walking _ | .locking .. | .releasing | .done => none

/-- That thread, once it is marked. -/
def Destroyer.marked : Destroyer ι → Option ι
  | .signalling thread _ | .unlocking thread _ | .joining thread _ => some thread
  | .entering | .walking _ | .locking .. | .marking .. | .releasing | .done => none

/-- That thread, once it is signalled. -/
def Destroyer.signalled : Destroyer ι → Option ι
  | .unlocking thread _ | .joining thread _ => some thread
  | .entering | .walking _ | .locking .. | .marking .. | .signalling .. | .releasing | .done => none

/-- The threads the teardown has not yet locked. -/
def Destroyer.ahead : Destroyer ι → List ι
  | .locking thread rest => thread :: rest
  | .walking rest | .marking _ rest | .signalling _ rest | .unlocking _ rest
  | .joining _ rest => rest
  | .entering | .releasing | .done => []

/-- The places from a wait on, at which a thread will look at its status before it
does anything else. -/
def late : Place σ → Bool
  | .asleep | .woken | .checking | .leaving | .ended => true
  | _ => false

section Steps

variable [DecidableEq ι] [DecidableEq σ]

/-- One step of `emi_thread_pool_destroy`. The list is only changed under the spin
lock, so the rest of the walk is known once the lock is taken. A thread is joined
when its function has returned. -/
def destroyStep (state : Teardown ι σ Arg) : Option (Teardown ι σ Arg) :=
  let pool := state.pool
  match state.destroyer with
  | .entering =>
      if pool.spinlock = none then
        some ⟨{ pool with spinlock := some .destroyer }, .walking pool.order⟩
      else none
  | .walking [] => some ⟨pool, .releasing⟩
  | .walking (thread :: rest) =>
      some ⟨{ pool with order := pool.order.erase thread }, .locking thread rest⟩
  | .locking thread rest =>
      if (pool.thread thread).lock = none then
        some ⟨pool.setThread thread { pool.thread thread with lock := some .destroyer },
          .marking thread rest⟩
      else none
  | .marking thread rest =>
      some ⟨pool.setThread thread { pool.thread thread with status := .exit },
        .signalling thread rest⟩
  | .signalling thread rest => some ⟨pool.wake thread, .unlocking thread rest⟩
  | .unlocking thread rest =>
      some ⟨pool.setThread thread { pool.thread thread with lock := none }, .joining thread rest⟩
  | .joining thread rest =>
      if (pool.thread thread).place = .ended then some ⟨pool, .walking rest⟩ else none
  | .releasing => some ⟨{ pool with spinlock := none }, .done⟩
  | .done => none

/-- The step a label names, if it can be taken. -/
def step (argument : σ → Arg) (state : Teardown ι σ Arg) : Move ι σ → Option (Teardown ι σ Arg)
  | .pool action => (perform argument state.pool action).map fun pool => { state with pool }
  | .destroy => destroyStep state

/-- The runs of a pool, its submits and the call that tears it down. -/
def tearing (argument : σ → Arg) : System (Teardown ι σ Arg) (Move ι σ) :=
  System.performing (fun state => Fresh state.pool ∧ state.destroyer = .entering) (step argument)

end Steps

/-- The teardown waits for a thread: for its lock, or for its end. -/
def AwaitsThread (state : Teardown ι σ Arg) (thread : ι) : Prop :=
  (∃ rest, state.destroyer = .locking thread rest ∧ (state.pool.thread thread).lock ≠ none) ∨
    ∃ rest, state.destroyer = .joining thread rest ∧ (state.pool.thread thread).place ≠ .ended

/-- A thread waits for the spin lock, or sleeps while nobody is going to signal it. -/
def Stranded (pool : Pool ι σ Arg) (thread : ι) : Prop :=
  ((pool.thread thread).place = .entering ∧ pool.spinlock ≠ none) ∨
    ((pool.thread thread).place = .asleep ∧ ∀ submit, (pool.submit submit).due ≠ some thread)

/-- The teardown waits for a thread that is stranded. -/
def Deadlocked (state : Teardown ι σ Arg) : Prop :=
  ∃ thread, AwaitsThread state thread ∧ Stranded state.pool thread

/-- The teardown takes the spin lock while no thread is between finding a function and
the list, no thread finds a function while the teardown holds the spin lock, and each
thread has begun `thread_func` with its lock when the teardown takes that lock. -/
def Settled (state : Teardown ι σ Arg) : Move ι σ → Prop
  | .pool (.thread thread) => state.destroyer.critical = true →
      (state.pool.thread thread).place = .testing → (state.pool.thread thread).func = none
  | .pool (.stir _) | .pool (.submit _) => True
  | .destroy =>
      (state.destroyer = .entering → ∀ thread,
        (state.pool.thread thread).place.busy = false ∧
          (state.pool.thread thread).place ≠ .entering) ∧
      ∀ thread, state.destroyer.next = some thread → (state.pool.thread thread).place ≠ .locking

/-- The locks are held where the code holds them, those of the teardown included. -/
structure Sound (state : Teardown ι σ Arg) : Prop where
  exclusive : Exclusive state.pool
  spinning : state.destroyer.critical = true ↔ state.pool.spinlock = some .destroyer
  locking : ∀ thread, state.destroyer.holds = some thread ↔
    (state.pool.thread thread).lock = some .destroyer

/-- The invariant of settled runs: while the teardown holds the spin lock no thread
has a job, and the thread whose lock it took is on its way out. -/
structure Orderly (state : Teardown ι σ Arg) : Prop where
  sound : Sound state
  quiet : state.destroyer.critical = true → ∀ thread,
    (state.pool.thread thread).place.busy = false ∧ (state.pool.thread thread).place ≠ .entering
  late : ∀ thread, state.destroyer.reached = some thread →
    late (state.pool.thread thread).place = true
  marked : ∀ thread, state.destroyer.marked = some thread →
    (state.pool.thread thread).status = .exit
  awake : ∀ thread, state.destroyer.signalled = some thread →
    (state.pool.thread thread).place ≠ .asleep

/-- An orderly teardown waits for no stranded thread. A thread that holds its lock
against the teardown is neither asleep nor before the spin lock, and one that is being
joined was woken behind its mark. -/
theorem Orderly.not_deadlocked {state : Teardown ι σ Arg} (orderly : Orderly state) :
    ¬ Deadlocked state := by
  rintro ⟨thread, awaits, stranded⟩
  have critical : state.destroyer.critical = true := by
    rcases awaits with ⟨rest, place, _⟩ | ⟨rest, place, _⟩
    · rw [place]
      rfl
    · rw [place]
      rfl
  rcases stranded with ⟨entering, _⟩ | ⟨asleep, _⟩
  · exact (orderly.quiet critical thread).2 entering
  · rcases awaits with ⟨rest, place, locked⟩ | ⟨rest, place, _⟩
    · obtain ⟨party, owner⟩ := Option.ne_none_iff_exists'.mp locked
      rcases orderly.sound.exclusive.owned thread party owner with rfl | rfl
      · have holds := (orderly.sound.exclusive.locked thread).mpr owner
        rw [asleep] at holds
        cases holds
      · have held := (orderly.sound.locking thread).mpr owner
        rw [place] at held
        cases held
    · exact orderly.awake thread (by rw [place]; rfl) asleep

/-- The spin lock goes between the teardown and nobody. -/
theorem exclusive_respin {pool : Pool ι σ Arg} (exclusive : Exclusive pool)
    (held : pool.spinlock = none ∨ pool.spinlock = some .destroyer)
    {spinlock : Option (Party ι σ)} (next : spinlock = none ∨ spinlock = some .destroyer) :
    Exclusive { pool with spinlock := spinlock } where
  spinThread thread := by
    have outside := exclusive.spinThread thread
    rcases held with held | held <;> rcases next with rfl | rfl <;> simpa [held] using outside
  spinSubmit submit := by
    have outside := exclusive.spinSubmit submit
    rcases held with held | held <;> rcases next with rfl | rfl <;> simpa [held] using outside
  locked := exclusive.locked
  owned := exclusive.owned

/-- A thread whose lock the teardown holds, or nobody, is at a place without it. -/
theorem outside_lock {pool : Pool ι σ Arg} (exclusive : Exclusive pool) {thread : ι}
    (held : (pool.thread thread).lock = none ∨ (pool.thread thread).lock = some .destroyer) :
    (pool.thread thread).place.holds = false := by
  rw [← Bool.not_eq_true, exclusive.locked thread]
  rcases held with held | held <;> simp [held]

/-- A thread that was marked was reached. -/
theorem Destroyer.marked_reached {destroyer : Destroyer ι} {thread : ι}
    (marked : destroyer.marked = some thread) : destroyer.reached = some thread := by
  cases destroyer <;> first | exact marked | cases marked

/-- A thread that was signalled was reached. -/
theorem Destroyer.signalled_reached {destroyer : Destroyer ι} {thread : ι}
    (signalled : destroyer.signalled = some thread) : destroyer.reached = some thread := by
  cases destroyer <;> first | exact signalled | cases signalled

/-- A thread that was reached is marked, or the teardown still has its lock. -/
theorem Destroyer.reached_cases {destroyer : Destroyer ι} {thread : ι}
    (reached : destroyer.reached = some thread) :
    destroyer.marked = some thread ∨ destroyer.holds = some thread := by
  cases destroyer with
  | marking other rest => exact .inr reached
  | _ => exact .inl reached

/-- Between two threads the teardown asks only that none has a job. -/
theorem Orderly.between {state : Teardown ι σ Arg} (sound : Sound state)
    (quiet : state.destroyer.critical = true → ∀ thread,
      (state.pool.thread thread).place.busy = false ∧
        (state.pool.thread thread).place ≠ .entering)
    (unreached : state.destroyer.reached = none) : Orderly state := by
  have nobody (thread : ι) : state.destroyer.reached ≠ some thread := by
    rw [unreached]
    exact (Option.some_ne_none thread).symm
  constructor
  · exact sound
  · exact quiet
  · exact fun thread reached => absurd reached (nobody thread)
  · exact fun thread marked => absurd (Destroyer.marked_reached marked) (nobody thread)
  · exact fun thread signalled => absurd (Destroyer.signalled_reached signalled) (nobody thread)

/-- Outside of its critical section the teardown asks nothing of the threads. -/
theorem Sound.orderly {state : Teardown ι σ Arg} (sound : Sound state)
    (outside : state.destroyer.critical = false) : Orderly state := by
  apply Orderly.between sound
  · intro critical
    rw [outside] at critical
    cases critical
  · cases place : state.destroyer with
    | entering | done => rfl
    | _ =>
      rw [place] at outside
      cases outside

section Threads

variable [DecidableEq ι]

/-- A step of a thread leaves the locks of the teardown alone. -/
theorem thread_keeps {pool after : Pool ι σ Arg} {thread : ι} (exclusive : Exclusive pool)
    (taken : threadStep pool thread = some after) :
    (after.spinlock = some .destroyer ↔ pool.spinlock = some .destroyer) ∧
      ∀ other, (after.thread other).lock = some .destroyer ↔
        (pool.thread other).lock = some .destroyer := by
  have own := exclusive.locked thread
  have spin := exclusive.spinThread thread
  have locks (record : Thread ι σ Arg) (same : record.lock = some .destroyer ↔
      (pool.thread thread).lock = some .destroyer) (other : ι) :
      ((pool.setThread thread record).thread other).lock = some .destroyer ↔
        (pool.thread other).lock = some .destroyer := by
    rcases eq_or_ne other thread with rfl | different
    · rw [setThread_same]
      exact same
    · rw [setThread_other pool record different]
  cases threadStep_moves taken with
  | lock next free place =>
    refine ⟨Iff.rfl, locks _ ?_⟩
    simp [free]
  | unlock next place =>
    refine ⟨Iff.rfl, locks _ ?_⟩
    have held : (pool.thread thread).lock = some (.thread thread) := by
      rcases place with ⟨place, _⟩ | ⟨place, _⟩
      · exact own.mp (by rw [place]; rfl)
      · exact own.mp (by rw [place]; rfl)
    simp [held]
  | park _ _ | find _ _ _ | leave _ _ | resume _ _ | call _ _ _ | run _ _ | finish _ _ | clear _ _
  | idle _ | move _ =>
    exact ⟨Iff.rfl, locks _ Iff.rfl⟩
  | enter place free =>
    refine ⟨?_, locks _ Iff.rfl⟩
    simp [free]
  | release place =>
    refine ⟨?_, locks _ Iff.rfl⟩
    have held := spin.mp (by rw [place]; rfl)
    simp [held]

/-- What the teardown does to a record that it may change: the thread stays at its
place, and its lock goes between the teardown and nobody. -/
theorem exclusive_held {pool : Pool ι σ Arg} (exclusive : Exclusive pool) {thread : ι}
    {lock : Option (Party ι σ)} {status : Status}
    (outside : (pool.thread thread).place.holds = false)
    (held : lock = none ∨ lock = some .destroyer) :
    Exclusive (pool.setThread thread
      { pool.thread thread with lock := lock, status := status }) := by
  refine exclusive.setThread rfl ?_ ?_
  · rcases held with rfl | rfl <;> simp [outside]
  · rcases held with rfl | rfl <;> simp

/-- Changing the record of a thread keeps the invariant when the thread stays without
a job, on its way out and awake as far as the teardown got. -/
theorem Orderly.setThread {state : Teardown ι σ Arg} (orderly : Orderly state) {thread : ι}
    {record : Thread ι σ Arg}
    (sound : Sound { state with pool := state.pool.setThread thread record })
    (quiet : record.place.busy = false ∧ record.place ≠ .entering)
    (out : state.destroyer.reached = some thread → PoolTeardown.late record.place = true)
    (marked : state.destroyer.marked = some thread → record.status = .exit)
    (awake : state.destroyer.signalled = some thread → record.place ≠ .asleep) :
    Orderly { state with pool := state.pool.setThread thread record } := by
  constructor
  · exact sound
  · intro critical other
    rcases eq_or_ne other thread with rfl | different
    · simpa only [setThread_same] using quiet
    · simpa only [setThread_other _ _ different] using orderly.quiet critical other
  · intro other reached
    rcases eq_or_ne other thread with rfl | different
    · simpa only [setThread_same] using out reached
    · simpa only [setThread_other _ _ different] using orderly.late other reached
  · intro other told
    rcases eq_or_ne other thread with rfl | different
    · simpa only [setThread_same] using marked told
    · simpa only [setThread_other _ _ different] using orderly.marked other told
  · intro other signalled
    rcases eq_or_ne other thread with rfl | different
    · simpa only [setThread_same] using awake signalled
    · simpa only [setThread_other _ _ different] using orderly.awake other signalled

/-- Changing the record of the thread that the teardown is at keeps the invariant when
the thread stays at its place, on its way out. -/
theorem Orderly.reach {pool : Pool ι σ Arg} {destroyer next : Destroyer ι} {thread : ι}
    {record : Thread ι σ Arg} (orderly : Orderly ⟨pool, destroyer⟩)
    (critical : destroyer.critical = true)
    (sound : Sound ⟨pool.setThread thread record, next⟩)
    (stays : record.place = (pool.thread thread).place) (only : next.reached = some thread)
    (out : PoolTeardown.late record.place = true)
    (marked : next.marked = some thread → record.status = .exit)
    (awake : next.signalled = some thread → record.place ≠ .asleep) :
    Orderly ⟨pool.setThread thread record, next⟩ := by
  have same {other : ι} (reached : next.reached = some other) : other = thread :=
    Option.some.inj (reached.symm.trans only)
  have quiet := orderly.quiet critical
  constructor
  · exact sound
  · intro _ other
    rcases eq_or_ne other thread with rfl | different
    · simpa only [setThread_same, stays] using quiet other
    · simpa only [setThread_other _ _ different] using quiet other
  · intro other reached
    obtain rfl := same reached
    simpa only [setThread_same] using out
  · intro other told
    obtain rfl := same (Destroyer.marked_reached told)
    simpa only [setThread_same] using marked told
  · intro other signalled
    obtain rfl := same (Destroyer.signalled_reached signalled)
    simpa only [setThread_same] using awake signalled

/-- A step of a thread keeps the invariant if it finds no function while the teardown
holds the spin lock. -/
theorem thread_orderly {state : Teardown ι σ Arg} {pool : Pool ι σ Arg} {thread : ι}
    (orderly : Orderly state) (critical : state.destroyer.critical = true)
    (unset : (state.pool.thread thread).place = .testing →
      (state.pool.thread thread).func = none)
    (taken : threadStep state.pool thread = some pool)
    (sound : Sound { state with pool := pool }) : Orderly { state with pool := pool } := by
  have quiet := orderly.quiet critical thread
  have out := orderly.late thread
  have told := orderly.marked thread
  have spins := orderly.sound.exclusive.spinThread thread
  rw [orderly.sound.spinning.mp critical] at spins
  cases threadStep_moves taken with
  | lock next free place =>
    rcases place with ⟨place, rfl⟩ | ⟨place, rfl⟩
    · refine orderly.setThread sound ⟨rfl, by rintro ⟨⟩⟩ (fun reached => ?_) told (by rintro _ ⟨⟩)
      have late := out reached
      rw [place] at late
      cases late
    · exact orderly.setThread sound ⟨rfl, by rintro ⟨⟩⟩ (fun _ => rfl) told (by rintro _ ⟨⟩)
  | unlock next place =>
    rcases place with ⟨place, rfl⟩ | ⟨place, rfl⟩
    · refine orderly.setThread sound ⟨rfl, by rintro ⟨⟩⟩ (fun _ => rfl) told (fun signalled => ?_)
      have late := out (Destroyer.signalled_reached signalled)
      rw [place] at late
      cases late
    · exact orderly.setThread sound ⟨rfl, by rintro ⟨⟩⟩ (fun _ => rfl) told (by rintro _ ⟨⟩)
  | park place _ =>
    refine orderly.setThread sound ⟨rfl, by rintro ⟨⟩⟩ (fun reached => ?_) told (by rintro _ ⟨⟩)
    have late := out reached
    rw [place] at late
    cases late
  | find place job set =>
    rw [unset place] at set
    cases set
  | leave place _ =>
    exact orderly.setThread sound ⟨rfl, by rintro ⟨⟩⟩ (fun _ => rfl) told (by rintro _ ⟨⟩)
  | resume place stays =>
    refine orderly.setThread sound ⟨rfl, by rintro ⟨⟩⟩ (fun reached => ?_) told (by rintro _ ⟨⟩)
    rcases Destroyer.reached_cases reached with marked | held
    · exact absurd (told marked) stays
    · have outside := outside_lock orderly.sound.exclusive
        (.inr ((orderly.sound.locking thread).mp held))
      rw [place] at outside
      cases outside
  | call place _ _ | run _ place | finish _ place | clear _ place | idle place =>
    rw [place] at quiet
    cases quiet.1
  | enter place _ => exact absurd place quiet.2
  | move place | release place =>
    rw [place] at spins
    cases spins.mp rfl

variable [DecidableEq σ]

/-- Waking a thread leaves the locks alone. -/
theorem wake_lock (pool : Pool ι σ Arg) (thread other : ι) :
    ((pool.wake thread).thread other).lock = (pool.thread other).lock := by
  obtain ⟨place, record, _⟩ := wake_record pool thread other
  rw [record]

/-- A step of a submit leaves the locks of the teardown alone. -/
theorem submit_keeps {argument : σ → Arg} {pool after : Pool ι σ Arg} {submit : σ}
    (exclusive : Exclusive pool) (taken : submitStep argument pool submit = some after) :
    (after.spinlock = some .destroyer ↔ pool.spinlock = some .destroyer) ∧
      ∀ other, (after.thread other).lock = some .destroyer ↔
        (pool.thread other).lock = some .destroyer := by
  have spin := exclusive.spinSubmit submit
  have locks (thread : ι) (status : Status) (func : Option σ) (args : Arg) (other : ι) :
      ((pool.setThread thread { pool.thread thread with
        status := status, func := func, args := args }).thread other).lock =
        (pool.thread other).lock := by
    rcases eq_or_ne other thread with rfl | different
    · rw [setThread_same]
    · rw [setThread_other pool _ different]
  cases submitStep_moves taken with
  | enter _ free =>
    refine ⟨?_, fun _ => Iff.rfl⟩
    simp [free]
  | choose _ _ _ | accept _ _ _ | refuse _ _ | spawn _ | move _ _ =>
    exact ⟨Iff.rfl, fun _ => Iff.rfl⟩
  | claim thread _ =>
    refine ⟨Iff.rfl, fun other => ?_⟩
    rw [proceed_thread, locks thread .busy (pool.thread thread).func
      (pool.thread thread).args other]
  | fill thread _ =>
    refine ⟨Iff.rfl, fun other => ?_⟩
    rw [proceed_thread, locks thread (pool.thread thread).status (some submit)
      (pool.thread thread).args other]
  | pass thread _ =>
    refine ⟨Iff.rfl, fun other => ?_⟩
    rw [proceed_thread, locks thread (pool.thread thread).status (pool.thread thread).func
      (argument submit) other]
  | release next place =>
    refine ⟨?_, fun _ => Iff.rfl⟩
    have held : pool.spinlock = some (.submit submit) := by
      rcases place with ⟨thread, place, _⟩ | ⟨place, _⟩
      · exact spin.mp (by rw [place]; rfl)
      · exact spin.mp (by rw [place]; rfl)
    simp [held]
  | signal thread _ =>
    refine ⟨?_, fun other => ?_⟩
    · rw [proceed_spinlock, wake_spinlock]
    · rw [proceed_thread, wake_lock]

/-- Every step of the pool leaves the locks of the teardown alone. -/
theorem pool_keeps {argument : σ → Arg} {pool after : Pool ι σ Arg} {action : Action ι σ}
    (exclusive : Exclusive pool) (taken : perform argument pool action = some after) :
    (after.spinlock = some .destroyer ↔ pool.spinlock = some .destroyer) ∧
      ∀ other, (after.thread other).lock = some .destroyer ↔
        (pool.thread other).lock = some .destroyer := by
  cases action with
  | thread thread => exact thread_keeps exclusive taken
  | stir thread =>
    obtain ⟨place, taken⟩ := Option.ite_none_right_eq_some.mp taken
    have woken : pool.wake thread = after := (if_pos place).trans (Option.some.inj taken)
    rw [← woken]
    exact ⟨by rw [wake_spinlock], fun other => by rw [wake_lock]⟩
  | submit submit => exact submit_keeps exclusive taken

/-- A step of the teardown keeps the locks sound. -/
theorem destroyStep_sound {state after : Teardown ι σ Arg} (sound : Sound state)
    (taken : destroyStep state = some after) : Sound after := by
  obtain ⟨exclusive, spinning, locking⟩ := sound
  rw [destroyStep] at taken
  cases place : state.destroyer with
  | entering =>
    rw [place] at locking
    simp only [place] at taken
    obtain ⟨free, taken⟩ := Option.ite_none_right_eq_some.mp taken
    obtain rfl := Option.some.inj taken
    exact ⟨exclusive_respin exclusive (.inl free) (.inr rfl), by simp [Destroyer.critical],
      locking⟩
  | walking rest =>
    rw [place] at locking spinning
    cases rest with
    | nil =>
      simp only [place] at taken
      obtain rfl := Option.some.inj taken
      exact ⟨exclusive, spinning, locking⟩
    | cons thread rest =>
      simp only [place] at taken
      obtain rfl := Option.some.inj taken
      exact ⟨{ exclusive with }, spinning, locking⟩
  | locking thread rest =>
    rw [place] at locking spinning
    simp only [place] at taken
    obtain ⟨free, taken⟩ := Option.ite_none_right_eq_some.mp taken
    obtain rfl := Option.some.inj taken
    refine ⟨?_, spinning, ?_⟩
    · exact @exclusive_held _ _ _ _ state.pool exclusive thread _ (state.pool.thread thread).status
        (outside_lock exclusive (.inl free)) (.inr rfl)
    · intro other
      rcases eq_or_ne other thread with rfl | different
      · simp [Destroyer.holds]
      · rw [setThread_other _ _ different, ← locking other]
        simp [Destroyer.holds, different.symm]
  | marking thread rest =>
    rw [place] at locking spinning
    simp only [place] at taken
    obtain rfl := Option.some.inj taken
    have held := (locking thread).mp rfl
    refine ⟨?_, spinning, ?_⟩
    · have kept := @exclusive_held _ _ _ _ state.pool exclusive thread _ .exit
        (outside_lock exclusive (.inr held)) (.inr held)
      exact kept
    · intro other
      rcases eq_or_ne other thread with rfl | different
      · simp [Destroyer.holds, held]
      · rw [setThread_other _ _ different, ← locking other]
        simp [Destroyer.holds]
  | signalling thread rest =>
    rw [place] at locking spinning
    simp only [place] at taken
    obtain rfl := Option.some.inj taken
    refine ⟨exclusive.wake thread, ?_, fun other => ?_⟩
    · rw [wake_spinlock]
      exact spinning
    · rw [wake_lock]
      exact locking other
  | unlocking thread rest =>
    rw [place] at locking spinning
    simp only [place] at taken
    obtain rfl := Option.some.inj taken
    have held := (locking thread).mp rfl
    refine ⟨?_, spinning, ?_⟩
    · exact @exclusive_held _ _ _ _ state.pool exclusive thread _ (state.pool.thread thread).status
        (outside_lock exclusive (.inr held)) (.inl rfl)
    · intro other
      rcases eq_or_ne other thread with rfl | different
      · simp [Destroyer.holds]
      · rw [setThread_other _ _ different, ← locking other]
        simp [Destroyer.holds, different.symm]
  | joining thread rest =>
    rw [place] at locking spinning
    simp only [place] at taken
    obtain ⟨_, taken⟩ := Option.ite_none_right_eq_some.mp taken
    obtain rfl := Option.some.inj taken
    exact ⟨exclusive, spinning, locking⟩
  | releasing =>
    rw [place] at locking spinning
    simp only [place] at taken
    obtain rfl := Option.some.inj taken
    exact ⟨exclusive_respin exclusive (.inr (spinning.mp rfl)) (.inl rfl),
      by simp [Destroyer.critical], locking⟩
  | done =>
    simp only [place] at taken
    cases taken

/-- Every step keeps the locks sound. -/
theorem step_sound {argument : σ → Arg} {state after : Teardown ι σ Arg} {move : Move ι σ}
    (sound : Sound state) (taken : step argument state move = some after) : Sound after := by
  cases move with
  | pool action =>
    obtain ⟨pool, performed, rfl⟩ := Option.map_eq_some_iff.mp taken
    obtain ⟨spinlock, locks⟩ := pool_keeps sound.exclusive performed
    constructor
    · exact perform_exclusive sound.exclusive performed
    · rw [spinlock]
      exact sound.spinning
    · intro thread
      rw [locks thread]
      exact sound.locking thread
  | destroy => exact destroyStep_sound sound taken

/-- Waking a thread keeps the invariant. -/
theorem Orderly.wake {state : Teardown ι σ Arg} (orderly : Orderly state) (thread : ι)
    (sound : Sound { state with pool := state.pool.wake thread }) :
    Orderly { state with pool := state.pool.wake thread } := by
  rw [Pool.wake] at sound ⊢
  split at sound
  case isTrue asleep =>
    rw [if_pos asleep]
    exact orderly.setThread sound ⟨rfl, by rintro ⟨⟩⟩ (fun _ => rfl) (orderly.marked thread)
      (by rintro _ ⟨⟩)
  case isFalse awake =>
    rw [if_neg awake]
    exact orderly

/-- A step of a submit keeps the invariant: behind the spin lock it can only signal, or
start a thread of its own. -/
theorem submit_orderly {argument : σ → Arg} {state : Teardown ι σ Arg} {pool : Pool ι σ Arg}
    {submit : σ} (orderly : Orderly state) (critical : state.destroyer.critical = true)
    (taken : submitStep argument state.pool submit = some pool)
    (sound : Sound { state with pool := pool }) : Orderly { state with pool := pool } := by
  have held := orderly.sound.spinning.mp critical
  have spins := orderly.sound.exclusive.spinSubmit submit
  rw [held] at spins
  cases submitStep_moves taken with
  | enter _ free =>
    rw [held] at free
    cases free
  | choose place _ _ | accept _ place _ | refuse _ place | claim _ place | fill _ place
  | pass _ place | move _ place =>
    rw [place] at spins
    cases spins.mp rfl
  | release _ place =>
    rcases place with ⟨_, place, _⟩ | ⟨place, _⟩
    · rw [place] at spins
      cases spins.mp rfl
    · rw [place] at spins
      cases spins.mp rfl
  | signal thread place =>
    have woken := orderly.wake thread
      ⟨orderly.sound.exclusive.wake thread, by rw [wake_spinlock]; exact orderly.sound.spinning,
        fun other => by rw [wake_lock]; exact orderly.sound.locking other⟩
    exact ⟨sound, woken.quiet, woken.late, woken.marked, woken.awake⟩
  | spawn place => exact ⟨sound, orderly.quiet, orderly.late, orderly.marked, orderly.awake⟩

/-- A step of the pool keeps the invariant if it is settled. -/
theorem pool_orderly {argument : σ → Arg} {state : Teardown ι σ Arg} {pool : Pool ι σ Arg}
    {action : Action ι σ} (orderly : Orderly state) (settled : Settled state (.pool action))
    (taken : perform argument state.pool action = some pool)
    (sound : Sound { state with pool := pool }) : Orderly { state with pool := pool } := by
  cases critical : state.destroyer.critical with
  | false => exact sound.orderly critical
  | true =>
    cases action with
    | thread thread => exact thread_orderly orderly critical (settled critical) taken sound
    | stir thread =>
      obtain ⟨place, taken⟩ := Option.ite_none_right_eq_some.mp taken
      have woken : state.pool.wake thread = pool := (if_pos place).trans (Option.some.inj taken)
      rw [← woken] at sound ⊢
      exact orderly.wake thread sound
    | submit submit => exact submit_orderly orderly critical taken sound

/-- A step of the teardown keeps the invariant if it is settled. -/
theorem destroyStep_orderly {state after : Teardown ι σ Arg} (orderly : Orderly state)
    (settled : Settled state .destroy) (taken : destroyStep state = some after)
    (sound : Sound after) : Orderly after := by
  obtain ⟨pool, destroyer⟩ := state
  rw [destroyStep] at taken
  cases destroyer with
  | entering =>
    obtain ⟨free, taken⟩ := Option.ite_none_right_eq_some.mp taken
    obtain rfl := Option.some.inj taken
    exact Orderly.between sound (fun _ => settled.1 rfl) rfl
  | walking rest =>
    cases rest with
    | nil =>
      obtain rfl := Option.some.inj taken
      exact Orderly.between sound orderly.quiet rfl
    | cons thread rest =>
      obtain rfl := Option.some.inj taken
      exact Orderly.between sound orderly.quiet rfl
  | locking thread rest =>
    obtain ⟨free, taken⟩ := Option.ite_none_right_eq_some.mp taken
    obtain rfl := Option.some.inj taken
    have outside := outside_lock orderly.sound.exclusive (.inl free)
    have begun : (pool.thread thread).place ≠ .locking := settled.2 thread rfl
    refine orderly.reach rfl sound rfl rfl ?_ (by rintro ⟨⟩) (by rintro ⟨⟩)
    cases place : (pool.thread thread).place <;> simp_all [Place.holds, late]
  | marking thread rest =>
    obtain rfl := Option.some.inj taken
    exact orderly.reach rfl sound rfl rfl (orderly.late thread rfl) (fun _ => rfl) (by rintro ⟨⟩)
  | signalling thread rest =>
    obtain rfl := Option.some.inj taken
    have woken : Orderly ⟨pool.wake thread, .signalling thread rest⟩ :=
      orderly.wake thread ⟨sound.exclusive, sound.spinning, sound.locking⟩
    refine ⟨sound, woken.quiet, woken.late, woken.marked, ?_⟩
    rintro other ⟨⟩
    obtain ⟨place, record, ⟨_, moved⟩ | moved⟩ := wake_record pool thread thread
    · rw [record]
      exact moved rfl
    · rw [record, moved]
      rintro ⟨⟩
  | unlocking thread rest =>
    obtain rfl := Option.some.inj taken
    exact orderly.reach rfl sound rfl rfl (orderly.late thread rfl)
      (fun _ => orderly.marked thread rfl) (fun _ => orderly.awake thread rfl)
  | joining thread rest =>
    obtain ⟨_, taken⟩ := Option.ite_none_right_eq_some.mp taken
    obtain rfl := Option.some.inj taken
    exact Orderly.between sound orderly.quiet rfl
  | releasing =>
    obtain rfl := Option.some.inj taken
    exact sound.orderly rfl
  | done => cases taken

/-- In every settled run, the teardown is never deadlocked with a thread. -/
theorem settled_not_deadlocked (argument : σ → Arg) (state : Teardown ι σ Arg)
    (reached : (tearing argument).ReachedUnder Settled state) : ¬ Deadlocked state := by
  have orderly : Orderly state := by
    apply reached.invariant
    · rintro start ⟨fresh, entering⟩
      have exclusive := fresh_exclusive fresh
      obtain ⟨spinlock, _, _, _, records, _, _⟩ := fresh
      have sound : Sound start := by
        constructor
        · exact exclusive
        · simp [entering, Destroyer.critical, spinlock]
        · intro thread
          obtain ⟨args, record⟩ := records thread
          simp [entering, Destroyer.holds, record]
      exact sound.orderly (by rw [entering]; rfl)
    · intro before move after orderly settled taken
      have sound := step_sound orderly.sound taken
      cases move with
      | pool action =>
        obtain ⟨pool, performed, rfl⟩ := Option.map_eq_some_iff.mp taken
        exact pool_orderly orderly settled performed sound
      | destroy => exact destroyStep_orderly orderly settled taken sound
  exact orderly.not_deadlocked

end Threads

instance [Fintype ι] [DecidableEq ι] [DecidableEq σ] (state : Teardown ι σ Arg)
    (move : Move ι σ) : Decidable (Settled state move) :=
  match move with
  | .pool (.thread _) => inferInstanceAs (Decidable (_ → _ → _))
  | .pool (.stir _) | .pool (.submit _) => .isTrue trivial
  | .destroy => inferInstanceAs (Decidable ((_ → ∀ _, _ ∧ _) ∧ ∀ _, _ → _))

/-- The only thread has run a job and sleeps again when it is torn down. -/
def tornAsleep : List (Move Unit Unit) :=
  asleepFirst.map .pool ++ List.replicate 8 (.pool (.thread ())) ++ List.replicate 6 .destroy

/-- The only thread has not begun when it is torn down. -/
def tornUnstarted : List (Move Unit Unit) :=
  List.replicate 6 .destroy ++ List.replicate 3 (.pool (.thread ()))

/-- A pool of one thread, before it is torn down. -/
def standing : Teardown Unit Unit Nat := ⟨onePool, .entering⟩

theorem standing_starts : (tearing seven).start standing := ⟨onePool_starts, rfl⟩

/-- A sleeping thread is joined without a deadlock. -/
theorem torn_asleep_not_deadlocked :
    ¬ Deadlocked ((System.follow (step seven) Settled standing tornAsleep).get (by decide)) :=
  settled_not_deadlocked seven _
    (System.followed_reached tornAsleep (.initial standing standing_starts) (by decide))

/-- Not every run is free of deadlocks: a thread that was marked and signalled before
it began goes to sleep, and the teardown joins it. -/
theorem torn_unstarted_deadlocked :
    ¬ ∀ state : Teardown Unit Unit Nat, (tearing seven).Reached state → ¬ Deadlocked state := by
  intro never
  have reached : (tearing seven).Reached
      ((System.follow (step seven) (fun _ _ => True) standing tornUnstarted).get (by decide)) :=
    System.followed_reached tornUnstarted (.initial standing standing_starts) (by decide)
  apply never _ reached
  exact ⟨(), .inr ⟨[], by decide, by decide⟩, .inr ⟨by decide, by decide⟩⟩

/-- The condition is exact for threads that have not begun: the teardown of such a
thread deadlocks when the thread goes to sleep and nobody else signals it. -/
theorem unstarted_deadlocks [DecidableEq ι] [DecidableEq σ] {argument : σ → Arg}
    {pool : Pool ι σ Arg} {thread : ι} {rest : List ι}
    (unstarted : (pool.thread thread).place = .locking)
    (free : (pool.thread thread).lock = none) (unset : (pool.thread thread).func = none)
    (nobody : ∀ submit, (pool.submit submit).due ≠ some thread) :
    ∃ after, System.follow (step argument) (fun _ _ => True) ⟨pool, .locking thread rest⟩
        (List.replicate 4 .destroy ++ List.replicate 3 (.pool (.thread thread))) = some after ∧
      Deadlocked after := by
  refine ⟨⟨pool.setThread thread { pool.thread thread with
    lock := none, status := .exit, place := .asleep }, .joining thread rest⟩, ?_, ?_⟩
  · simp [System.follow, List.replicate, step, destroyStep, perform, threadStep, Pool.wake,
      Pool.goto, free, unstarted, unset]
  · refine ⟨thread, .inr ⟨rest, rfl, ?_⟩, .inr ⟨?_, nobody⟩⟩
    · rw [setThread_same]
      rintro ⟨⟩
    · rw [setThread_same]

/-- A thread that has found a function, or will, and is not back in the list. -/
def Engaged (pool : Pool ι σ Arg) (thread : ι) : Prop :=
  (pool.thread thread).place.busy = true ∨ (pool.thread thread).place = .entering ∨
    ((pool.thread thread).place = .testing ∧ (pool.thread thread).func ≠ none)

/-- An engaged thread holds its lock. -/
theorem Engaged.holds {pool : Pool ι σ Arg} {thread : ι} (engaged : Engaged pool thread) :
    (pool.thread thread).place.holds = true := by
  rcases engaged with busy | place | ⟨place, _⟩
  · cases place : (pool.thread thread).place <;> rw [place] at busy <;> first | rfl | cases busy
  · rw [place]
    rfl
  · rw [place]
    rfl

section Threads

variable [DecidableEq ι]

/-- A thread stays engaged when the record of another one changes. -/
theorem Engaged.apart {pool : Pool ι σ Arg} {thread other : ι} (engaged : Engaged pool thread)
    (different : thread ≠ other) (record : Thread ι σ Arg) :
    Engaged (pool.setThread other record) thread := by
  rw [Engaged, setThread_other pool record different]
  exact engaged

/-- A thread stays engaged when a record changes but not its place and function. -/
theorem Engaged.setThread {pool : Pool ι σ Arg} {thread other : ι} (engaged : Engaged pool thread)
    {record : Thread ι σ Arg} (place : record.place = (pool.thread other).place)
    (func : record.func = (pool.thread other).func) :
    Engaged (pool.setThread other record) thread := by
  rcases eq_or_ne thread other with rfl | different
  · rw [Engaged, setThread_same, place, func]
    exact engaged
  · exact engaged.apart different record

/-- While the teardown holds the spin lock, no step of a thread ends its engagement. -/
theorem thread_engaged {pool after : Pool ι σ Arg} {thread other : ι}
    (exclusive : Exclusive pool) (held : pool.spinlock = some .destroyer)
    (engaged : Engaged pool thread) (taken : threadStep pool other = some after) :
    Engaged after thread := by
  have spins := exclusive.spinThread other
  rw [held] at spins
  rcases eq_or_ne thread other with rfl | different
  · rw [Engaged] at engaged
    cases threadStep_moves taken with
    | lock _ _ place | unlock _ place =>
      rcases place with ⟨place, _⟩ | ⟨place, _⟩ <;> simp [place, Place.busy] at engaged
    | park place unset => simp [place, unset, Place.busy] at engaged
    | find _ _ _ | call _ _ _ | run _ _ | finish _ _ | clear _ _ =>
      left
      simp [Pool.goto, Place.busy]
    | idle _ =>
      right
      left
      simp
    | leave place _ | resume place _ => simp [place, Place.busy] at engaged
    | enter _ free =>
      rw [held] at free
      cases free
    | move place | release place =>
      rw [place] at spins
      cases spins.mp rfl
  · cases threadStep_moves taken <;> exact engaged.apart different _

variable [DecidableEq σ]

/-- Waking a thread ends no engagement. -/
theorem Engaged.wake {pool : Pool ι σ Arg} {thread : ι} (engaged : Engaged pool thread)
    (other : ι) : Engaged (pool.wake other) thread := by
  rw [Pool.wake]
  split
  case isTrue asleep =>
    apply engaged.apart
    rintro rfl
    have holds := engaged.holds
    rw [asleep] at holds
    cases holds
  case isFalse => exact engaged

/-- While the teardown holds the spin lock, no step of the pool ends an engagement. -/
theorem pool_engaged {argument : σ → Arg} {pool after : Pool ι σ Arg} {thread : ι}
    {action : Action ι σ} (exclusive : Exclusive pool) (held : pool.spinlock = some .destroyer)
    (engaged : Engaged pool thread) (taken : perform argument pool action = some after) :
    Engaged after thread := by
  cases action with
  | thread other => exact thread_engaged exclusive held engaged taken
  | stir other =>
    obtain ⟨place, taken⟩ := Option.ite_none_right_eq_some.mp taken
    have woken : pool.wake other = after := (if_pos place).trans (Option.some.inj taken)
    exact woken ▸ engaged.wake other
  | submit submit =>
    have spins := exclusive.spinSubmit submit
    rw [held] at spins
    cases submitStep_moves taken with
    | enter _ free =>
      rw [held] at free
      cases free
    | choose place _ _ | accept _ place _ | refuse _ place | claim _ place | fill _ place
    | pass _ place | move _ place =>
      rw [place] at spins
      cases spins.mp rfl
    | release _ place =>
      rcases place with ⟨_, place, _⟩ | ⟨place, _⟩
      · rw [place] at spins
        cases spins.mp rfl
      · rw [place] at spins
        cases spins.mp rfl
    | signal other _ => exact engaged.wake other
    | spawn _ => exact engaged

/-- A teardown that holds the spin lock and has an engaged thread before it. -/
structure Doomed (state : Teardown ι σ Arg) (thread : ι) : Prop where
  sound : Sound state
  critical : state.destroyer.critical = true
  ahead : thread ∈ state.destroyer.ahead
  engaged : Engaged state.pool thread

/-- Taking the spin lock while a thread of the list is engaged dooms the teardown. -/
theorem entering_dooms {pool : Pool ι σ Arg} {after : Teardown ι σ Arg} {thread : ι}
    (sound : Sound ⟨pool, .entering⟩) (listed : thread ∈ pool.order)
    (engaged : Engaged pool thread) (taken : destroyStep ⟨pool, .entering⟩ = some after) :
    Doomed after thread := by
  have later := destroyStep_sound sound taken
  obtain ⟨_, taken⟩ := Option.ite_none_right_eq_some.mp taken
  obtain rfl := Option.some.inj taken
  exact ⟨later, rfl, listed, engaged⟩

/-- A doomed teardown stays doomed: it cannot get the lock of the thread, and the
thread cannot get the spin lock. -/
theorem Doomed.step {argument : σ → Arg} {state after : Teardown ι σ Arg} {thread : ι}
    {move : Move ι σ} (doomed : Doomed state thread)
    (taken : step argument state move = some after) : Doomed after thread := by
  have sound := step_sound doomed.sound taken
  obtain ⟨before, critical, ahead, engaged⟩ := doomed
  cases move with
  | pool action =>
    obtain ⟨pool, performed, rfl⟩ := Option.map_eq_some_iff.mp taken
    exact ⟨sound, critical, ahead,
      pool_engaged before.exclusive (before.spinning.mp critical) engaged performed⟩
  | destroy =>
    obtain ⟨pool, destroyer⟩ := state
    have taken : destroyStep ⟨pool, destroyer⟩ = some after := taken
    rw [destroyStep] at taken
    cases destroyer with
    | entering | done => cases critical
    | walking rest =>
      cases rest with
      | nil => cases ahead
      | cons other rest =>
        obtain rfl := Option.some.inj taken
        exact ⟨sound, rfl, ahead, engaged⟩
    | locking other rest =>
      obtain ⟨free, taken⟩ := Option.ite_none_right_eq_some.mp taken
      obtain rfl := Option.some.inj taken
      have behind : thread ∈ rest := by
        rcases List.mem_cons.mp ahead with rfl | behind
        · have held := (before.exclusive.locked thread).mp engaged.holds
          rw [free] at held
          cases held
        · exact behind
      exact ⟨sound, rfl, behind, engaged.setThread rfl rfl⟩
    | marking other rest | unlocking other rest =>
      obtain rfl := Option.some.inj taken
      exact ⟨sound, rfl, ahead, engaged.setThread rfl rfl⟩
    | signalling other rest =>
      obtain rfl := Option.some.inj taken
      exact ⟨sound, rfl, ahead, engaged.wake other⟩
    | joining other rest =>
      obtain ⟨_, taken⟩ := Option.ite_none_right_eq_some.mp taken
      obtain rfl := Option.some.inj taken
      exact ⟨sound, rfl, ahead, engaged⟩
    | releasing => cases ahead

/-- The condition is exact for threads with a job: once the teardown has the spin lock
and such a thread is before it, it does not return in any continuation. -/
theorem engaged_never_done {argument : σ → Arg} {state after : Teardown ι σ Arg} {thread : ι}
    (doomed : Doomed state thread) (moves : List (Move ι σ))
    (followed : System.follow (PoolTeardown.step argument) (fun _ _ => True) state moves =
      some after) : after.destroyer ≠ .done := by
  induction moves generalizing state with
  | nil =>
    obtain rfl := Option.some.inj followed
    intro done
    have critical := doomed.critical
    rw [done] at critical
    cases critical
  | cons move rest inductionHypothesis =>
    rw [System.follow, if_pos trivial] at followed
    obtain ⟨next, taken, remaining⟩ := Option.bind_eq_some_iff.mp followed
    exact inductionHypothesis (doomed.step taken) remaining

end Threads

end Emilib.PoolTeardown
